import Typings.Body

/-!
# The groups of a list of descriptors

What is in a group, which descriptors come up when the groups are gone through, and which names
are collected from them.

## Main results

* `mem_groups` — a group is a namespace that occurs, with its descriptors.
* `mem_renderOrder` — no descriptor is lost, and none is added.
* `groups_append`, `renderOrder_append` — two lists that share no namespace.
* `Names.mem_declared_ofTypes`, `Names.mem_referenced_ofTypes`, `Names.mem_bases_ofTypes` — where
  the names come from.
-/

namespace Typings

namespace Descriptor

variable {types : List Descriptor}

theorem mem_scopes {scope : String} : scope ∈ scopes types ↔ ∃ d ∈ types, d.scope = scope := by
  have h := @mem_distinctBy_key _ _ _ id (types.map Descriptor.scope) scope
  rw [List.map_id, List.map_id] at h
  rw [scopes, h, List.mem_map]

theorem mem_groups {scope : String} {members : List Descriptor} :
    (scope, members) ∈ groups types ↔
      (∃ d ∈ types, d.scope = scope) ∧ members = ofScope types scope := by
  rw [groups, List.mem_map, ← mem_scopes]
  constructor
  · rintro ⟨found, hfound, heq⟩
    obtain ⟨rfl, rfl⟩ := Prod.mk.inj heq
    exact ⟨hfound, rfl⟩
  · rintro ⟨hscope, rfl⟩
    exact ⟨scope, hscope, rfl⟩

theorem mem_ofScope {scope : String} {d : Descriptor} :
    d ∈ ofScope types scope ↔ d ∈ types ∧ d.scope = scope := by
  rw [ofScope, List.mem_filter, decide_eq_true_iff]

theorem mem_renderOrder {d : Descriptor} : d ∈ renderOrder types ↔ d ∈ types := by
  rw [renderOrder, List.mem_flatMap]
  constructor
  · rintro ⟨⟨scope, members⟩, hgroup, hd⟩
    obtain ⟨-, rfl⟩ := mem_groups.mp hgroup
    exact (mem_ofScope.mp hd).1
  · intro hd
    exact ⟨(d.scope, ofScope types d.scope), mem_groups.mpr ⟨⟨d, hd, rfl⟩, rfl⟩,
      mem_ofScope.mpr ⟨hd, rfl⟩⟩

/-! ## Lists that share no namespace -/

variable {xs ys : List Descriptor}

theorem ofScope_append (scope : String) :
    ofScope (xs ++ ys) scope = ofScope xs scope ++ ofScope ys scope := List.filter_append ..

theorem ofScope_eq_nil {scope : String} (h : ∀ d ∈ types, d.scope ≠ scope) :
    ofScope types scope = [] := by
  rw [ofScope, List.filter_eq_nil_iff]
  intro d hd
  simpa using h d hd

/-- The groups of two lists that share no namespace stand one behind the other. -/
theorem groups_append (h : ∀ d ∈ xs, ∀ d' ∈ ys, d.scope ≠ d'.scope) :
    groups (xs ++ ys) = groups xs ++ groups ys := by
  have hscopes : scopes (xs ++ ys) = scopes xs ++ scopes ys := by
    have hnew : ∀ other ∈ distinctBy id (ys.map scope),
        decide (id other ∉ (xs.map scope).map id) = true := by
      intro other hother
      obtain ⟨d', hd', rfl⟩ := mem_scopes.mp hother
      simp only [List.map_id, List.mem_map, id, not_exists, not_and, decide_eq_true_eq]
      exact fun d hd => h d hd d' hd'
    rw [scopes, List.map_append, distinctBy_append, List.filter_eq_self.mpr hnew]
    rfl
  rw [groups, hscopes, List.map_append, groups, groups]
  congr 1
  · apply List.map_congr_left
    intro scope hscope
    obtain ⟨d, hd, rfl⟩ := mem_scopes.mp hscope
    have hnone : ofScope ys d.scope = [] := ofScope_eq_nil fun d' hd' => (h d hd d' hd').symm
    rw [ofScope_append, hnone, List.append_nil]
  · apply List.map_congr_left
    intro scope hscope
    obtain ⟨d', hd', rfl⟩ := mem_scopes.mp hscope
    have hnone : ofScope xs d'.scope = [] := ofScope_eq_nil fun d hd => h d hd d' hd'
    rw [ofScope_append, hnone, List.nil_append]

theorem renderOrder_append (h : ∀ d ∈ xs, ∀ d' ∈ ys, d.scope ≠ d'.scope) :
    renderOrder (xs ++ ys) = renderOrder xs ++ renderOrder ys := by
  rw [renderOrder, groups_append h, List.flatMap_append]
  rfl

end Descriptor

namespace Names

variable {o : Options} {types : List Descriptor}

theorem mem_declared_ofTypes {name : String} :
    name ∈ (ofTypes o types).declared ↔ ∃ d ∈ types, o.typeName d.name = name := by
  rw [ofTypes, OrderedSet.mem_ofList, List.mem_map]
  simp only [Descriptor.mem_renderOrder]

theorem mem_referenced_ofTypes {name : String} :
    name ∈ (ofTypes o types).referenced
      ↔ ∃ d ∈ types, ∃ given ∈ d.referenceNames, o.typeName given = name := by
  rw [ofTypes, OrderedSet.mem_ofList, List.mem_map]
  simp only [List.mem_flatMap, Descriptor.mem_renderOrder]
  constructor
  · rintro ⟨given, ⟨d, hd, hown⟩, hname⟩
    exact ⟨d, hd, given, hown, hname⟩
  · rintro ⟨d, hd, given, hown, hname⟩
    exact ⟨given, ⟨d, hd, hown⟩, hname⟩

theorem mem_bases_ofTypes {base : String} :
    base ∈ (ofTypes o types).bases ↔ ∃ d ∈ types, d.extendedBase? = some base := by
  rw [ofTypes, OrderedSet.mem_ofList, List.mem_filterMap]
  simp only [Descriptor.mem_renderOrder]

end Names

end Typings
