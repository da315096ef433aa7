import Mathlib.Data.List.Induction
import Mathlib.Data.List.Nodup
import Typings.Proofs.Descriptor.Grouping

/-!
# The groups of a list as a partition

The descriptors of a list are put one by one into the group of their namespace. A descriptor goes
behind the others of its group, and the first one of a namespace opens a group behind the others.
So no group is empty, and within a group the order of the list stays. Nothing is lost or repeated,
since each descriptor goes into one group.

Put one behind the other, the groups make up a list in which the types of each namespace stand
together. Grouping this list changes nothing any more, and neither does it change the body that is
rendered.

## Main definitions

* `Descriptor.intoGroup` — one more descriptor in its group.
* `Descriptor.Grouped` — groups with namespaces of their own.
* `Descriptor.Partitions` — the groups of a list.

## Main results

* `Descriptor.foldl_intoGroup` — the descriptors one by one.
* `Descriptor.partitions_iff` — a list has one partition of this kind.
* `Descriptor.Grouped.groups_flatMap` — the groups of groups put one behind the other.
* `Descriptor.groups_partition` — all of this together.
-/

namespace Typings

namespace Descriptor

variable {types : List Descriptor}

/-! ## One by one -/

/-- One more descriptor in its group, or in a new group if there is none for its namespace. -/
def intoGroup (d : Descriptor) : List (String × List Descriptor) → List (String × List Descriptor)
  | [] => [(d.scope, [d])]
  | (scope, members) :: rest =>
    if scope = d.scope then (scope, members ++ [d]) :: rest
    else (scope, members) :: intoGroup d rest

theorem ofScope_concat_self (types : List Descriptor) (d : Descriptor) :
    ofScope (types ++ [d]) d.scope = ofScope types d.scope ++ [d] := by
  rw [ofScope_append]
  simp [ofScope]

theorem ofScope_concat_of_ne {scope : String} {d : Descriptor} (h : scope ≠ d.scope) :
    ofScope (types ++ [d]) scope = ofScope types scope := by
  have hnone : ofScope [d] scope = [] := ofScope_eq_nil (by simpa using h.symm)
  rw [ofScope_append, hnone, List.append_nil]

/-- The groups of some distinct namespaces, with one more descriptor. -/
theorem intoGroup_map {scopes : List String} (hnodup : scopes.Nodup) (types : List Descriptor)
    (d : Descriptor) :
    intoGroup d (scopes.map fun scope => (scope, ofScope types scope))
      = scopes.map (fun scope => (scope, ofScope (types ++ [d]) scope))
        ++ if d.scope ∈ scopes then [] else [(d.scope, [d])] := by
  induction scopes with
  | nil => rfl
  | cons scope rest ih =>
      obtain ⟨hnew, hrest⟩ := List.nodup_cons.mp hnodup
      rw [List.map_cons, List.map_cons, intoGroup]
      by_cases hscope : scope = d.scope
      · have hothers : ∀ other ∈ rest, other ≠ d.scope := by
          rintro other hother rfl
          exact hnew (hscope ▸ hother)
        have hsame : rest.map (fun other => (other, ofScope types other))
            = rest.map fun other => (other, ofScope (types ++ [d]) other) :=
          List.map_congr_left fun other hother => by rw [ofScope_concat_of_ne (hothers other hother)]
        rw [if_pos hscope, hscope, ofScope_concat_self, if_pos List.mem_cons_self, hsame,
          List.append_nil]
      · have hmem : d.scope ∈ scope :: rest ↔ d.scope ∈ rest := by
          simp [Ne.symm hscope]
        rw [if_neg hscope, ih hrest, ofScope_concat_of_ne hscope, List.cons_append]
        simp only [hmem]

theorem nodup_scopes (types : List Descriptor) : (scopes types).Nodup := by
  rw [scopes, ← List.map_id (distinctBy id _)]
  exact nodup_distinctBy id _

/-- **One more descriptor** behind a list is put into its group. -/
theorem intoGroup_groups (types : List Descriptor) (d : Descriptor) :
    intoGroup d (groups types) = groups (types ++ [d]) := by
  have hscopes : scopes (types ++ [d])
      = scopes types ++ if d.scope ∈ scopes types then [] else [d.scope] := by
    rw [scopes, List.map_append, List.map_singleton, distinctBy_concat, List.map_id, id]
    simp only [mem_scopes, List.mem_map]
    rfl
  rw [groups, intoGroup_map (nodup_scopes types), groups, hscopes, List.map_append]
  by_cases hmem : d.scope ∈ scopes types
  · rw [if_pos hmem, if_pos hmem, List.map_nil]
  · have hnone : ofScope types d.scope = [] :=
      ofScope_eq_nil fun other hother hsame => hmem (mem_scopes.mpr ⟨other, hother, hsame⟩)
    rw [if_neg hmem, if_neg hmem, List.map_singleton, ofScope_concat_self, hnone, List.nil_append]

/-- The descriptors one by one, each in its group. -/
theorem foldl_intoGroup (types : List Descriptor) :
    types.foldl (fun found d => intoGroup d found) [] = groups types := by
  induction types using List.reverseRecOn with
  | nil => rfl
  | append_singleton types d ih => rw [List.foldl_concat, ih, intoGroup_groups]

/-- Nothing but the descriptor is added to the groups. -/
theorem flatMap_intoGroup_perm (d : Descriptor) (found : List (String × List Descriptor)) :
    ((intoGroup d found).flatMap (·.2)).Perm (d :: found.flatMap (·.2)) := by
  induction found with
  | nil => exact .refl _
  | cons group rest ih =>
      obtain ⟨scope, members⟩ := group
      rw [intoGroup]
      split
      · rw [List.flatMap_cons, List.flatMap_cons, List.append_assoc, List.singleton_append]
        exact List.perm_middle
      · rw [List.flatMap_cons, List.flatMap_cons]
        exact (ih.append_left members).trans List.perm_middle

/-- **Nothing is lost and nothing is repeated.** -/
theorem renderOrder_perm (types : List Descriptor) : (renderOrder types).Perm types := by
  induction types using List.reverseRecOn with
  | nil => exact .refl _
  | append_singleton types d ih =>
      rw [renderOrder, ← intoGroup_groups]
      have hbehind : (d :: types).Perm (types ++ [d]) := (List.perm_append_singleton d types).symm
      exact (flatMap_intoGroup_perm d _).trans ((ih.cons d).trans hbehind)

/-! ## The groups of a list -/

/-- The groups of a list: a group for each namespace that occurs in it, in the order in which the
namespaces first occur, and in each group the descriptors of its namespace in the order of the
list. -/
structure Partitions (types : List Descriptor) (found : List (String × List Descriptor)) :
    Prop where
  nodup : (found.map (·.1)).Nodup
  occurs : ∀ scope, scope ∈ found.map (·.1) ↔ ∃ d ∈ types, d.scope = scope
  ordered : (found.map (·.1)).Pairwise fun a b =>
    (types.map scope).idxOf a < (types.map scope).idxOf b
  nonempty : ∀ group ∈ found, group.2 ≠ []
  members : ∀ group ∈ found, group.2 = types.filter (·.scope = group.1)

theorem keys_groups (types : List Descriptor) : (groups types).map (·.1) = scopes types := by
  rw [groups, List.map_map]
  exact List.map_id _

theorem partitions_groups (types : List Descriptor) : Partitions types (groups types) where
  nodup := by
    rw [keys_groups]
    exact nodup_scopes types
  occurs scope := by
    rw [keys_groups]
    exact mem_scopes
  ordered := by
    rw [keys_groups]
    exact pairwise_idxOf_distinctBy _
  nonempty group hgroup := by
    obtain ⟨⟨d, hd, hscope⟩, hmembers⟩ := mem_groups.mp hgroup
    rw [hmembers]
    exact List.ne_nil_of_mem (mem_ofScope.mpr ⟨hd, hscope⟩)
  members group hgroup := (mem_groups.mp hgroup).2

/-- **A list has one partition of this kind**: its groups. -/
theorem partitions_iff {found : List (String × List Descriptor)} :
    Partitions types found ↔ found = groups types := by
  refine ⟨fun h => ?_, fun h => h ▸ partitions_groups types⟩
  have hperm : (found.map (·.1)).Perm (scopes types) :=
    (List.perm_ext_iff_of_nodup h.nodup (nodup_scopes types)).mpr fun scope =>
      (h.occurs scope).trans mem_scopes.symm
  have hkeys : found.map (·.1) = scopes types := by
    refine hperm.eq_of_pairwise (fun a b _ _ hab hba => ?_) h.ordered
      (pairwise_idxOf_distinctBy _)
    exact absurd hab (Nat.lt_asymm hba)
  rw [groups, ← hkeys, List.map_map]
  refine (List.map_id found).symm.trans (List.map_congr_left fun group hgroup => ?_)
  exact Prod.ext rfl (h.members group hgroup)

/-! ## Groups one behind the other -/

/-- Groups of different namespaces, each with types of its own. -/
structure Grouped (found : List (String × List Descriptor)) : Prop where
  nodup : (found.map (·.1)).Nodup
  nonempty : ∀ group ∈ found, group.2 ≠ []
  own : ∀ group ∈ found, ∀ d ∈ group.2, d.scope = group.1

theorem grouped_groups (types : List Descriptor) : Grouped (groups types) where
  nodup := (partitions_groups types).nodup
  nonempty := (partitions_groups types).nonempty
  own group hgroup d hd := by
    obtain ⟨-, hmembers⟩ := mem_groups.mp hgroup
    rw [hmembers] at hd
    exact (mem_ofScope.mp hd).2

/-- Types of one namespace are one group. -/
theorem groups_of_scope {scope : String} (hne : types ≠ []) (h : ∀ d ∈ types, d.scope = scope) :
    groups types = [(scope, types)] := by
  obtain ⟨first, hfirst⟩ := List.exists_mem_of_ne_nil types hne
  have hall : types.filter (·.scope = scope) = types :=
    List.filter_eq_self.mpr fun d hd => decide_eq_true (h d hd)
  refine (partitions_iff.mp ⟨?_, fun other => ?_, ?_, ?_, ?_⟩).symm
  · exact List.nodup_singleton scope
  · rw [List.map_singleton, List.mem_singleton]
    constructor
    · rintro rfl
      exact ⟨first, hfirst, h first hfirst⟩
    · rintro ⟨d, hd, rfl⟩
      exact h d hd
  · exact List.pairwise_singleton _ scope
  · exact List.forall_mem_singleton.mpr hne
  · exact List.forall_mem_singleton.mpr hall.symm

/-- **Groups put one behind the other** are found again. -/
theorem Grouped.groups_flatMap {found : List (String × List Descriptor)} (h : Grouped found) :
    groups (found.flatMap (·.2)) = found := by
  induction found with
  | nil => rfl
  | cons group rest ih =>
      obtain ⟨hnew, hnodup⟩ := List.nodup_cons.mp h.nodup
      obtain ⟨hnonempty, hrest⟩ := List.forall_mem_cons.mp h.nonempty
      obtain ⟨hown, hothers⟩ := List.forall_mem_cons.mp h.own
      have happart : ∀ d ∈ group.2, ∀ d' ∈ rest.flatMap (·.2), d.scope ≠ d'.scope := by
        intro d hd d' hd' hsame
        obtain ⟨other, hother, hd'⟩ := List.mem_flatMap.mp hd'
        rw [hown d hd, hothers other hother d' hd'] at hsame
        exact hnew (List.mem_map.mpr ⟨other, hother, hsame.symm⟩)
      rw [List.flatMap_cons, groups_append happart, groups_of_scope hnonempty hown,
        ih ⟨hnodup, hrest, hothers⟩]
      rfl

theorem groups_renderOrder (types : List Descriptor) :
    groups (renderOrder types) = groups types := (grouped_groups types).groups_flatMap

end Descriptor

/-- A body depends on the groups of its types only. -/
theorem Body.render_of_groups_eq (o : Options) {xs ys : List Descriptor}
    (h : Descriptor.groups xs = Descriptor.groups ys) : render o xs = render o ys := by
  have horder : Descriptor.renderOrder xs = Descriptor.renderOrder ys := by
    rw [Descriptor.renderOrder, h, Descriptor.renderOrder]
  rw [render, render, draft, draft, h, clauseList, clauseList, Names.ofTypes, Names.ofTypes, horder]

/-- **Grouping is a stable partition.** The groups that are filled one by one are the only
partition of the list into namespaces in their order. The list that they make up is a permutation
of the list that they come from, it has the same groups, and the same body is rendered for it. -/
theorem Descriptor.groups_partition (types : List Descriptor) :
    types.foldl (fun found d => intoGroup d found) [] = groups types ∧
      (∀ found, Partitions types found ↔ found = groups types) ∧
      (renderOrder types).Perm types ∧
      groups (renderOrder types) = groups types ∧
      ∀ o : Options, Body.render o (renderOrder types) = Body.render o types :=
  ⟨foldl_intoGroup types, fun _ => partitions_iff, renderOrder_perm types,
    groups_renderOrder types, fun o => Body.render_of_groups_eq o (groups_renderOrder types)⟩

end Typings
