import Typings.Proofs.Descriptor.Grouping
import Typings.Proofs.Draft.Balance
import Typings.Proofs.Extends.Registration

/-!
# Bodies put together from namespaces

The declarations of all namespaces are written by one writer, and their names and clauses are
collected in one place. Nothing but that passes from one namespace to the next: every
declaration, every member and every inline type leaves the level of indentation as it was, at any
depth, and collecting only adds at the end.

So the body for two lists of types that share no namespace follows from the bodies for each of
them. Where they share one, the declarations of the second list would move into the group of the
first.

## Main results

* `balanced_membersDraft`, `Descriptor.balanced_draft`, `Body.balanced_draft` — every part of a
  body leaves the level as it was.
* `Body.render_append` — the body for two lists that share no namespace.
-/

namespace Typings

open Draft

/-! ## Members -/

mutual

theorem ValueType.balanced_draft (o : Options) : (type : ValueType) → (type.draft o).Balanced
  | ⟨kind, referenceName⟩ => by
      rw [ValueType.draft]
      exact ValueKind.balanced_draft o (kind.refers referenceName) kind

theorem ValueKind.balanced_draft (o : Options) (isReference : Bool) :
    (kind : ValueKind) → (kind.draft o isReference).Balanced
  | .known _ => by
      rw [ValueKind.draft]
      exact fun _ => rfl
  | .array ⟨kind, _⟩ => by
      rw [ValueKind.draft]
      exact (ValueKind.balanced_draft o _ kind).append fun _ => rfl
  | .dictionary _ => by
      rw [ValueKind.draft]
      exact fun _ => rfl
  | .shape members => by
      rw [ValueKind.draft]
      exact (balanced_membersDraft o members).enclosed (fun _ => rfl) fun _ => rfl
  | .unknown => by
      rw [ValueKind.draft]
      exact fun _ => rfl

theorem Member.balanced_draft (o : Options) : (m : Member) → (m.draft o).Balanced
  | ⟨_, _, _, _, type⟩ => by
      have hlabel (summary : Option String) (text : String) :
          Draft.Balanced [.comment summary, .addIndented text] := fun _ => rfl
      rw [Member.draft]
      exact ((hlabel _ _).append (ValueType.balanced_draft o type)).append fun _ => rfl

/-- Members leave the level as it was, at any depth. -/
theorem balanced_membersDraft (o : Options) :
    (members : List Member) → (membersDraft o members).Balanced
  | [] => balanced_nil
  | m :: rest => by
      rw [membersDraft]
      exact (Member.balanced_draft o m).append (balanced_membersDraft o rest)

end

/-! ## Declarations -/

namespace Descriptor

variable (o : Options) (modifier : String) (d : Descriptor)

theorem balanced_enumDraft : (d.enumDraft o modifier).Balanced := by
  have hconstants : Draft.Balanced (d.members.flatMap (Member.constantDraft o)) :=
    balanced_flatMap fun _ _ _ => rfl
  rw [enumDraft, List.append_assoc]
  exact hconstants.enclosed (fun _ => rfl) fun _ => rfl

theorem balanced_interfaceDraft : (d.interfaceDraft o modifier).Balanced := by
  have hheader : (d.headerDraft o modifier).Balanced := fun _ => rfl
  have hslot : d.slot.Balanced := by
    intro level
    rw [slot]
    split <;> rfl
  have hblock : (d.blockDraft o).Balanced := by
    rw [blockDraft, List.append_assoc]
    exact (balanced_membersDraft o d.members).enclosed (fun _ => rfl) fun _ => rfl
  exact (hheader.append hslot).append hblock

theorem balanced_draft : (d.draft o modifier).Balanced := by
  rw [draft]
  split
  · exact balanced_enumDraft o modifier d
  · exact balanced_interfaceDraft o modifier d

end Descriptor

namespace Body

theorem balanced_enclose (o : Options) (scope : String) {declarations : Draft}
    (h : declarations.Balanced) : (enclose o scope declarations).Balanced := by
  rw [enclose]
  split
  · rw [List.append_assoc]
    exact h.enclosed (fun _ => rfl) fun _ => rfl
  · exact h

/-- **Every namespace leaves the level as it was**, and so does a whole body. -/
theorem balanced_draft (o : Options) (types : List Descriptor) : (draft o types).Balanced := by
  apply balanced_flatMap
  rintro ⟨scope, members⟩ -
  apply balanced_enclose
  exact balanced_flatMap fun d _ => Descriptor.balanced_draft o _ d

/-! ## Two lists -/

variable {o : Options} {xs ys : List Descriptor}

theorem draft_append (h : ∀ d ∈ xs, ∀ d' ∈ ys, d.scope ≠ d'.scope) :
    draft o (xs ++ ys) = draft o xs ++ draft o ys := by
  rw [draft, Descriptor.groups_append h, List.flatMap_append]
  rfl

theorem clauseList_append (h : ∀ d ∈ xs, ∀ d' ∈ ys, d.scope ≠ d'.scope) :
    clauseList o (xs ++ ys) = clauseList o xs ++ clauseList o ys := by
  rw [clauseList, Descriptor.renderOrder_append h, List.filterMap_append]
  rfl

/-- The clauses of a body are the first ones for each base. -/
theorem entries_clauses_render (o : Options) (types : List Descriptor) :
    (render o types).clauses.entries = distinctBy (·.1) (clauseList o types) := by
  have hall : ∀ entry ∈ distinctBy (·.1) (clauseList o types),
      Extends.Registry.empty.lacks entry.1 = true := by
    intro entry _
    rfl
  rw [render, Extends.Registry.entries_registerAll, List.filter_eq_self.mpr hall]
  rfl

/-- **Namespaces are rendered independently.** The body for two lists of types that share no
namespace has the texts of both bodies one behind the other, it collects the names of both, and
its clauses are those of the first body and behind them those of the second one for bases to
which the first one gives no clause. -/
theorem render_append (o : Options) {xs ys : List Descriptor}
    (h : ∀ d ∈ xs, ∀ d' ∈ ys, d.scope ≠ d'.scope) :
    (render o (xs ++ ys)).text = (render o xs).text ++ (render o ys).text ∧
      (render o (xs ++ ys)).names.declared
        = (render o xs).names.declared.union (render o ys).names.declared ∧
      (render o (xs ++ ys)).names.referenced
        = (render o xs).names.referenced.union (render o ys).names.referenced ∧
      (render o (xs ++ ys)).names.bases
        = (render o xs).names.bases.union (render o ys).names.bases ∧
      (render o (xs ++ ys)).clauses.entries
        = (render o xs).clauses.entries ++ (render o ys).clauses.entries.filter
          (fun entry => (render o xs).clauses.lacks entry.1) := by
  have horder := Descriptor.renderOrder_append h
  refine ⟨?_, ?_, ?_, ?_, ?_⟩
  · show (draft o (xs ++ ys)).text Extends.token = _
    rw [draft_append h]
    exact (balanced_draft o xs).text_append Extends.token (draft o ys)
  · show OrderedSet.ofList _ = _
    rw [horder, List.map_append]
    exact OrderedSet.ofList_append _ _
  · show OrderedSet.ofList _ = _
    rw [horder, List.flatMap_append, List.map_append]
    exact OrderedSet.ofList_append _ _
  · show OrderedSet.ofList _ = _
    rw [horder, List.filterMap_append]
    exact OrderedSet.ofList_append _ _
  · have hclauses : (render o (xs ++ ys)).clauses
        = (render o xs).clauses.registerAll (clauseList o ys) := by
      show Extends.Registry.empty.registerAll (clauseList o (xs ++ ys)) = _
      rw [clauseList_append h]
      exact List.foldl_append
    rw [hclauses, Extends.Registry.entries_registerAll, entries_clauses_render o ys]

/-- The types of a namespace with a base and an inline type. -/
def postTypes : List Descriptor :=
  [(((Descriptor.interface "Parcel").inScope "Post").extending "Document" (some "Core")).withMember
    (.ofType "Route" (.array (.shape [.ofType "Stop" (.reference "Town")])))]

/-- The types of two more namespaces, one with a base of the same name. -/
def tradeTypes : List Descriptor :=
  [((Descriptor.interface "Offer").inScope "Trade").extending "Document" (some "Mail"),
    ((Descriptor.interface "Town").inScope "Map").extending "Place" none]

/-- The namespaces of both lists, the second one behind the first. The first clause for the base
that they share stays. -/
theorem render_append_postAndTrade :
    (∀ d ∈ postTypes, ∀ d' ∈ tradeTypes, d.scope ≠ d'.scope) ∧
      (render .default (postTypes ++ tradeTypes)).text
        = (render .default postTypes).text ++ (render .default tradeTypes).text ∧
      (render .default (postTypes ++ tradeTypes)).names.declared.toList
        = ["Parcel", "Offer", "Town"] ∧
      (render .default (postTypes ++ tradeTypes)).clauses.entries
        = [("Document", "extends Core.Document "), ("Place", "extends Place ")] := by
  have hscopes : ∀ d ∈ postTypes, ∀ d' ∈ tradeTypes, d.scope ≠ d'.scope := by decide
  obtain ⟨htext, hdeclared, -, -, hclauses⟩ := render_append .default hscopes
  refine ⟨hscopes, htext, ?_, ?_⟩
  · rw [hdeclared]
    decide +kernel
  · rw [hclauses]
    decide +kernel

end Body

end Typings
