import Typings.Body
import Typings.Proofs.Draft.Comments

/-!
# Every summary has its comment

The comments of a body are the ones for the summaries of its types, in the order of declaration:
for each type first its own summary, then those of its members and of the members of inline
types, at any depth. The members of an enumeration are constants; inline types in them are not
written.

## Main definitions

* `Descriptor.summaries` — the summaries of a declared type, from the outside in.

## Main results

* `Body.comments_draft` — the summaries of the comments of a body.
-/

namespace Typings

/-! ## The summaries of a draft -/

/-- The summary of a step that writes a comment. -/
@[simp] def Draft.Step.summary? : Draft.Step → Option (Option String)
  | .comment summary => some summary
  | _ => none

/-- The summaries for which a draft writes comments, in order. -/
def Draft.summaries (draft : Draft) : List (Option String) := draft.filterMap Step.summary?

@[simp] theorem Draft.summaries_append (a b : Draft) :
    summaries (a ++ b) = summaries a ++ summaries b := List.filterMap_append

@[simp] theorem Draft.summaries_nil : summaries [] = [] := rfl

@[simp] theorem Draft.summaries_cons (step : Step) (rest : Draft) :
    summaries (step :: rest) = step.summary?.toList ++ summaries rest := by
  cases step <;> rfl

@[simp] theorem Draft.summaries_line (text : String) : summaries (line text) = [] := rfl

theorem Draft.summaries_flatMap {α : Type} (f : α → Draft) (xs : List α) :
    summaries (xs.flatMap f) = xs.flatMap fun x => summaries (f x) := by
  induction xs with
  | nil => rfl
  | cons x rest ih => rw [List.flatMap_cons, summaries_append, ih, List.flatMap_cons]

theorem Draft.map_snd_comments (level : Nat) (draft : Draft) :
    (comments level draft).map (·.2) = summaries draft := by
  induction draft generalizing level with
  | nil => rfl
  | cons step rest ih =>
      cases step with
      | comment summary => exact congrArg _ (ih level)
      | _ => exact ih _

/-! ## The summaries of members -/

mutual

/-- The summaries in a type. -/
def ValueType.summaries : ValueType → List (Option String)
  | ⟨kind, _⟩ => kind.summaries

/-- The summaries in a kind. -/
def ValueKind.summaries : ValueKind → List (Option String)
  | .array item => item.summaries
  | .shape members => membersSummaries members
  | _ => []

/-- The summary of a member, and those in its type. -/
def Member.summaries : Member → List (Option String)
  | ⟨_, _, summary, _, type⟩ => summary :: type.summaries

/-- The summaries of some members. -/
def membersSummaries : List Member → List (Option String)
  | [] => []
  | m :: rest => m.summaries ++ membersSummaries rest

end

section

variable (o : Options)

mutual

theorem ValueType.summaries_draft :
    (type : ValueType) → Draft.summaries (type.draft o) = type.summaries
  | ⟨kind, referenceName⟩ => by
      rw [ValueType.draft, ValueType.summaries]
      exact ValueKind.summaries_draft (kind.refers referenceName) kind

theorem ValueKind.summaries_draft (isReference : Bool) :
    (kind : ValueKind) → Draft.summaries (kind.draft o isReference) = kind.summaries
  | .known _ => by
      rw [ValueKind.draft]
      rfl
  | .array ⟨kind, referenceName⟩ => by
      rw [ValueKind.draft, ValueKind.summaries, ValueType.summaries, Draft.summaries_append,
        ValueKind.summaries_draft _ kind]
      exact List.append_nil _
  | .dictionary _ => by
      rw [ValueKind.draft]
      rfl
  | .shape members => by
      rw [ValueKind.draft, ValueKind.summaries, Draft.summaries_append, Draft.summaries_append,
        summaries_membersDraft members]
      exact List.append_nil _
  | .unknown => by
      rw [ValueKind.draft]
      rfl

theorem Member.summaries_draft :
    (m : Member) → Draft.summaries (m.draft o) = m.summaries
  | ⟨_, _, _, _, type⟩ => by
      rw [Member.draft, Member.summaries, Draft.summaries_append, Draft.summaries_append,
        ValueType.summaries_draft type]
      exact congrArg _ (List.append_nil _)

theorem summaries_membersDraft :
    (members : List Member) → Draft.summaries (membersDraft o members) = membersSummaries members
  | [] => rfl
  | m :: rest => by
      rw [membersDraft, membersSummaries, Draft.summaries_append, Member.summaries_draft m,
        summaries_membersDraft rest]

end

end

/-! ## The summaries of declared types -/

namespace Descriptor

/-- The summaries of a declared type: its own one, and those of what is written of its
members. -/
def summaries (d : Descriptor) : List (Option String) :=
  d.summary :: if d.isEnum then d.members.map (·.summary) else membersSummaries d.members

theorem summaries_constants (o : Options) (members : List Member) :
    Draft.summaries (members.flatMap (Member.constantDraft o)) = members.map (·.summary) := by
  rw [Draft.summaries_flatMap, List.map_eq_flatMap]
  rfl

theorem summaries_draft (o : Options) (modifier : String) (d : Descriptor) :
    Draft.summaries (d.draft o modifier) = d.summaries := by
  rw [draft, summaries]
  cases d.isEnum with
  | true =>
      show Draft.summaries (d.enumDraft o modifier) = d.summary :: d.members.map (·.summary)
      simp [enumDraft, summaries_constants]
  | false =>
      have hslot : Draft.summaries d.slot = [] := by
        rw [slot]
        split <;> rfl
      show Draft.summaries (d.interfaceDraft o modifier) = d.summary :: membersSummaries d.members
      simp [interfaceDraft, headerDraft, blockDraft, hslot, summaries_membersDraft]

end Descriptor

namespace Body

theorem summaries_enclose (o : Options) (scope : String) (declarations : Draft) :
    Draft.summaries (enclose o scope declarations) = Draft.summaries declarations := by
  rw [enclose]
  split
  · simp
  · rfl

/-- **The comments of a body are those for the summaries of its types.** -/
theorem comments_draft (o : Options) (types : List Descriptor) :
    (Draft.comments 0 (draft o types)).map (·.2)
      = (Descriptor.renderOrder types).flatMap Descriptor.summaries := by
  rw [Draft.map_snd_comments, draft, Draft.summaries_flatMap, Descriptor.renderOrder,
    List.flatMap_assoc]
  congr 1
  funext ⟨scope, members⟩
  show Draft.summaries (scopeDraft o scope members) = members.flatMap Descriptor.summaries
  rw [scopeDraft, summaries_enclose, Draft.summaries_flatMap]
  congr 1
  funext d
  exact Descriptor.summaries_draft o _ d

end Body

end Typings
