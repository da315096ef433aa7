import Typings.Body
import Typings.Proofs.Draft.Written

/-!
# Where the slots of a body are

A slot stands in the header of a type that extends a base, and nowhere else: neither the
members of a type nor an enumeration have slots, however deep inline types are nested.

## Main results

* `slots_membersDraft` — members have no slots.
* `Descriptor.slots_enumDraft`, `Descriptor.slots_headerDraft`, `Descriptor.slots_blockDraft` —
  nor have the fixed parts of a declaration.
-/

namespace Typings

open Draft

mutual

theorem ValueType.slots_draft (o : Options) : (type : ValueType) → slots (type.draft o) = []
  | ⟨kind, referenceName⟩ => by
      rw [ValueType.draft]
      exact ValueKind.slots_draft o (kind.refers referenceName) kind

theorem ValueKind.slots_draft (o : Options) (isReference : Bool) :
    (kind : ValueKind) → slots (kind.draft o isReference) = []
  | .known _ => by
      rw [ValueKind.draft]
      rfl
  | .array ⟨kind, referenceName⟩ => by
      rw [ValueKind.draft, slots_append, ValueKind.slots_draft o _ kind]
      rfl
  | .dictionary _ => by
      rw [ValueKind.draft]
      rfl
  | .shape members => by
      rw [ValueKind.draft, slots_append, slots_append, slots_membersDraft o members]
      rfl
  | .unknown => by
      rw [ValueKind.draft]
      rfl

theorem Member.slots_draft (o : Options) : (m : Member) → slots (m.draft o) = []
  | ⟨_, _, _, _, type⟩ => by
      rw [Member.draft, slots_append, slots_append, ValueType.slots_draft o type]
      rfl

/-- Members have no slots, at any depth. -/
theorem slots_membersDraft (o : Options) :
    (members : List Member) → slots (membersDraft o members) = []
  | [] => by
      rw [membersDraft]
      rfl
  | m :: rest => by
      rw [membersDraft, slots_append, Member.slots_draft o m, slots_membersDraft o rest]
      rfl

end

namespace Descriptor

variable (o : Options) (modifier : String) (d : Descriptor)

theorem slots_constants (members : List Member) :
    slots (members.flatMap (Member.constantDraft o)) = [] := by
  induction members with
  | nil => rfl
  | cons m rest ih =>
      rw [List.flatMap_cons, slots_append, ih]
      rfl

theorem slots_enumDraft : slots (d.enumDraft o modifier) = [] := by
  rw [enumDraft, slots_append, slots_append, slots_append, slots_append, slots_append,
    slots_constants]
  rfl

theorem slots_headerDraft : slots (d.headerDraft o modifier) = [] := rfl

theorem slots_blockDraft : slots (d.blockDraft o) = [] := by
  rw [blockDraft, slots_append, slots_append, slots_append, slots_membersDraft]
  rfl

end Descriptor

end Typings
