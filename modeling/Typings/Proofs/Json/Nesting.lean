import Typings.Json.Basic

/-!
# How deep brackets nest

Whether a value can be held depends on two things: how deep its brackets nest, and whether there
is anything in it that cannot be held at all. This file separates the two.

## Main definitions

* `Json.nesting` — how deep the brackets of a value nest.
* `Json.Holdable` — a value that can be held if its brackets may nest as deep as they do.

## Main results

* `fits_of_nesting_le` — nothing but the nesting depends on the limit.
* `fits_object_iff`, `fits_array_iff` — arrays and objects that can be held.
-/

namespace Typings.Json

mutual

/-- How deep the brackets of a value nest. -/
def nesting : Json → Nat
  | .array items => itemsNesting items + 1
  | .object members => membersNesting members + 1
  | _ => 0

/-- How deep the brackets of some items nest. -/
def itemsNesting : List Json → Nat
  | [] => 0
  | item :: rest => max item.nesting (itemsNesting rest)

/-- How deep the brackets of the values of some members nest. -/
def membersNesting : List (String × Json) → Nat
  | [] => 0
  | (_, value) :: rest => max value.nesting (membersNesting rest)

end

theorem nesting_le_of_mem_items {items : List Json} {item : Json} (h : item ∈ items) :
    item.nesting ≤ itemsNesting items := by
  induction items with
  | nil => cases h
  | cons first rest ih =>
      rw [itemsNesting]
      rcases List.mem_cons.mp h with rfl | hrest
      · exact Nat.le_max_left _ _
      · exact Nat.le_trans (ih hrest) (Nat.le_max_right _ _)

theorem nesting_le_of_mem_members {members : List (String × Json)} {key : String} {value : Json}
    (h : (key, value) ∈ members) : value.nesting ≤ membersNesting members := by
  induction members with
  | nil => cases h
  | cons first rest ih =>
      rw [membersNesting]
      rcases List.mem_cons.mp h with rfl | hrest
      · exact Nat.le_max_left _ _
      · exact Nat.le_trans (ih hrest) (Nat.le_max_right _ _)

theorem nesting_array_le {items : List Json} {levels : Nat}
    (h : (array items).nesting ≤ levels) :
    ∃ n, levels = n + 1 ∧ ∀ item ∈ items, item.nesting ≤ n := by
  rw [nesting] at h
  refine ⟨levels - 1, by omega, fun item hitem => ?_⟩
  have hle := nesting_le_of_mem_items hitem
  omega

theorem nesting_object_le {members : List (String × Json)} {levels : Nat}
    (h : (object members).nesting ≤ levels) :
    ∃ n, levels = n + 1 ∧ ∀ key value, (key, value) ∈ members → value.nesting ≤ n := by
  rw [nesting] at h
  refine ⟨levels - 1, by omega, fun key value hvalue => ?_⟩
  have hle := nesting_le_of_mem_members hvalue
  omega

/-! ## Holding a value -/

theorem itemsFit_iff {levels : Nat} {items : List Json} :
    itemsFit levels items = true ↔ ∀ item ∈ items, item.fits levels = true := by
  induction items with
  | nil => simp [itemsFit]
  | cons item rest ih => rw [itemsFit, Bool.and_eq_true, ih, List.forall_mem_cons]

theorem membersFit_iff {levels : Nat} {members : List (String × Json)} :
    membersFit levels members = true ↔
      ∀ key value, (key, value) ∈ members → value.fits levels = true := by
  induction members with
  | nil => simp [membersFit]
  | cons member rest ih =>
      obtain ⟨key, value⟩ := member
      rw [membersFit, Bool.and_eq_true, ih]
      grind

theorem fits_array_iff {levels : Nat} {items : List Json} :
    (array items).fits levels = true ↔
      0 < levels ∧ ∀ item ∈ items, item.fits (levels - 1) = true := by
  rw [fits, Bool.and_eq_true, decide_eq_true_iff, itemsFit_iff]

theorem fits_object_iff {levels : Nat} {members : List (String × Json)} :
    (object members).fits levels = true ↔
      0 < levels ∧ ∀ key value, (key, value) ∈ members → value.fits (levels - 1) = true := by
  rw [fits, Bool.and_eq_true, decide_eq_true_iff, membersFit_iff]

mutual

/-- **Only the nesting depends on the limit.** A value that can be held under one limit can be
held under every limit that its brackets respect. -/
theorem fits_of_nesting_le :
    (v : Json) → {n m : Nat} → v.fits n = true → v.nesting ≤ m → v.fits m = true
  | .null, _, _, _, _ => rfl
  | .bool _, _, _, _, _ => rfl
  | .number _, _, _, h, _ => h
  | .string _, _, _, _, _ => rfl
  | .array items, n, m, h, hm => by
      rw [nesting] at hm
      obtain ⟨-, hitems⟩ := fits_array_iff.mp h
      refine fits_array_iff.mpr ⟨by omega, ?_⟩
      exact itemsFit_of_nesting_le items hitems (by omega)
  | .object members, n, m, h, hm => by
      rw [nesting] at hm
      obtain ⟨-, hmembers⟩ := fits_object_iff.mp h
      refine fits_object_iff.mpr ⟨by omega, ?_⟩
      exact membersFit_of_nesting_le members hmembers (by omega)
  | .unreadable, _, _, h, _ => by cases h

theorem itemsFit_of_nesting_le :
    (items : List Json) → {n m : Nat} → (∀ item ∈ items, item.fits n = true) →
      itemsNesting items ≤ m → ∀ item ∈ items, item.fits m = true
  | [], _, _, _, _ => by simp
  | item :: rest, n, m, h, hm => by
      rw [itemsNesting, Nat.max_le] at hm
      obtain ⟨hitem, hrest⟩ := List.forall_mem_cons.mp h
      exact List.forall_mem_cons.mpr
        ⟨fits_of_nesting_le item hitem hm.1, itemsFit_of_nesting_le rest hrest hm.2⟩

theorem membersFit_of_nesting_le :
    (members : List (String × Json)) → {n m : Nat} →
      (∀ key value, (key, value) ∈ members → value.fits n = true) →
      membersNesting members ≤ m → ∀ key value, (key, value) ∈ members → value.fits m = true
  | [], _, _, _, _ => by simp
  | (key, value) :: rest, n, m, h, hm => by
      rw [membersNesting, Nat.max_le] at hm
      intro other found hmem
      rcases List.mem_cons.mp hmem with heq | hmem
      · cases heq
        exact fits_of_nesting_le value (h key value (by simp)) hm.1
      · exact membersFit_of_nesting_le rest (fun k v hk => h k v (by simp [hk])) hm.2 _ _ hmem

end

/-- A value that can be held if its brackets may nest as deep as they do: its numbers are within
the range of a double, and all its strings are texts. -/
def Holdable (v : Json) : Prop := v.fits v.nesting = true

instance (v : Json) : Decidable v.Holdable :=
  inferInstanceAs (Decidable (v.fits v.nesting = true))

theorem Holdable.fits {v : Json} (h : v.Holdable) {levels : Nat} (hlevels : v.nesting ≤ levels) :
    v.fits levels = true := fits_of_nesting_le v h hlevels

end Typings.Json
