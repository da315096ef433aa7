/-!
# Blank characters

The characters with the White_Space property of the Unicode standard, and the removal of
blanks at the end of a text.

## Main definitions

* `isBlank` — the White_Space property.
* `trimEnd` — a text without the blanks at its end.
-/

namespace Typings.Text

/-- The ranges of code points with the White_Space property. -/
def blankRanges : List (Nat × Nat) :=
  [(0x09, 0x0D), (0x20, 0x20), (0x85, 0x85), (0xA0, 0xA0), (0x1680, 0x1680),
    (0x2000, 0x200A), (0x2028, 0x2029), (0x202F, 0x202F), (0x205F, 0x205F),
    (0x3000, 0x3000)]

/-- Whether a character has the White_Space property. -/
def isBlank (c : Char) : Bool :=
  blankRanges.any fun (first, last) => first ≤ c.toNat && c.toNat ≤ last

/-- Drop the longest run at the end of a list whose members all satisfy `p`. -/
def dropEndWhile {α : Type} (p : α → Bool) (xs : List α) : List α :=
  (xs.reverse.dropWhile p).reverse

@[simp] theorem dropEndWhile_nil {α : Type} (p : α → Bool) : dropEndWhile p [] = [] := rfl

theorem dropEndWhile_append_singleton {α : Type} (p : α → Bool) (xs : List α) (x : α) :
    dropEndWhile p (xs ++ [x]) = if p x then dropEndWhile p xs else xs ++ [x] := by
  by_cases h : p x <;> simp [dropEndWhile, h]

theorem dropEndWhile_append_of_forall {α : Type} {p : α → Bool} {ys : List α}
    (h : ∀ y ∈ ys, p y = true) (xs : List α) : dropEndWhile p (xs ++ ys) = dropEndWhile p xs := by
  have hreverse : ∀ y ∈ ys.reverse, p y = true := fun y hy => h y (List.mem_reverse.mp hy)
  rw [dropEndWhile, List.reverse_append, List.dropWhile_append_of_pos hreverse]
  rfl

/-- What stands in front of a member that stays is not looked at. -/
theorem dropEndWhile_append_cons_of_neg {α : Type} {p : α → Bool} {x : α} (h : p x = false)
    (xs ys : List α) : dropEndWhile p (xs ++ x :: ys) = xs ++ x :: dropEndWhile p ys := by
  have hstop : ∀ zs : List α,
      (zs ++ x :: xs.reverse).dropWhile p = zs.dropWhile p ++ x :: xs.reverse := by
    intro zs
    rw [List.dropWhile_append, List.dropWhile_cons_of_neg (by simp [h])]
    split
    · rename_i hnone
      rw [List.isEmpty_iff.mp hnone, List.nil_append]
    · rfl
  rw [dropEndWhile, List.reverse_append, List.reverse_cons, List.append_assoc,
    List.singleton_append, hstop, List.reverse_append, List.reverse_cons, List.reverse_reverse,
    List.append_assoc, List.singleton_append]
  rfl

/-- A text without the blanks at its end. -/
def trimEnd (text : List Char) : List Char := dropEndWhile isBlank text

end Typings.Text
