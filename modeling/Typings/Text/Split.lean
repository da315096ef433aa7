/-!
# Cutting text at a character

Cutting a text at the first or at the last occurrence of a character.

## Main definitions

* `splitFirst`, `splitLast` — what stands before and behind one occurrence.

## Main results

* `append_of_splitFirst`, `append_of_splitLast` — nothing is lost.
* `not_mem_of_splitFirst`, `not_mem_of_splitLast` — it is the first, or the last.
-/

namespace Typings.Text

/-- What stands before and behind the first occurrence of a character. -/
def splitFirst (sep : Char) : List Char → Option (List Char × List Char)
  | [] => none
  | c :: rest =>
    if c = sep then some ([], rest)
    else match splitFirst sep rest with
      | some (before, behind) => some (c :: before, behind)
      | none => none

theorem append_of_splitFirst {sep : Char} {text before behind : List Char}
    (h : splitFirst sep text = some (before, behind)) : text = before ++ sep :: behind := by
  induction text generalizing before with
  | nil => simp [splitFirst] at h
  | cons c rest ih => grind [splitFirst]

theorem not_mem_of_splitFirst {sep : Char} {text before behind : List Char}
    (h : splitFirst sep text = some (before, behind)) : sep ∉ before := by
  induction text generalizing before with
  | nil => simp [splitFirst] at h
  | cons c rest ih => grind [splitFirst]

theorem splitFirst_eq_none_iff {sep : Char} {text : List Char} :
    splitFirst sep text = none ↔ sep ∉ text := by
  induction text with
  | nil => simp [splitFirst]
  | cons c rest ih => grind [splitFirst]

/-- What stands before and behind the last occurrence of a character. -/
def splitLast (sep : Char) : List Char → Option (List Char × List Char)
  | [] => none
  | c :: rest =>
    match splitLast sep rest with
    | some (before, behind) => some (c :: before, behind)
    | none => if c = sep then some ([], rest) else none

theorem append_of_splitLast {sep : Char} {text before behind : List Char}
    (h : splitLast sep text = some (before, behind)) : text = before ++ sep :: behind := by
  induction text generalizing before with
  | nil => simp [splitLast] at h
  | cons c rest ih => grind [splitLast]

theorem splitLast_eq_none_iff {sep : Char} {text : List Char} :
    splitLast sep text = none ↔ sep ∉ text := by
  induction text with
  | nil => simp [splitLast]
  | cons c rest ih => grind [splitLast]

theorem not_mem_of_splitLast {sep : Char} {text before behind : List Char}
    (h : splitLast sep text = some (before, behind)) : sep ∉ behind := by
  induction text generalizing before with
  | nil => simp [splitLast] at h
  | cons c rest ih => grind [splitLast, splitLast_eq_none_iff]

end Typings.Text
