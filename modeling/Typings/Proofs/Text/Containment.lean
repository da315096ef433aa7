import Mathlib.Data.List.DropRight
import Mathlib.Data.List.Infix
import Typings.Options.Naming
import Typings.Summary

/-!
# What a text contains

A pattern is *contained* in a text when it stands somewhere in it, `pattern <:+: text`. A text
is put together from given texts and fixed ones, and before it is put together the given ones
are cut into lines, trimmed, or spelled with a small first letter. This file says
which of these steps can make a pattern appear that was not there before.

The fact behind all of them is `infix_append_cons_iff`: a pattern cannot lie across a character
that it does not hold, so around such a character a text falls into two parts that can be
looked at one by one.

## Main results

* `infix_append_cons_iff` — containment on both sides of a foreign character.
* `not_infix_append_foreign` — foreign text keeps apart what stands around it.
* `infix_of_mem_lines`, `dropEndWhile_prefix` — a line, and what is left of it by trimming, is
  a part of the text.
* `mem_lowercase` — what the lower case of a character can be.
-/

namespace Typings.Text

section Pattern

variable {α : Type} {p : List α}

/-! ## Foreign characters -/

/-- A pattern that does not hold the first element of a list starts it only if it is empty. -/
theorem eq_nil_of_prefix_cons {x : α} {l : List α} (hx : x ∉ p) (h : p <+: x :: l) : p = [] := by
  cases p with
  | nil => rfl
  | cons y p =>
      have hy : y = x := (List.cons_prefix_cons.mp h).1
      exact absurd (by simp [hy]) hx

/-- A pattern cannot lie across an element that it does not hold. -/
theorem infix_append_cons_iff {a b : List α} {x : α} (hx : x ∉ p) :
    p <:+: a ++ x :: b ↔ p <:+: a ∨ p <:+: b := by
  constructor
  · intro h
    rcases List.infix_append_iff.mp h with ha | hb | ⟨l₁, l₂, rfl, h₁, h₂⟩
    · exact Or.inl ha
    · rcases List.infix_cons_iff.mp hb with hp | hb
      · rw [eq_nil_of_prefix_cons hx hp]
        exact Or.inl List.nil_infix
      · exact Or.inr hb
    · have hnil : l₂ = [] := eq_nil_of_prefix_cons (fun hm => hx (by simp [hm])) h₂
      subst hnil
      rw [List.append_nil]
      exact Or.inl h₁.isInfix
  · rintro (h | h)
    · exact List.infix_append_of_infix_left h
    · exact List.infix_append_of_infix_right (List.infix_cons h)

/-- Between two lists nothing completes a pattern if all that stands between them is foreign
to it. -/
theorem not_infix_append_foreign {a w b : List α} (hne : w ≠ []) (hw : ∀ x ∈ w, x ∉ p)
    (ha : ¬ p <:+: a) (hb : ¬ p <:+: b) : ¬ p <:+: a ++ (w ++ b) := by
  induction w generalizing a with
  | nil => exact absurd rfl hne
  | cons x w ih =>
      have hx : x ∉ p := hw x (by simp)
      rw [List.cons_append, infix_append_cons_iff hx]
      rintro (h | h)
      · exact ha h
      · cases w with
        | nil => exact hb h
        | cons y w =>
            have hnil : ¬ p <:+: [] := fun e => ha (by
              rw [List.infix_nil.mp e]
              exact List.nil_infix)
            exact ih (by simp) (fun z hz => hw z (by simp [hz])) hnil h

/-- Nothing that stands in front of a list completes a pattern there, if it does not hold the
element with which the pattern starts. -/
theorem infix_of_infix_append {x : α} {a b : List α} (hx : x ∉ a) (h : x :: p <:+: a ++ b) :
    x :: p <:+: b := by
  induction a with
  | nil => exact h
  | cons y a ih =>
      have hne : x ≠ y := fun e => hx (by simp [e])
      have ha : x ∉ a := fun hm => hx (by simp [hm])
      rcases List.infix_cons_iff.mp h with hp | hi
      · exact absurd (List.cons_prefix_cons.mp hp).1 hne
      · exact ih ha hi

/-! ## Parts of a text -/

/-- What is left in front of a dropped run is the start of the list. -/
theorem dropEndWhile_prefix (q : α → Bool) (xs : List α) : dropEndWhile q xs <+: xs :=
  List.rdropWhile_prefix q xs

end Pattern

/-- A character in front of the first line goes in front of the text. -/
private theorem infix_of_mem_consFirst {c : Char} {rest line : List Char}
    {ls : List (List Char)} (hne : ls ≠ []) (hfirst : ∀ l, ls.head? = some l → l <+: rest)
    (hall : ∀ l ∈ ls, l <:+: rest) (h : line ∈ consFirst c ls) : line <:+: c :: rest := by
  cases ls with
  | nil => exact absurd rfl hne
  | cons l ls =>
      rcases List.mem_cons.mp h with rfl | hm
      · exact (List.cons_prefix_cons.mpr ⟨rfl, hfirst l rfl⟩).isInfix
      · exact List.infix_cons (hall line (by simp [hm]))

/-- The first line of a text is its start. -/
theorem head_lines_prefix {text line : List Char} (h : (lines text).head? = some line) :
    line <+: text := by
  fun_induction lines text generalizing line with
  | case5 c rest _ _ _ ih =>
      cases hl : lines rest with
      | nil => exact absurd hl (lines_ne_nil rest)
      | cons l ls =>
          rw [hl] at h ih
          have hline : line = c :: l := by simpa [consFirst] using h.symm
          subst hline
          exact List.cons_prefix_cons.mpr ⟨rfl, ih rfl⟩
  | _ =>
      have hline : line = [] := by simpa using h.symm
      subst hline
      exact List.nil_prefix

/-- A line is a part of its text. -/
theorem infix_of_mem_lines {text line : List Char} (h : line ∈ lines text) : line <:+: text := by
  fun_induction lines text generalizing line with
  | case1 => rw [List.mem_singleton.mp h]
  | case2 rest ih =>
      rcases List.mem_cons.mp h with rfl | hm
      · exact List.nil_infix
      · exact List.infix_cons (List.infix_cons (ih hm))
  | case3 rest _ ih =>
      rcases List.mem_cons.mp h with rfl | hm
      · exact List.nil_infix
      · exact List.infix_cons (ih hm)
  | case4 rest ih =>
      rcases List.mem_cons.mp h with rfl | hm
      · exact List.nil_infix
      · exact List.infix_cons (ih hm)
  | case5 c rest _ _ _ ih =>
      exact infix_of_mem_consFirst (lines_ne_nil rest) (fun l hl => head_lines_prefix hl)
        (fun l hl => ih hl) h

/-! ## Lower case -/

/-- A number that is no character counts as the null character. -/
private theorem toNat_ofNat (n : Nat) : (Char.ofNat n).toNat = n ∨ (Char.ofNat n).toNat = 0 := by
  by_cases h : n.isValidChar
  · left
    rw [Char.ofNat, dif_pos h]
    rfl
  · right
    rw [Char.ofNat, dif_neg h]
    rfl

/-- The lower case of a character is the character itself, or it consists of small letters of
ASCII and of characters behind ASCII. (A code point that is no character stands for the null
character.) -/
theorem mem_lowercase {c d : Char} (h : d ∈ lowercase c) :
    lowercase c = [c] ∨ d.toNat = 0 ∨ 0x61 ≤ d.toNat ∧ d.toNat < 0x7B ∨ 0x80 ≤ d.toNat := by
  rw [lowercase] at h ⊢
  by_cases hdot : c.toNat = 0x130
  · rw [if_pos hdot] at h
    right; right
    rcases List.mem_cons.mp h with rfl | hm
    · decide
    · rw [List.mem_singleton.mp hm]
      decide
  · rw [if_neg hdot] at h ⊢
    cases hrow : lowercaseRows.find? (·.covers c.toNat) with
    | none => exact Or.inl rfl
    | some row =>
        rw [hrow] at h
        rw [List.mem_singleton.mp h]
        have hall : ∀ row ∈ lowercaseRows, 0x61 ≤ row.image ∧
            (row.image + (row.last - row.first) < 0x7B ∨ 0x80 ≤ row.image) := by decide +kernel
        have himage := hall row (List.mem_of_find?_eq_some hrow)
        have hlast : c.toNat ≤ row.last := by
          have hcovers := List.find?_some hrow
          simp only [LowercaseRow.covers, Bool.and_eq_true, decide_eq_true_eq] at hcovers
          exact hcovers.1.2
        right
        rcases toNat_ofNat (row.image + (c.toNat - row.first)) with h' | h' <;> omega

/-- A character of ASCII that is no small letter occurs in a lower case only as the character
itself. -/
theorem eq_of_mem_lowercase {c d : Char} (h : d ∈ lowercase c) (hpos : 0 < d.toNat)
    (hother : d.toNat < 0x61 ∨ 0x7B ≤ d.toNat ∧ d.toNat < 0x80) : d = c := by
  rcases mem_lowercase h with hself | hzero | hsmall
  · rw [hself] at h
    exact List.mem_singleton.mp h
  · omega
  · omega

end Typings.Text
