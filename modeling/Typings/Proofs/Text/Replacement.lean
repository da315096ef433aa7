import Typings.Proofs.Text.Containment

/-!
# The replacement of a pattern, place by place

`replace` is defined through the general pass of `substitute`. For a pattern that is not empty
the pass has two kinds of steps: an occurrence of the pattern is taken as a whole, and any
other character is kept. `replace_induction` is induction along these steps, so that what is
proved about replacing need not look at the pass again.

## Main results

* `replace_append`, `replace_cons` — the two steps.
* `replace_induction` — induction along them.
* `not_infix_replace` — an escape by foreign characters completes no other pattern.
* `not_infix_escaped`, `infix_of_infix_escaped` — a pair that is escaped by a character between
  its two: it occurs no more, and nothing else occurs that was not there.
-/

namespace Typings.Text

variable {pattern written : List Char}

/-- An occurrence of the pattern at the front is replaced. -/
theorem replace_append (hpat : pattern ≠ []) (rest : List Char) :
    replace pattern written (pattern ++ rest) = written ++ replace pattern written rest := by
  obtain ⟨k, hk⟩ : ∃ k, pattern.length = k + 1 :=
    Nat.exists_eq_add_one.mpr (List.length_pos_iff.mpr hpat)
  have hrule : replaceRule pattern written (pattern ++ rest) = some (written, k + 1) := by
    simp [replaceRule, hk]
  have hne : pattern ++ rest ≠ [] := by simp [hpat]
  rw [replace, substitute_of_some hrule hne, ← hk, List.drop_left]
  rfl

/-- A character at which the pattern does not start is kept. -/
theorem replace_cons {c : Char} {rest : List Char} (h : ¬ pattern <+: c :: rest) :
    replace pattern written (c :: rest) = c :: replace pattern written rest := by
  have hrule : replaceRule pattern written (c :: rest) = none := by
    simpa [replaceRule] using h
  rw [replace, substitute_cons_of_none hrule]
  rfl

/-- Induction along the steps of a replacement: a text is empty, or it starts with the pattern,
or it starts with a character that is kept. -/
theorem replace_induction (hpat : pattern ≠ []) {motive : List Char → Prop} (nil : motive [])
    (taken : ∀ rest, motive rest → motive (pattern ++ rest))
    (kept : ∀ c rest, ¬ pattern <+: c :: rest → motive rest → motive (c :: rest))
    (text : List Char) : motive text := by
  induction hn : text.length using Nat.strongRecOn generalizing text with
  | ind n ih =>
      cases text with
      | nil => exact nil
      | cons c rest =>
          by_cases hstart : pattern <+: c :: rest
          · obtain ⟨behind, hbehind⟩ := hstart
            have hpos := List.length_pos_iff.mpr hpat
            have hlen : behind.length < n := by
              rw [← hn, ← hbehind, List.length_append]
              omega
            rw [← hbehind]
            exact taken behind (ih _ hlen behind rfl)
          · have hlen : rest.length < n := by
              rw [← hn, List.length_cons]
              omega
            exact kept c rest hstart (ih _ hlen rest rfl)

/-- Replacing cannot complete a pattern if what is written consists of elements that the
pattern does not hold: each written text keeps apart what stands around it. -/
theorem not_infix_replace {p text : List Char} (hpat : pattern ≠ []) (hne : written ≠ [])
    (hw : ∀ c ∈ written, c ∉ p) (h : ¬ p <:+: text) : ¬ p <:+: replace pattern written text := by
  -- What stands in front of the place that the pass has reached is a variable of the induction.
  suffices key : ∀ front, ¬ p <:+: front ++ text → ¬ p <:+: front ++ replace pattern written text
    from key [] h
  clear h
  induction text using replace_induction hpat with
  | nil =>
      intro front hfront
      exact hfront
  | taken rest ih =>
      intro front hfront
      have hbefore : ¬ p <:+: front := fun hi => hfront (List.infix_append_of_infix_left hi)
      have hbehind : ¬ p <:+: rest := fun hi => hfront
        (List.infix_append_of_infix_right (List.infix_append_of_infix_right hi))
      rw [replace_append hpat]
      exact not_infix_append_foreign hne hw hbefore (ih [] hbehind)
  | kept c rest hkept ih =>
      intro front hfront
      rw [replace_cons hkept, List.append_cons]
      exact ih (front ++ [c]) (by rwa [← List.append_cons])

/-! ## Escaping a pair -/

section Escape

variable {x y z : Char}

/-- Replacing keeps the first character if the pattern and what is written share it. -/
private theorem head?_escaped (text : List Char) :
    (replace [x, y] [x, z, y] text).head? = text.head? := by
  induction text using replace_induction (List.cons_ne_nil x [y]) with
  | nil => rfl
  | taken rest _ =>
      rw [replace_append (List.cons_ne_nil x [y])]
      rfl
  | kept c rest hkept _ =>
      rw [replace_cons hkept]
      rfl

/-- A pair with a character between its two occurs no more. -/
theorem not_infix_escaped (hxy : x ≠ y) (hz : z ∉ [x, y]) (text : List Char) :
    ¬ [x, y] <:+: replace [x, y] [x, z, y] text := by
  induction text using replace_induction (List.cons_ne_nil x [y]) with
  | nil => simp [List.infix_nil]
  | taken rest ih =>
      rw [replace_append (List.cons_ne_nil x [y])]
      show ¬ [x, y] <:+: [x] ++ z :: (y :: replace [x, y] [x, z, y] rest)
      rw [infix_append_cons_iff hz]
      rintro (h | h)
      · have hlen := h.length_le
        simp at hlen
      · rcases List.infix_cons_iff.mp h with hp | hi
        · exact hxy (List.cons_prefix_cons.mp hp).1
        · exact ih hi
  | kept c rest hkept ih =>
      rw [replace_cons hkept]
      intro h
      rcases List.infix_cons_iff.mp h with hp | hi
      · -- The pair would already stand in front of the place that the pass has reached.
        obtain ⟨rfl, behind, hbehind⟩ := List.cons_prefix_cons.mp hp
        have hhead := head?_escaped (x := x) (y := y) (z := z) rest
        rw [← hbehind] at hhead
        cases rest with
        | nil => simp at hhead
        | cons d rest =>
            have hd : y = d := by simpa using hhead
            exact hkept (by simp [hd])
      · exact ih hi

/-- A pattern without the character that is written between the two of a pair occurs behind the
escape only where it occurred before. -/
theorem infix_of_infix_escaped {p text : List Char} (hz : z ∉ p)
    (h : p <:+: replace [x, y] [x, z, y] text) : p <:+: text := by
  suffices key : ∀ front, p <:+: front ++ replace [x, y] [x, z, y] text → p <:+: front ++ text
    from key [] h
  clear h
  induction text using replace_induction (List.cons_ne_nil x [y]) with
  | nil => exact fun _ h => h
  | taken rest ih =>
      intro front h
      rw [replace_append (List.cons_ne_nil x [y])] at h
      have hsplit : front ++ ([x, z, y] ++ replace [x, y] [x, z, y] rest)
          = (front ++ [x]) ++ z :: ([y] ++ replace [x, y] [x, z, y] rest) := by simp
      have hwhole : front ++ ([x, y] ++ rest) = (front ++ [x]) ++ ([y] ++ rest) := by simp
      rw [hsplit, infix_append_cons_iff hz] at h
      rw [hwhole]
      rcases h with hbefore | hbehind
      · exact List.infix_append_of_infix_left hbefore
      · exact List.infix_append_of_infix_right (ih [y] hbehind)
  | kept c rest hkept ih =>
      intro front h
      rw [replace_cons hkept, List.append_cons] at h
      rw [List.append_cons]
      exact ih (front ++ [c]) h

end Escape

end Typings.Text
