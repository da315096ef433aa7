import Typings.Proofs.Text.Containment

/-!
# Counting a pattern

How often a pattern stands in a text: at how many places it starts. A pattern cannot lie across
a character that it does not hold, so around such a character the places on both sides can be
counted one by one.

## Main definitions

* `occurrences` — the number of places at which a pattern starts.

## Main results

* `occurrences_append_cons` — counting on both sides of a foreign character.
* `occurrences_eq_zero_iff` — a pattern that occurs nowhere.
-/

namespace Typings.Text

/-- The number of places of a text at which a pattern starts. -/
def occurrences (pattern : List Char) : List Char → Nat
  | [] => if pattern = [] then 1 else 0
  | c :: rest => (if pattern <+: c :: rest then 1 else 0) + occurrences pattern rest

theorem occurrences_eq_zero_iff {pattern text : List Char} :
    occurrences pattern text = 0 ↔ ¬ pattern <:+: text := by
  induction text with
  | nil => simp [occurrences, List.infix_nil]
  | cons c rest ih =>
      rw [occurrences, Nat.add_eq_zero_iff, ih, List.infix_cons_iff, not_or]
      simp

/-- A prefix that stops in front of a foreign character does not see what is behind it. -/
private theorem prefix_append_cons_iff {pattern a b : List Char} {x : Char} (hx : x ∉ pattern) :
    pattern <+: a ++ x :: b ↔ pattern <+: a := by
  induction a generalizing pattern with
  | nil =>
      constructor
      · intro h
        rw [eq_nil_of_prefix_cons hx h]
      · intro h
        rw [List.prefix_nil.mp h]
        exact List.nil_prefix
  | cons y a ih =>
      cases pattern with
      | nil => simp
      | cons c pattern =>
          have hrest : x ∉ pattern := fun hm => hx (List.mem_cons_of_mem _ hm)
          rw [List.cons_append, List.cons_prefix_cons, List.cons_prefix_cons, ih hrest]

theorem occurrences_append_cons {pattern a b : List Char} {x : Char} (hne : pattern ≠ [])
    (hx : x ∉ pattern) :
    occurrences pattern (a ++ x :: b) = occurrences pattern a + occurrences pattern b := by
  induction a with
  | nil =>
      have hstart : ¬ pattern <+: x :: b := fun h => hne (eq_nil_of_prefix_cons hx h)
      simp [occurrences, hne, hstart]
  | cons y a ih =>
      have hstart : pattern <+: y :: (a ++ x :: b) ↔ pattern <+: y :: a := by
        rw [← List.cons_append]
        exact prefix_append_cons_iff hx
      rw [List.cons_append, occurrences, occurrences, ih]
      simp only [hstart]
      omega

end Typings.Text
