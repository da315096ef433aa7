import Typings.Proofs.Text.LineBreaks
import Typings.Text.Line

/-!
# How a text is read line by line

A line break is a carriage return with a line feed behind it, or one of the two alone. Reading from
left to right, a carriage return takes the line feed behind it along. This determines the lines of
a text, and no other list of lines without breaks puts the text together in this way.

The lines can also be found in two stages: the text is cut at the pairs of the two characters
first, and then each of the parts at the single characters that are left in it. In the first stage
no pair is missed, and a character that it leaves has no partner, so both ways lead to the same
lines.

## Main definitions

* `Broken` — a text and its lines.
* `chunks`, `isBreak` — the two stages.

## Main results

* `broken_iff` — the lines of a text are the ones that are read.
* `oneLine_of_mem_lines` — a line holds no break.
* `lines_eq_flatMap_chunks` — the lines in two stages.
-/

namespace Typings.Text

/-- A text and its lines, from left to right. -/
inductive Broken : List Char → List (List Char) → Prop where
  /-- Without a break the text is its only line. -/
  | last {line : List Char} (h : OneLine line) : Broken line [line]
  /-- A line ends at a carriage return with a line feed behind it. -/
  | pair {line rest : List Char} {ls : List (List Char)} (h : OneLine line)
    (hrest : Broken rest ls) : Broken (line ++ '\r' :: '\n' :: rest) (line :: ls)
  /-- A line ends at a carriage return alone. -/
  | carriage {line rest : List Char} {ls : List (List Char)} (h : OneLine line)
    (halone : rest.head? ≠ some '\n') (hrest : Broken rest ls) :
    Broken (line ++ '\r' :: rest) (line :: ls)
  /-- A line ends at a line feed alone. -/
  | feed {line rest : List Char} {ls : List (List Char)} (h : OneLine line)
    (hrest : Broken rest ls) : Broken (line ++ '\n' :: rest) (line :: ls)

theorem oneLine_nil : OneLine [] := ⟨List.not_mem_nil, List.not_mem_nil⟩

/-! ## The reading -/

theorem lines_cons_of_inline {c : Char} (hreturn : c ≠ '\r') (hfeed : c ≠ '\n')
    (rest : List Char) : lines (c :: rest) = consFirst c (lines rest) := by
  rw [lines]
  · exact fun _ h _ => hreturn h
  · exact hreturn
  · exact hfeed

theorem lines_carriage {rest : List Char} (h : rest.head? ≠ some '\n') :
    lines ('\r' :: rest) = [] :: lines rest := by
  rw [lines]
  rintro behind rfl
  exact h rfl

/-- What stands in front of the first break belongs to the first line. -/
theorem lines_append {line rest : List Char} {ls : List (List Char)} (h : OneLine line)
    (hrest : lines rest = [] :: ls) : lines (line ++ rest) = line :: ls := by
  induction line with
  | nil => exact hrest
  | cons c line ih =>
      obtain ⟨⟨hreturn, hfeed⟩, hline⟩ := oneLine_cons.mp h
      rw [List.cons_append, lines_cons_of_inline hreturn hfeed, ih hline, consFirst]

/-- A character that breaks no line goes in front of the first line. -/
theorem Broken.consFirst {c : Char} (hreturn : c ≠ '\r') (hfeed : c ≠ '\n') {text : List Char}
    {ls : List (List Char)} (h : Broken text ls) : Broken (c :: text) (consFirst c ls) := by
  have hcons {line : List Char} (hline : OneLine line) : OneLine (c :: line) :=
    oneLine_cons.mpr ⟨⟨hreturn, hfeed⟩, hline⟩
  cases h with
  | last h => exact .last (hcons h)
  | pair h hrest => exact .pair (hcons h) hrest
  | carriage h halone hrest => exact .carriage (hcons h) halone hrest
  | feed h hrest => exact .feed (hcons h) hrest

theorem broken_lines (text : List Char) : Broken text (lines text) := by
  fun_induction lines text with
  | case1 => exact .last oneLine_nil
  | case2 rest ih => exact .pair oneLine_nil ih
  | case3 rest halone ih =>
      refine .carriage oneLine_nil (fun hhead => ?_) ih
      exact halone rest.tail (List.eq_cons_of_mem_head? hhead)
  | case4 rest ih => exact .feed oneLine_nil ih
  | case5 c rest _ hreturn hfeed ih => exact ih.consFirst hreturn hfeed

theorem Broken.oneLine {text : List Char} {ls : List (List Char)} (h : Broken text ls) :
    ∀ line ∈ ls, OneLine line := by
  induction h with
  | last h => exact List.forall_mem_singleton.mpr h
  | pair h _ ih => exact List.forall_mem_cons.mpr ⟨h, ih⟩
  | carriage h _ _ ih => exact List.forall_mem_cons.mpr ⟨h, ih⟩
  | feed h _ ih => exact List.forall_mem_cons.mpr ⟨h, ih⟩

/-- A line holds no line break: each of them ends a line. -/
theorem oneLine_of_mem_lines {text line : List Char} (h : line ∈ lines text) : OneLine line :=
  (broken_lines text).oneLine line h

theorem Broken.lines_eq {text : List Char} {ls : List (List Char)} (h : Broken text ls) :
    lines text = ls := by
  induction h with
  | @last line h =>
      have hown : lines (line ++ []) = [line] := lines_append h rfl
      rwa [List.append_nil] at hown
  | pair h _ ih => exact lines_append h (by rw [lines, ih])
  | carriage h halone _ ih => exact lines_append h (by rw [lines_carriage halone, ih])
  | feed h _ ih => exact lines_append h (by rw [lines, ih])

/-- **The lines of a text** are the ones that are read from left to right, and no others. -/
theorem broken_iff {text : List Char} {ls : List (List Char)} :
    Broken text ls ↔ ls = lines text :=
  ⟨fun h => h.lines_eq.symm, fun h => h ▸ broken_lines text⟩

/-! ## Two stages -/

/-- The first stage: what stands between the pairs of a carriage return and a line feed. -/
def chunks : List Char → List (List Char)
  | [] => [[]]
  | '\r' :: '\n' :: rest => [] :: chunks rest
  | c :: rest => consFirst c (chunks rest)

/-- The second stage: the characters that break a line alone. -/
def isBreak (c : Char) : Bool := c = '\r' || c = '\n'

theorem exists_chunks_cons (text : List Char) : ∃ first others, chunks text = first :: others := by
  fun_induction chunks text with
  | case1 => exact ⟨_, _, rfl⟩
  | case2 rest _ => exact ⟨_, _, rfl⟩
  | case3 c rest _ ih =>
      obtain ⟨first, others, h⟩ := ih
      rw [h]
      exact ⟨_, _, rfl⟩

theorem chunks_cons_of_inline {c : Char} (hreturn : c ≠ '\r') (rest : List Char) :
    chunks (c :: rest) = consFirst c (chunks rest) := by
  rw [chunks]
  exact fun _ h _ => hreturn h

theorem chunks_carriage {rest : List Char} (h : rest.head? ≠ some '\n') :
    chunks ('\r' :: rest) = consFirst '\r' (chunks rest) := by
  rw [chunks]
  rintro behind - rfl
  exact h rfl

/-- A single character that breaks a line makes an empty line in the second stage. -/
theorem flatMap_consFirst_break {c : Char} (hbreak : isBreak c = true) (text : List Char) :
    (consFirst c (chunks text)).flatMap (List.splitOnP isBreak)
      = [] :: (chunks text).flatMap (List.splitOnP isBreak) := by
  obtain ⟨first, others, hchunks⟩ := exists_chunks_cons text
  rw [hchunks, consFirst, List.flatMap_cons, List.flatMap_cons,
    List.splitOnP_cons_eq_if_modifyHead, if_pos hbreak, List.cons_append]

/-- Any other character stays in front of the first line. -/
theorem flatMap_consFirst_inline {c : Char} (hinline : isBreak c = false) (text : List Char) :
    (consFirst c (chunks text)).flatMap (List.splitOnP isBreak)
      = consFirst c ((chunks text).flatMap (List.splitOnP isBreak)) := by
  obtain ⟨first, others, hchunks⟩ := exists_chunks_cons text
  obtain ⟨line, behind, hlines⟩ := List.exists_cons_of_ne_nil (List.splitOnP_ne_nil isBreak first)
  rw [hchunks, consFirst, List.flatMap_cons, List.flatMap_cons,
    List.splitOnP_cons_eq_if_modifyHead, if_neg (by simp [hinline]), hlines]
  rfl

/-- **The lines in two stages**: cut at the pairs, and each part at the single characters. -/
theorem lines_eq_flatMap_chunks (text : List Char) :
    lines text = (chunks text).flatMap (List.splitOnP isBreak) := by
  fun_induction lines text with
  | case1 => rfl
  | case2 rest ih =>
      rw [chunks, List.flatMap_cons, ← ih]
      rfl
  | case3 rest halone ih =>
      have halone' : rest.head? ≠ some '\n' :=
        fun hhead => halone rest.tail (List.eq_cons_of_mem_head? hhead)
      rw [chunks_carriage halone', flatMap_consFirst_break rfl, ih]
  | case4 rest ih =>
      rw [chunks_cons_of_inline (by decide), flatMap_consFirst_break rfl, ih]
  | case5 c rest _ hreturn hfeed ih =>
      have hinline : isBreak c = false :=
        Bool.or_eq_false_iff.mpr ⟨decide_eq_false hreturn, decide_eq_false hfeed⟩
      rw [chunks_cons_of_inline hreturn, flatMap_consFirst_inline hinline, ih]

end Typings.Text
