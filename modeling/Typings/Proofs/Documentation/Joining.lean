import Typings.Proofs.Text.Lines
import Typings.Summary

/-!
# Summaries with other line breaks

A summary comes with the line breaks of the file that it was found in, and sometimes with several
kinds of them. What is read from it is a list of lines, and the breaks between them should not
matter.

They do not, except in one place. A carriage return takes the line feed behind it along. So a line
that ends at a carriage return, an empty line behind it and a line feed at the end of that are read
as one break, and the empty line is lost. With any other breaks between them the lines are read as
they are, and what depends on the lines of a summary only, like its comment and the choice that it
carries, is the same.

## Main definitions

* `Text.Break`, `Text.Joining` — lines with breaks between them.
* `Text.Joining.Apart` — no two breaks are read as one.

## Main results

* `Text.Joining.lines_text_iff` — when the lines are read as they are.
* `Summary.ignoresBase_congr`, `Summary.comment_congr` — what depends on the lines only.
* `Summary.joinings_alike` — a summary with other line breaks.
-/

namespace Typings

/-! ## Lines with breaks between them -/

namespace Text

/-- What ends a line. -/
inductive Break where
  /-- A carriage return with a line feed behind it. -/
  | pair
  /-- A carriage return alone. -/
  | carriage
  /-- A line feed alone. -/
  | feed
  deriving DecidableEq, Repr

def Break.chars : Break → List Char
  | pair => ['\r', '\n']
  | carriage => ['\r']
  | feed => ['\n']

theorem length_consFirst {c : Char} {ls : List (List Char)} (h : ls ≠ []) :
    (consFirst c ls).length = ls.length := by
  obtain ⟨line, rest, rfl⟩ := List.exists_cons_of_ne_nil h
  rfl

/-- What stands in front of a text without a break makes no line of its own. -/
theorem length_lines_append {line : List Char} (h : OneLine line) (text : List Char) :
    (lines (line ++ text)).length = (lines text).length := by
  induction line with
  | nil => rfl
  | cons c rest ih =>
      obtain ⟨⟨hreturn, hfeed⟩, hrest⟩ := oneLine_cons.mp h
      rw [List.cons_append, lines_cons_of_inline hreturn hfeed, length_consFirst (lines_ne_nil _),
        ih hrest]

/-- A break makes one line more at most. -/
theorem length_lines_break_le (separator : Break) (text : List Char) :
    (lines (separator.chars ++ text)).length ≤ (lines text).length + 1 := by
  cases separator with
  | pair => simp [Break.chars, lines]
  | feed => simp [Break.chars, lines]
  | carriage =>
      show (lines ('\r' :: text)).length ≤ _
      by_cases hhead : text.head? = some '\n'
      · obtain ⟨rest, rfl⟩ : ∃ rest, text = '\n' :: rest := ⟨_, List.eq_cons_of_mem_head? hhead⟩
        simp [lines]
      · simp [lines_carriage hhead]

/-- Some lines, each but the first one behind a break. -/
structure Joining where
  first : List Char
  others : List (Break × List Char)
  deriving DecidableEq, Repr

namespace Joining

def lines (j : Joining) : List (List Char) := j.first :: j.others.map (·.2)

def text (j : Joining) : List Char :=
  j.first ++ j.others.flatMap fun (separator, line) => separator.chars ++ line

/-- Two breaks that are read as one: a carriage return, and a line feed behind the empty line that
follows it. -/
def Merges (a b : Break × List Char) : Prop := a.1 = .carriage ∧ a.2 = [] ∧ b.1 = .feed

instance (a b : Break × List Char) : Decidable (Merges a b) :=
  inferInstanceAs (Decidable (_ ∧ _))

/-- No two neighbouring breaks are read as one. -/
def Apart (j : Joining) : Prop := j.others.IsChain fun a b => ¬ Merges a b

instance (j : Joining) : Decidable j.Apart := inferInstanceAs (Decidable (List.IsChain _ _))

variable {first line : List Char} {separator : Break} {others : List (Break × List Char)}

theorem text_singleton (first : List Char) : text ⟨first, []⟩ = first := by
  rw [text, List.flatMap_nil, List.append_nil]

theorem text_cons : text ⟨first, (separator, line) :: others⟩
    = first ++ (separator.chars ++ text ⟨line, others⟩) := by
  rw [text, text, List.flatMap_cons, List.append_assoc]

/-! ## Reading the lines -/

/-- A line feed stands in front of a text only as a break behind an empty line. -/
theorem head?_text_ne (h : OneLine line)
    (hclear : ∀ next ∈ others.head?, ¬ Merges (.carriage, line) next) :
    (text ⟨line, others⟩).head? ≠ some '\n' := by
  intro hhead
  cases line with
  | cons c rest => exact (oneLine_cons.mp h).1.2 (Option.some.inj hhead)
  | nil =>
      cases others with
      | nil => cases hhead
      | cons next rest =>
          obtain ⟨separator, behind⟩ := next
          cases separator with
          | feed => exact hclear _ rfl ⟨rfl, rfl, rfl⟩
          | pair => exact absurd (Option.some.inj hhead) (by decide)
          | carriage => exact absurd (Option.some.inj hhead) (by decide)

/-- A line is read up to its break, and the rest as if it stood alone, unless the next break is
taken along. -/
theorem lines_text_cons (hfirst : OneLine first) (hline : OneLine line)
    (hclear : ∀ next ∈ others.head?, ¬ Merges (separator, line) next) :
    Text.lines (text ⟨first, (separator, line) :: others⟩)
      = first :: Text.lines (text ⟨line, others⟩) := by
  rw [text_cons]
  apply lines_append hfirst
  cases separator with
  | pair => exact Text.lines.eq_2 _
  | carriage => exact lines_carriage (head?_text_ne hline hclear)
  | feed => exact Text.lines.eq_4 _

/-- Where the next break is taken along, the empty line in between is lost. -/
theorem lines_text_of_merges {next : Break × List Char} (hfirst : OneLine first)
    (hmerges : Merges (separator, line) next) :
    Text.lines (text ⟨first, (separator, line) :: next :: others⟩)
      = first :: Text.lines (text ⟨next.2, others⟩) := by
  obtain ⟨kind, behind⟩ := next
  obtain ⟨rfl, rfl, rfl⟩ := hmerges
  rw [text_cons, text_cons]
  exact lines_append hfirst (Text.lines.eq_2 _)

/-- No more lines are read than there are. -/
theorem length_lines_text_le (others : List (Break × List Char)) {first : List Char}
    (h : ∀ line ∈ lines ⟨first, others⟩, OneLine line) :
    (Text.lines (text ⟨first, others⟩)).length ≤ others.length + 1 := by
  induction others generalizing first with
  | nil => rw [text_singleton, (Broken.last (h first (by simp [lines]))).lines_eq]; rfl
  | cons other rest ih =>
      obtain ⟨separator, line⟩ := other
      obtain ⟨hfirst, hothers⟩ := List.forall_mem_cons.mp h
      calc (Text.lines (text ⟨first, (separator, line) :: rest⟩)).length
          = (Text.lines (separator.chars ++ text ⟨line, rest⟩)).length := by
            rw [text_cons, length_lines_append hfirst]
        _ ≤ (Text.lines (text ⟨line, rest⟩)).length + 1 := length_lines_break_le _ _
        _ ≤ rest.length + 1 + 1 := Nat.succ_le_succ (ih hothers)

/-- **When the lines are read as they are.** -/
theorem lines_text_iff {j : Joining} (h : ∀ line ∈ j.lines, OneLine line) :
    Text.lines j.text = j.lines ↔ j.Apart := by
  obtain ⟨first, others⟩ := j
  induction others generalizing first with
  | nil =>
      rw [text_singleton]
      exact iff_of_true (Broken.last (h first (by simp [lines]))).lines_eq .nil
  | cons other rest ih =>
      obtain ⟨separator, line⟩ := other
      obtain ⟨hfirst, hothers⟩ := List.forall_mem_cons.mp h
      have hline : OneLine line := hothers line (by simp)
      have hread : (∀ next ∈ rest.head?, ¬ Merges (separator, line) next) →
          (Text.lines (text ⟨first, (separator, line) :: rest⟩)
              = lines ⟨first, (separator, line) :: rest⟩ ↔ Apart ⟨line, rest⟩) := by
        intro hclear
        rw [lines_text_cons hfirst hline hclear, ← ih line hothers, lines, List.map_cons,
          List.cons.injEq, and_iff_right rfl]
        rfl
      cases rest with
      | nil => exact (hread (by simp)).trans (iff_of_true .nil (.singleton _))
      | cons next rest =>
          obtain ⟨kind, behind⟩ := next
          rw [Apart, List.isChain_cons_cons]
          by_cases hmerges : Merges (separator, line) (kind, behind)
          · -- One line less is read than there is.
            refine iff_of_false (fun hsame => ?_) fun happart => happart.1 hmerges
            have hle := length_lines_text_le rest (List.forall_mem_cons.mp hothers).2
            rw [lines_text_of_merges hfirst hmerges] at hsame
            have hlength := congrArg List.length hsame
            simp only [lines, List.length_cons, List.length_map] at hlength
            omega
          · rw [hread (by simpa using hmerges), and_iff_right hmerges]
            rfl

end Joining

end Text

/-! ## What depends on the lines only -/

namespace Summary

theorem ignoresBase_congr {a b : String} (h : Text.lines a.toList = Text.lines b.toList) :
    ignoresBase (some a) = ignoresBase (some b) := by
  rw [ignoresBase, ignoresBase, h]

/-- Only the empty text has an empty line and no other one. -/
theorem eq_nil_of_lines {text : List Char} (h : Text.lines text = [[]]) : text = [] := by
  have hbroken : Text.Broken text [[]] := Text.broken_iff.mpr h.symm
  cases hbroken with
  | last => rfl
  | pair _ hrest => exact absurd hrest.lines_eq (Text.lines_ne_nil _)
  | carriage _ _ hrest => exact absurd hrest.lines_eq (Text.lines_ne_nil _)
  | feed _ hrest => exact absurd hrest.lines_eq (Text.lines_ne_nil _)

theorem comment_congr {a b : String} (h : Text.lines a.toList = Text.lines b.toList) :
    comment (some a) = comment (some b) := by
  have hempty : ∀ {a b : String}, Text.lines a.toList = Text.lines b.toList → a = "" → b = "" := by
    rintro a b hlines rfl
    exact String.toList_inj.mp (eq_nil_of_lines hlines.symm)
  by_cases hb : b = ""
  · rw [hb, hempty h.symm hb]
  · rw [comment, comment, if_neg hb, if_neg fun ha => hb (hempty h ha), h]

/-- **A summary with other line breaks.** The lines of a summary are read as they are if and only
if no two breaks between them are read as one, and then they are also found in two stages. Two
summaries with the same lines and such breaks make the same choice, and the same comment is written
for them. -/
theorem joinings_alike (j : Text.Joining) (h : ∀ line ∈ j.lines, Text.OneLine line) :
    (Text.lines j.text = j.lines ↔ j.Apart) ∧
      (j.Apart → (Text.chunks j.text).flatMap (List.splitOnP Text.isBreak) = j.lines ∧
        ∀ j' : Text.Joining, j'.lines = j.lines → j'.Apart →
          ignoresBase (some (String.ofList j'.text)) = ignoresBase (some (String.ofList j.text)) ∧
            ∀ w : Writer, w.addComment (some (String.ofList j'.text))
              = w.addComment (some (String.ofList j.text))) := by
  have hread := Text.Joining.lines_text_iff h
  refine ⟨hread, fun happart => ⟨?_, fun j' hlines happart' => ?_⟩⟩
  · rw [← Text.lines_eq_flatMap_chunks, hread.mpr happart]
  · have hread' := Text.Joining.lines_text_iff (hlines ▸ h)
    have hsame : Text.lines (String.ofList j'.text).toList
        = Text.lines (String.ofList j.text).toList := by
      rw [String.toList_ofList, String.toList_ofList, hread.mpr happart, hread'.mpr happart', hlines]
    refine ⟨ignoresBase_congr hsame, fun w => ?_⟩
    rw [Writer.addComment, Writer.addComment, comment_congr hsame]

/-- A summary with an empty line in it, and a line that carries a choice. -/
def mixedBreaks : Text.Joining :=
  ⟨"An order.".toList,
    [(.carriage, []), (.pair, "TypeScriptDefinitionGenerator: IgnoreBaseType".toList)]⟩

/-- The same lines with line feeds between them. -/
def lineFeeds : Text.Joining :=
  ⟨"An order.".toList,
    [(.feed, []), (.feed, "TypeScriptDefinitionGenerator: IgnoreBaseType".toList)]⟩

/-- The empty line stands between a carriage return and a break of two characters. -/
theorem joinings_alike_mixedBreaks :
    (∀ line ∈ mixedBreaks.lines, Text.OneLine line) ∧ mixedBreaks.Apart ∧ lineFeeds.Apart ∧
      lineFeeds.lines = mixedBreaks.lines ∧
      Text.lines mixedBreaks.text = mixedBreaks.lines ∧
      ignoresBase (some (String.ofList lineFeeds.text))
        = ignoresBase (some (String.ofList mixedBreaks.text)) ∧
      ∀ w : Writer, w.addComment (some (String.ofList lineFeeds.text))
        = w.addComment (some (String.ofList mixedBreaks.text)) := by
  have hlines : ∀ line ∈ mixedBreaks.lines, Text.OneLine line := by decide
  have happart : mixedBreaks.Apart := by decide
  have happart' : lineFeeds.Apart := by decide
  obtain ⟨hread, halike⟩ := joinings_alike mixedBreaks hlines
  obtain ⟨hignores, hcomment⟩ := (halike happart).2 lineFeeds rfl happart'
  exact ⟨hlines, happart, happart', rfl, hread.mpr happart, hignores, hcomment⟩

end Summary

end Typings
