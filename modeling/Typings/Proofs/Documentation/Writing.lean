import Typings.Proofs.Body.Breaks
import Typings.Proofs.Documentation.Closing
import Typings.Proofs.Formatting
import Typings.Proofs.Text.Lines

/-!
# Comments as they are written

A writer takes a summary line by line. Each line becomes a row behind a blank and a star, between
a row that opens the comment and one that ends it. What a row is made of comes from one line of
the summary, so a row breaks nowhere. In the line the sequence that ends a comment is escaped,
wherever it stands, and the star of the row has a blank behind it or ends the row. So nothing
ends the comment but its last row.

## Main definitions

* `Summary.row`, `Summary.rows` — the rows of a comment.
* `Summary.Commented` — some lines of a summary and the text that is written for them.

## Main results

* `Summary.commented_commentChars` — the text that a writer is given.
* `Writer.addComment_commented` — the writer before and behind a comment.
-/

namespace Typings

/-! ## Rows -/

namespace Summary

/-- The row of a comment for a line of its summary. -/
def row (line : List Char) : List Char :=
  " *".toList ++ Text.trimEnd (' ' :: Text.replace commentEnd "*\\/".toList line)

/-- The rows of a comment for the lines of its summary. -/
def rows (ls : List (List Char)) : List (List Char) :=
  "/**".toList :: ls.map row ++ [" */".toList]

theorem length_rows (ls : List (List Char)) : (rows ls).length = ls.length + 2 := by
  simp [rows]

/-- The star of a row is no blank, so it stays when blanks are taken away at the end. -/
theorem toList_commentLine (line : List Char) : (commentLine line).toList = row line := by
  rw [commentLine, String.toList_ofList]
  exact Text.dropEndWhile_append_cons_of_neg (by decide) [' '] _

theorem map_toList_comment {summary : String} (hne : summary ≠ "") :
    (comment (some summary)).map String.toList = rows (Text.lines summary.toList) := by
  rw [comment, if_neg hne, List.map_append, List.map_cons, List.map_map, rows]
  congr 3
  exact funext toList_commentLine

/-! ## The text of a comment -/

/-- **A comment as it is written** for some lines of a summary: its rows behind the indentation
of a level, and nothing that ends it but its last row. -/
structure Commented (level : Nat) (ls : List (List Char)) (written : List Char) : Prop where
  text : written
    = (rows ls).flatMap fun row => List.replicate level '\t' ++ row ++ Text.newline.toList
  count : (rows ls).length = ls.length + 2
  oneLine : ∀ row ∈ rows ls, Text.OneLine row
  once : Text.occurrences commentEnd written = 1
  atEnd : commentEnd ++ Text.newline.toList <:+ written

/-- **The text of a comment**, for the lines of its summary. -/
theorem commented_commentChars (level : Nat) {summary : String} (hne : summary ≠ "") :
    Commented level (Text.lines summary.toList) (Writer.commentChars level (some summary)) := by
  have hrows := map_toList_comment hne
  -- Tabs and line ends stay what they are in a raw text.
  have hclosed : Options.default.raw.ClosedComment (Writer.commentChars level (some summary)) :=
    Options.closedComment_commentChars (o := Options.default.raw) level hne nofun
  obtain ⟨before, hbefore⟩ := hclosed.atEnd
  refine ⟨?_, length_rows _, ?_, hclosed.once, ⟨before, hbefore.symm⟩⟩
  · rw [← hrows, List.flatMap_map, Writer.commentChars]
    congr 1
    funext line
    rw [Writer.lineChars, List.append_assoc]
  · rw [← hrows]
    intro row hrow
    obtain ⟨line, hline, rfl⟩ := List.mem_map.mp hrow
    exact oneLine_of_mem_comment hline

end Summary

/-! ## The writer behind a comment -/

namespace Writer

theorem addComment_eq (w : Writer) (summary : Option String) :
    w.addComment summary = ⟨w.text ++ String.ofList (commentChars w.level summary), w.level⟩ := by
  have htext : (w.addComment summary).text
      = w.text ++ String.ofList (commentChars w.level summary) := by
    rw [← String.toList_inj, String.toList_append, String.toList_ofList]
    exact toList_text_addLines w (Summary.comment summary)
  calc w.addComment summary
      = ⟨(w.addComment summary).text, (w.addComment summary).level⟩ := rfl
    _ = _ := by rw [htext, level_addComment]

/-- **Writing a comment.** For no summary, and for one without a character, nothing is written.
For any other summary its comment is added to the text: two rows and one for each line of the
summary, at the level of the writer. The lines are those that are read from left to right, and
also those that are found in two stages. -/
theorem addComment_commented (w : Writer) :
    w.addComment none = w ∧ w.addComment (some "") = w ∧
      ∀ summary : String, summary ≠ "" → ∃ ls written,
        Text.Broken summary.toList ls ∧
        ls = (Text.chunks summary.toList).flatMap (List.splitOnP Text.isBreak) ∧
        Summary.Commented w.level ls written ∧
        w.addComment (some summary) = ⟨w.text ++ String.ofList written, w.level⟩ := by
  refine ⟨rfl, rfl, fun summary hne => ?_⟩
  have hcomment := Summary.commented_commentChars w.level hne
  exact ⟨_, _, Text.broken_iff.mpr rfl, Text.lines_eq_flatMap_chunks _, hcomment,
    addComment_eq w (some summary)⟩

/-- A summary with breaks of all kinds, in which a comment is ended again and again. -/
theorem addComment_commented_stars :
    "a **/\r\r\n/ */*/ \n\t*" ≠ "" ∧ ∃ written,
      Summary.Commented 2 ["a **/".toList, [], "/ */*/ ".toList, "\t*".toList] written ∧
      (⟨"x", 2⟩ : Writer).addComment (some "a **/\r\r\n/ */*/ \n\t*")
        = ⟨"x" ++ String.ofList written, 2⟩ ∧
      String.ofList written = "\t\t/**\r\n\t\t * a **\\/\r\n\t\t *\r\n\t\t * / *\\/*\\/\r\n"
        ++ "\t\t * \t*\r\n\t\t */\r\n" := by
  obtain ⟨ls, written, hbroken, -, hcomment, hwritten⟩ :=
    (addComment_commented ⟨"x", 2⟩).2.2 "a **/\r\r\n/ */*/ \n\t*" (by decide)
  have hls : ls = ["a **/".toList, [], "/ */*/ ".toList, "\t*".toList] :=
    (Text.broken_iff.mp hbroken).trans (by cbv)
  rw [hls] at hcomment
  refine ⟨by decide, written, hcomment, hwritten, ?_⟩
  rw [hcomment.text]
  decide +kernel

end Writer

end Typings
