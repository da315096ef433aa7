import Typings.Text.Line

/-!
# Writing indented text

A writer holds what has been written and how deep the next line is indented. Its output is
raw: one tab for each level, and a carriage return and a line feed at the end of each line.

## Main definitions

* `Writer`, with `add`, `addIndented`, `newline`, `addLine`, `indent` and `dedent`.
-/

namespace Typings

/-- A text under construction. -/
structure Writer where
  /-- What has been written. -/
  text : String
  /-- How many levels the next line is indented. -/
  level : Nat
  deriving DecidableEq, Repr, Inhabited

namespace Writer

/-- Nothing written, nothing indented. -/
def empty : Writer := ⟨"", 0⟩

/-- The indentation of a line: a tab for each level. -/
def tabs (level : Nat) : String := String.ofList (List.replicate level '\t')

/-- Write a text. -/
def add (w : Writer) (text : String) : Writer := ⟨w.text ++ text, w.level⟩

/-- Write a text behind an indentation. -/
def addIndented (w : Writer) (text : String) : Writer := ⟨w.text ++ tabs w.level ++ text, w.level⟩

/-- End the line. -/
def newline (w : Writer) : Writer := w.add Text.newline

/-- Write a whole line. -/
def addLine (w : Writer) (text : String) : Writer := (w.addIndented text).newline

/-- Indent one level more. -/
def indent (w : Writer) : Writer := ⟨w.text, w.level + 1⟩

/-- Indent one level less, if there is one. -/
def dedent (w : Writer) : Writer := ⟨w.text, w.level - 1⟩

/-- Write some whole lines. -/
def addLines (w : Writer) (lines : List String) : Writer := lines.foldl addLine w

@[simp] theorem level_add (w : Writer) (text : String) : (w.add text).level = w.level := rfl

@[simp] theorem level_addIndented (w : Writer) (text : String) :
    (w.addIndented text).level = w.level := rfl

@[simp] theorem level_newline (w : Writer) : w.newline.level = w.level := rfl

@[simp] theorem level_addLine (w : Writer) (text : String) : (w.addLine text).level = w.level := rfl

@[simp] theorem text_add (w : Writer) (text : String) : (w.add text).text = w.text ++ text := rfl

@[simp] theorem text_addIndented (w : Writer) (text : String) :
    (w.addIndented text).text = w.text ++ tabs w.level ++ text := rfl

@[simp] theorem text_indent (w : Writer) : w.indent.text = w.text := rfl

@[simp] theorem text_dedent (w : Writer) : w.dedent.text = w.text := rfl

@[simp] theorem dedent_indent (w : Writer) : w.indent.dedent = w := rfl

@[simp] theorem level_addLines (w : Writer) (lines : List String) :
    (w.addLines lines).level = w.level := by
  induction lines generalizing w with
  | nil => rfl
  | cons line rest ih => simpa [addLines] using ih (w.addLine line)

end Writer

end Typings
