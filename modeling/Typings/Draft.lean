import Typings.Summary

/-!
# Drafts

A draft is a definition file before it is written: the steps of a writer, with a slot
wherever an extends clause may stand. A draft does not say how deep it is indented, so the
same draft can stand inside a module declaration or outside.

## Main definitions

* `Draft.Step`, `Draft` — the steps.
* `Draft.write` — a writer after the steps, with a text for each slot.

## Main results

* `Draft.write_append` — drafts are written one after the other.
-/

namespace Typings

/-- A step of writing. -/
inductive Draft.Step where
  /-- Write a text. -/
  | add (text : String)
  /-- Write a text behind an indentation. -/
  | addIndented (text : String)
  /-- End the line. -/
  | newline
  /-- Indent one level more. -/
  | indent
  /-- Indent one level less. -/
  | dedent
  /-- Write the block comment for a summary. -/
  | comment (summary : Option String)
  /-- Write what a slot holds: the extends clause for a base, or nothing. -/
  | slot (base : String)
  deriving DecidableEq, Repr

/-- The steps of writing, in order. -/
abbrev Draft := List Draft.Step

namespace Draft

/-- A whole line. -/
def line (text : String) : Draft := [.addIndented text, .newline]

/-- One step of a writer. -/
def Step.write (slot : String → String) (w : Writer) : Step → Writer
  | .add text => w.add text
  | .addIndented text => w.addIndented text
  | .newline => w.newline
  | .indent => w.indent
  | .dedent => w.dedent
  | .comment summary => w.addComment summary
  | .slot base => w.add (slot base)

/-- A writer after the steps of a draft. -/
def write (slot : String → String) (w : Writer) (draft : Draft) : Writer :=
  draft.foldl (Step.write slot) w

/-- The text of a draft. -/
def text (slot : String → String) (draft : Draft) : String := (draft.write slot .empty).text

@[simp] theorem write_nil (slot : String → String) (w : Writer) : write slot w [] = w := rfl

@[simp] theorem write_cons (slot : String → String) (w : Writer) (step : Step) (rest : Draft) :
    write slot w (step :: rest) = write slot (step.write slot w) rest := rfl

@[simp] theorem write_append (slot : String → String) (w : Writer) (a b : Draft) :
    write slot w (a ++ b) = write slot (write slot w a) b := List.foldl_append

end Draft

end Typings
