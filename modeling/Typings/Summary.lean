import Typings.Text.Blank
import Typings.Text.Replace
import Typings.Writer

/-!
# Summaries

A summary is free text that documents a type or a member. It becomes a block comment, in
which nothing may end the comment early, and one of its lines may carry a choice for the
type that it documents.

## Main definitions

* `Summary.ignoresBase` — whether a summary asks to leave out what its type extends.
* `Summary.comment` — the lines of the block comment.
* `Writer.addComment` — writing it.
-/

namespace Typings

namespace Summary

/-! ## Choices in a summary -/

/-- The start of a line that carries a choice. -/
def marker : String := "TypeScriptDefinitionGenerator:"

/-- The choice that leaves out what a type extends. -/
def ignoreBase : String := "IgnoreBaseType"

/-- Whether a line asks to leave out what its type extends. -/
def lineIgnoresBase (line : List Char) : Bool :=
  marker.toList.isPrefixOf line && Text.occursIn ignoreBase.toList line

/-- Whether some line of a summary asks to leave out what its type extends. -/
def ignoresBase : Option String → Bool
  | some summary => (Text.lines summary.toList).any lineIgnoresBase
  | none => false

/-! ## Block comments -/

/-- A line as it stands in a comment: a star in front, no end of a comment in it, and no
blank behind it. -/
def commentLine (line : List Char) : String :=
  String.ofList (Text.trimEnd (" * ".toList ++ Text.replace "*/".toList "*\\/".toList line))

/-- The lines of the block comment for a summary. An empty summary has none. -/
def comment : Option String → List String
  | some summary =>
    if summary = "" then []
    else "/**" :: (Text.lines summary.toList).map commentLine ++ [" */"]
  | none => []

end Summary

/-- Write the block comment for a summary. -/
def Writer.addComment (w : Writer) (summary : Option String) : Writer :=
  w.addLines (Summary.comment summary)

@[simp] theorem Writer.level_addComment (w : Writer) (summary : Option String) :
    (w.addComment summary).level = w.level := Writer.level_addLines w _

end Typings
