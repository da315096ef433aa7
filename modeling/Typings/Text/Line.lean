/-!
# Lines of a text

A line ends at a carriage return followed by a line feed, at a carriage return alone,
or at a line feed alone. Every text has at least one line, and a break at the very end
is followed by an empty line.

## Main definitions

* `lines` — the lines of a text, without their breaks.
* `newline` — the break that the library itself writes.
-/

namespace Typings.Text

/-- The line break that is written: a carriage return and a line feed. -/
def newline : String := "\r\n"

/-- Put a character in front of the first line. -/
def consFirst (c : Char) : List (List Char) → List (List Char)
  | [] => [[c]]
  | line :: rest => (c :: line) :: rest

/-- The lines of a text. A carriage return and the line feed behind it are one break. -/
def lines : List Char → List (List Char)
  | [] => [[]]
  | '\r' :: '\n' :: rest => [] :: lines rest
  | '\r' :: rest => [] :: lines rest
  | '\n' :: rest => [] :: lines rest
  | c :: rest => consFirst c (lines rest)

theorem lines_ne_nil (text : List Char) : lines text ≠ [] := by
  fun_induction lines text with
  | case5 c rest _ _ _ ih => cases h : lines rest <;> simp_all [consFirst]
  | _ => simp

example : lines "a\r\n\rb\n".toList = ["a".toList, [], "b".toList, []] := by cbv

end Typings.Text
