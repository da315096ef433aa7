import Typings.Json.Basic
import Typings.Json.Literal

/-!
# Writing JSON text

Two layouts: compact, without a blank between tokens, and indented, with one item or
member on each line, two blanks deeper than its bracket.

## Main definitions

* `Json.compact` — the compact layout.
* `Json.indented` — the indented layout.
-/

namespace Typings.Json

/-- A text between quotes. -/
def quote (text : String) : String :=
  "\"" ++ String.ofList (Literal.encode text.toList) ++ "\""

/-- The text of a truth value. -/
def boolText (value : Bool) : String := if value then "true" else "false"

/-! ## Compact -/

mutual

/-- A value without blanks. What is unreadable has no text, and `null` stands for it. -/
def compact : Json → String
  | .null => "null"
  | .bool value => boolText value
  | .number literal => literal
  | .string text => quote text
  | .array items => "[" ++ ",".intercalate (compactItems items) ++ "]"
  | .object members => "\x7b" ++ ",".intercalate (compactMembers members) ++ "\x7d"
  | .unreadable => "null"

/-- Each item without blanks. -/
def compactItems : List Json → List String
  | [] => []
  | item :: rest => compact item :: compactItems rest

/-- Each member without blanks. -/
def compactMembers : List (String × Json) → List String
  | [] => []
  | (key, value) :: rest => (quote key ++ ":" ++ compact value) :: compactMembers rest

end

/-! ## Indented -/

/-- The start of a line inside `depth` brackets. -/
def lineStart (depth : Nat) : String := "\n" ++ String.ofList (List.replicate (2 * depth) ' ')

/-- Brackets around pieces, each on a line of its own. -/
def bracketed (opening closing : String) (depth : Nat) (pieces : List String) : String :=
  if pieces = [] then opening ++ closing
  else
    let start := lineStart (depth + 1)
    opening ++ start ++ ("," ++ start).intercalate pieces ++ lineStart depth ++ closing

mutual

/-- A value inside `depth` brackets, with one item or member on each line. -/
def indentedAt (depth : Nat) : Json → String
  | .array items => bracketed "[" "]" depth (indentedItems (depth + 1) items)
  | .object members => bracketed "\x7b" "\x7d" depth (indentedMembers (depth + 1) members)
  | value => compact value

/-- Each item, inside `depth` brackets. -/
def indentedItems (depth : Nat) : List Json → List String
  | [] => []
  | item :: rest => indentedAt depth item :: indentedItems depth rest

/-- Each member, inside `depth` brackets. -/
def indentedMembers (depth : Nat) : List (String × Json) → List String
  | [] => []
  | (key, value) :: rest =>
    (quote key ++ ": " ++ indentedAt depth value) :: indentedMembers depth rest

end

/-- A value with one item or member on each line. -/
def indented (value : Json) : String := indentedAt 0 value

end Typings.Json
