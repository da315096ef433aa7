import Typings.Json.Basic
import Typings.Json.Literal

/-!
# JSON tokens

A JSON text is a sequence of brackets, colons, commas, strings, numbers and the words
`null`, `true` and `false`, with blanks between them.

## Main definitions

* `Token` — the tokens.
* `tokens?` — the tokens of a text, by one pass of a small machine over its characters.
-/

namespace Typings.Json

/-- A token of JSON text. -/
inductive Token where
  /-- The bracket that opens an object. -/
  | openObject
  /-- The bracket that closes an object. -/
  | closeObject
  /-- The bracket that opens an array. -/
  | openArray
  /-- The bracket that closes an array. -/
  | closeArray
  /-- The colon behind a key. -/
  | colon
  /-- The comma between two items or members. -/
  | comma
  /-- A string; without a text if it holds half of a surrogate pair. -/
  | string (text : Option String)
  /-- A number or one of the words. -/
  | scalar (value : Json)

/-- The blanks of JSON text. -/
def isSpace (c : Char) : Bool := c = ' ' || c = '\t' || c = '\n' || c = '\r'

/-- The token that a single character makes up. -/
def punctuation? (c : Char) : Option Token :=
  if c = '\x7b' then some .openObject
  else if c = '\x7d' then some .closeObject
  else if c = '[' then some .openArray
  else if c = ']' then some .closeArray
  else if c = ':' then some .colon
  else if c = ',' then some .comma
  else none

/-- The token for a run of characters that are no blanks, quotes or punctuation. -/
def wordToken? (word : List Char) : Option Token :=
  if word = "null".toList then some (.scalar .null)
  else if word = "true".toList then some (.scalar (.bool true))
  else if word = "false".toList then some (.scalar (.bool false))
  else (Number.parse? word).map fun _ => .scalar (.number (String.ofList word))

/-- The token for what stands between two quotes. -/
def stringToken? (literal : List Char) : Option Token :=
  (Literal.pieces? literal).map fun pieces =>
    .string ((Literal.join? pieces).map String.ofList)

/-! ## The machine -/

/-- Where the machine stands. What it has taken of a token is kept last character first. -/
inductive Scan where
  /-- Between two tokens. -/
  | between
  /-- In a word or a number. -/
  | word (taken : List Char)
  /-- In a string, perhaps directly behind a backslash. -/
  | string (taken : List Char) (escaped : Bool)

/-- The machine with the tokens that it has found, last first. -/
structure Scanner where
  /-- Where it stands. -/
  scan : Scan
  /-- What it has found. -/
  found : List Token

/-- One character, met between two tokens. -/
def Scanner.start (found : List Token) (c : Char) : Scanner :=
  if isSpace c then ⟨.between, found⟩
  else if c = '"' then ⟨.string [] false, found⟩
  else match punctuation? c with
    | some token => ⟨.between, token :: found⟩
    | none => ⟨.word [c], found⟩

/-- One character. -/
def Scanner.step (s : Scanner) (c : Char) : Option Scanner :=
  match s.scan with
  | .between => some (.start s.found c)
  | .word taken =>
    if isSpace c || c = '"' || (punctuation? c).isSome then
      (wordToken? taken.reverse).map fun token => .start (token :: s.found) c
    else some ⟨.word (c :: taken), s.found⟩
  | .string taken true => some ⟨.string (c :: taken) false, s.found⟩
  | .string taken false =>
    if c = '"' then (stringToken? taken.reverse).map fun token => ⟨.between, token :: s.found⟩
    else some ⟨.string (c :: taken) (c = '\\'), s.found⟩

/-- What the machine has found when the text is over. A string must have been closed. -/
def Scanner.finish (s : Scanner) : Option (List Token) :=
  match s.scan with
  | .between => some s.found.reverse
  | .word taken => (wordToken? taken.reverse).map fun token => (token :: s.found).reverse
  | .string _ _ => none

/-- The tokens of a text. -/
def tokens? (text : List Char) : Option (List Token) := do
  let scanner ← text.foldlM Scanner.step ⟨.between, []⟩
  scanner.finish

end Typings.Json
