import Typings.Json.Token

/-!
# Reading JSON text

Values are put together from tokens by a machine with a stack: each open bracket is a
frame that holds what has been read inside it.

## Main definitions

* `Json.ofTokens?` — the value that a sequence of tokens spells.
* `Json.parse?` — the value of a text.
-/

namespace Typings.Json

/-- An open bracket, with what has been read behind it, last first. -/
inductive Frame where
  /-- In an array. -/
  | array (items : List Json)
  /-- In an object, where a key or a comma stands next. -/
  | object (members : List (Option String × Json))
  /-- In an object, where the value of a key stands next. -/
  | member (members : List (Option String × Json)) (key : Option String)

/-- What may stand next. -/
inductive Expected where
  /-- A value. -/
  | value
  /-- A value or the end of an array. -/
  | valueOrEnd
  /-- A key. -/
  | key
  /-- A key or the end of an object. -/
  | keyOrEnd
  /-- The colon behind a key. -/
  | colon (key : Option String)
  /-- A comma or the end of an array or object. -/
  | next
  /-- Nothing: the whole value has been read. -/
  | nothing (value : Json)

/-- The machine: the open brackets, innermost first, and what may stand next. -/
structure Reader where
  /-- The open brackets. -/
  frames : List Frame
  /-- What may stand next. -/
  expected : Expected

/-- The object with some members. A key with half of a surrogate pair spoils it. -/
def ofMembers (members : List (Option String × Json)) : Json :=
  match members.mapM fun (key, value) => key.map (·, value) with
  | some members => .object members
  | none => .unreadable

/-- The value of a string. -/
def ofText : Option String → Json
  | some text => .string text
  | none => .unreadable

/-- A value has been read: it goes into the innermost bracket. -/
def Reader.complete (value : Json) : List Frame → Option Reader
  | [] => some ⟨[], .nothing value⟩
  | .array items :: frames => some ⟨.array (value :: items) :: frames, .next⟩
  | .member members key :: frames => some ⟨.object ((key, value) :: members) :: frames, .next⟩
  | .object _ :: _ => none

/-- The first token of a value. -/
def Reader.start (frames : List Frame) : Token → Option Reader
  | .scalar value => complete value frames
  | .string text => complete (ofText text) frames
  | .openArray => some ⟨.array [] :: frames, .valueOrEnd⟩
  | .openObject => some ⟨.object [] :: frames, .keyOrEnd⟩
  | _ => none

/-- The innermost bracket is closed. -/
def Reader.close : List Frame → Token → Option Reader
  | .array items :: frames, .closeArray => complete (.array items.reverse) frames
  | .object members :: frames, .closeObject => complete (ofMembers members.reverse) frames
  | _, _ => none

/-- A comma in the innermost bracket. -/
def Reader.goOn : List Frame → Option Reader
  | .array items :: frames => some ⟨.array items :: frames, .value⟩
  | .object members :: frames => some ⟨.object members :: frames, .key⟩
  | _ => none

/-- The colon behind a key. -/
def Reader.enter (key : Option String) : List Frame → Option Reader
  | .object members :: frames => some ⟨.member members key :: frames, .value⟩
  | _ => none

/-- One token. -/
def Reader.step (r : Reader) (token : Token) : Option Reader :=
  match r.expected, token with
  | .value, token => Reader.start r.frames token
  | .valueOrEnd, .closeArray => Reader.close r.frames .closeArray
  | .valueOrEnd, token => Reader.start r.frames token
  | .key, .string key => some ⟨r.frames, .colon key⟩
  | .keyOrEnd, .string key => some ⟨r.frames, .colon key⟩
  | .keyOrEnd, .closeObject => Reader.close r.frames .closeObject
  | .colon key, .colon => Reader.enter key r.frames
  | .next, .comma => Reader.goOn r.frames
  | .next, token => Reader.close r.frames token
  | _, _ => none

/-- The value that a sequence of tokens spells. -/
def ofTokens? (tokens : List Token) : Option Json := do
  let reader ← tokens.foldlM Reader.step ⟨[], .value⟩
  match reader.expected with
  | .nothing value => some value
  | _ => none

/-- The value of a text, which holds nothing else but blanks around it. -/
def parse? (text : String) : Option Json := tokens? text.toList >>= ofTokens?

end Typings.Json
