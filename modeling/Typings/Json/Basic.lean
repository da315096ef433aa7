import Typings.Json.Number

/-!
# JSON values

The values that JSON text denotes. Members of an object keep their order and may repeat a
key, and a number keeps its spelling, because readers of the values tell these apart.

## Main definitions

* `Json` — the values.
* `Json.fits` — whether a value can be held in memory: brackets nest to a limited depth,
  numbers are within the range of a double, and every string is a text.
* `Json.string?`, `Json.bool?`, `Json.list?` — values of a known form.
-/

namespace Typings

/-- A JSON value. -/
inductive Json where
  /-- The value `null`. -/
  | null
  /-- A truth value. -/
  | bool (value : Bool)
  /-- A number, as it is spelled. -/
  | number (literal : String)
  /-- A string. -/
  | string (text : String)
  /-- A list of values. -/
  | array (items : List Json)
  /-- A list of members, each with its key. -/
  | object (members : List (String × Json))
  /-- A value that is written correctly but that nothing can be made of: a string with half of
  a surrogate pair, or an object with such a key. -/
  | unreadable
  deriving Inhabited

namespace Json

/-! ## Values that fit -/

mutual

/-- Whether a value can be held when brackets may nest `levels` deep. -/
def fits (levels : Nat) : Json → Bool
  | .number literal => Number.inRange literal
  | .array items => 0 < levels && itemsFit (levels - 1) items
  | .object members => 0 < levels && membersFit (levels - 1) members
  | .unreadable => false
  | _ => true

/-- Whether every item of a list can be held. -/
def itemsFit (levels : Nat) : List Json → Bool
  | [] => true
  | item :: rest => item.fits levels && itemsFit levels rest

/-- Whether every member of an object can be held. -/
def membersFit (levels : Nat) : List (String × Json) → Bool
  | [] => true
  | (_, value) :: rest => value.fits levels && membersFit levels rest

end

/-! ## Values of a known form -/

/-- The text of a string. -/
def string? : Json → Option String
  | .string text => some text
  | _ => none

/-- The truth value. -/
def bool? : Json → Option Bool
  | .bool value => some value
  | _ => none

/-- The natural number, if it is spelled by digits alone. -/
def natural? : Json → Option Nat
  | .number literal => Number.natural? literal
  | _ => none

/-- The items of an array, each read by `item?`. -/
def list? {α : Type} (item? : Json → Option α) : Json → Option (List α)
  | .array items => items.mapM item?
  | _ => none

end Json

end Typings
