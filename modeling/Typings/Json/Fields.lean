import Typings.Json.Basic

/-!
# Fields of a record

A record is read from an object by the names of its fields, or from an array by their
order. Members with other names are left aside. A field that is given twice spoils the
record, and so does an array with more items than there are fields.

## Main definitions

* `Json.fields?` — the values that are given for some fields.
* `required`, `withDefault`, `optional` — how a field that may be missing is read.
-/

namespace Typings.Json

/-- The value given for each field, by name. -/
abbrev Fields := String → Option Json

/-- How often a key occurs among some members. -/
def occurrences (key : String) (members : List (String × Json)) : Nat :=
  members.countP (·.1 = key)

/-- The fields of an object. -/
def fieldsOfObject? (names : List String) (members : List (String × Json)) : Option Fields :=
  if names.all fun name => occurrences name members ≤ 1 then
    some fun name => members.lookup name
  else none

/-- The fields of an object, or of an array that lists them in order. -/
def fields? (names : List String) : Json → Option Fields
  | .object members => fieldsOfObject? names members
  | .array items =>
    if items.length ≤ names.length then some fun name => (names.zip items).lookup name
    else none
  | _ => none

/-- The name of a case that carries no value: a string, or an object whose only key is the
name, with `null` as its value. -/
def caseName? : Json → Option String
  | .string name => some name
  | .object [(name, .null)] => some name
  | _ => none

section Field

variable {α : Type} (read? : Json → Option α)

/-- A field that must be given. -/
def required (field : Option Json) : Option α := field >>= read?

/-- A field that has a value of its own when it is not given. -/
def withDefault (value : α) : Option Json → Option α
  | none => some value
  | some given => read? given

/-- A field without a value when it is not given, or given as `null`. -/
def optional : Option Json → Option (Option α)
  | none => some none
  | some .null => some none
  | some given => (read? given).map some

end Field

end Typings.Json
