import Typings.Json.Fields
import Typings.Options.Basic

/-!
# Options as JSON

How options are written as JSON values and read from them. Every option is written; one
that is missing is read as its default.

## Main definitions

* `toJson` and `ofJson?` for `Indentation`, `LineEnding`, `MissingPolicy` and `Options`.
-/

namespace Typings

/-! ## Choices with names -/

namespace Indentation

/-- An indentation as a word, or as an object that gives the width. -/
def toJson : Indentation → Json
  | .tab => .string "tab"
  | .spaces width => .object [("spaces", .number (toString width.toNat))]

/-- An indentation from its word, or from an object that gives a width below 256. -/
def ofJson? : Json → Option Indentation
  | .object [("spaces", width)] => do
    let n ← width.natural?
    if n < 256 then some (.spaces (UInt8.ofNat n)) else none
  | v => if v.caseName? = some "tab" then some .tab else none

end Indentation

namespace LineEnding

/-- A line ending as a word. -/
def toJson : LineEnding → Json
  | .crlf => .string "crlf"
  | .lf => .string "lf"

/-- A line ending from its word. -/
def ofJson? (v : Json) : Option LineEnding :=
  match v.caseName? with
  | some "crlf" => some .crlf
  | some "lf" => some .lf
  | _ => none

end LineEnding

namespace MissingPolicy

/-- A policy as a word. -/
def toJson : MissingPolicy → Json
  | .warn => .string "warn"
  | .fail => .string "fail"

/-- A policy from its word. -/
def ofJson? (v : Json) : Option MissingPolicy :=
  match v.caseName? with
  | some "warn" => some .warn
  | some "fail" => some .fail
  | _ => none

end MissingPolicy

/-! ## All choices -/

namespace Options

/-- Options as an object. -/
def toJson (o : Options) : Json :=
  .object [
    ("declareModule", .bool o.declareModule),
    ("classInsteadOfInterface", .bool o.classInsteadOfInterface),
    ("indent", o.indent.toJson),
    ("lineEnding", o.lineEnding.toJson),
    ("missingReferences", o.missingReferences.toJson),
    ("camelCaseTypeNames", .bool o.camelCaseTypeNames),
    ("camelCasePropertyNames", .bool o.camelCasePropertyNames),
    ("camelCaseEnumValues", .bool o.camelCaseEnumValues),
    ("amdModuleName", .bool o.amdModuleName),
    ("sourceExtension", .string o.sourceExtension),
    ("generatedSuffix", .string o.generatedSuffix)]

/-- The names of the options, in the order in which they are written. -/
def fieldNames : List String :=
  ["declareModule", "classInsteadOfInterface", "indent", "lineEnding", "missingReferences",
    "camelCaseTypeNames", "camelCasePropertyNames", "camelCaseEnumValues", "amdModuleName",
    "sourceExtension", "generatedSuffix"]

/-- Options from an object, or from an array of them in order. -/
def ofJson? (v : Json) : Option Options := do
  let field ← v.fields? fieldNames
  let base := Options.default
  let flag := fun value name => Json.withDefault Json.bool? value (field name)
  let text := fun value name => Json.withDefault Json.string? value (field name)
  let declareModule ← flag base.declareModule "declareModule"
  let classInsteadOfInterface ← flag base.classInsteadOfInterface "classInsteadOfInterface"
  let indent ← Json.withDefault Indentation.ofJson? base.indent (field "indent")
  let lineEnding ← Json.withDefault LineEnding.ofJson? base.lineEnding (field "lineEnding")
  let missingReferences ←
    Json.withDefault MissingPolicy.ofJson? base.missingReferences (field "missingReferences")
  let camelCaseTypeNames ← flag base.camelCaseTypeNames "camelCaseTypeNames"
  let camelCasePropertyNames ← flag base.camelCasePropertyNames "camelCasePropertyNames"
  let camelCaseEnumValues ← flag base.camelCaseEnumValues "camelCaseEnumValues"
  let amdModuleName ← flag base.amdModuleName "amdModuleName"
  let sourceExtension ← text base.sourceExtension "sourceExtension"
  let generatedSuffix ← text base.generatedSuffix "generatedSuffix"
  return {
    declareModule, classInsteadOfInterface, indent, lineEnding, missingReferences,
    camelCaseTypeNames, camelCasePropertyNames, camelCaseEnumValues, amdModuleName,
    sourceExtension, generatedSuffix }

end Options

end Typings
