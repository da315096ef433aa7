import Typings.Descriptor.Basic
import Typings.Json.Fields
import Typings.Json.Printer
import Typings.Json.Reader

/-!
# Descriptors as JSON

How descriptors are written as JSON values and read from them. Writing leaves out what is
absent and nothing else. Reading takes the members of an object in any order, leaves
unknown ones aside, and fills in what is missing; a record may also be given as an array
of its fields, except for the type of a member.

The type of a member is held in memory as a whole before it is read, so everything inside
it must fit, also what is left aside.

## Main definitions

* `toJson` and `ofJson?` for `ValueType`, `Member`, `Descriptor` and `DescriptorFile`.
* `DescriptorFile.write`, `DescriptorFile.parse?` — the same as text.
-/

namespace Typings

/-! ## Writing -/

/-- The member of an object for a text that may be absent. -/
def optionalText (key : String) : Option String → List (String × Json)
  | some text => [(key, .string text)]
  | none => []

mutual

/-- A type as an object. -/
def ValueType.toJson : ValueType → Json
  | ⟨kind, referenceName⟩ =>
    .object (kind.toMembers ++ optionalText "clientSideReferenceName" referenceName)

/-- A kind as the members of an object: its name and what it is made of. -/
def ValueKind.toMembers : ValueKind → List (String × Json)
  | .known name => [("kind", .string "known"), ("of", .string name)]
  | .array item => [("kind", .string "array"), ("of", item.toJson)]
  | .dictionary text => [("kind", .string "dictionary"), ("of", .string text)]
  | .shape members => [("kind", .string "shape"), ("of", .array (membersToJson members))]
  | .unknown => [("kind", .string "unknown")]

/-- A member as an object. -/
def Member.toJson : Member → Json
  | ⟨name, optional, summary, initializer, type⟩ =>
    .object (
      [("name", .string name), ("optional", .bool optional)]
        ++ optionalText "summary" summary
        ++ optionalText "initExpression" initializer
        ++ [("type", type.toJson)])

/-- Members as objects. -/
def membersToJson : List Member → List Json
  | [] => []
  | m :: rest => m.toJson :: membersToJson rest

end

/-- A path as a string. -/
def Path.toJson (p : Path) : Json := .string p.text

/-- A declared type as an object. -/
def Descriptor.toJson (d : Descriptor) : Json :=
  .object (
    [("name", .string d.name), ("namespace", .string d.scope), ("isEnum", .bool d.isEnum)]
      ++ optionalText "baseName" d.base
      ++ optionalText "baseNamespace" d.baseScope
      ++ optionalText "summary" d.summary
      ++ [("properties", .array (membersToJson d.members)),
        ("references", .array (d.references.map Path.toJson))])

/-- A descriptor file as an object. -/
def DescriptorFile.toJson (f : DescriptorFile) : Json :=
  .object [("sourcePath", f.sourcePath.toJson), ("types", .array (f.types.map Descriptor.toJson))]

/-- The text of a descriptor file. -/
def DescriptorFile.write (f : DescriptorFile) : String := f.toJson.compact

/-! ## Reading -/

/-- A path from a string. -/
def Path.ofJson? (v : Json) : Option Path := v.string?.map Path.mk

/-- The name of a kind: a string, or an object whose only key is the name, with nothing in
its value. -/
def ValueKind.name? : Json → Option String
  | .object [(name, .object [])] => some name
  | v => v.caseName?

mutual

/-- A type, when brackets may nest `levels` deep. -/
def ValueType.ofJson? : Nat → Json → Option ValueType
  | levels + 1, .object members => do
    if !(Json.object members).fits (levels + 1) then none
    let field ← Json.fieldsOfObject? ["kind", "of", "clientSideReferenceName"] members
    let name ← Json.required ValueKind.name? (field "kind")
    let referenceName ← Json.optional Json.string? (field "clientSideReferenceName")
    let kind ← ValueKind.ofJson? levels name (field "of")
    return ⟨kind, referenceName⟩
  | _, _ => none

/-- A kind, from its name and what it is made of, when brackets may nest `levels` deep. -/
def ValueKind.ofJson? : Nat → String → Option Json → Option ValueKind
  | _, "known", some v => v.string?.map .known
  | _, "dictionary", some v => v.string?.map .dictionary
  | levels, "array", some v => (ValueType.ofJson? levels v).map .array
  | levels + 1, "shape", some v => (v.list? (Member.ofJson? levels)).map .shape
  | _, "unknown", none => some .unknown
  | _, "unknown", some .null => some .unknown
  | _, _, _ => none

/-- A member, when brackets may nest `levels` deep. -/
def Member.ofJson? : Nat → Json → Option Member
  | levels + 1, v => do
    let field ← v.fields? ["name", "optional", "summary", "initExpression", "type"]
    let name ← Json.required Json.string? (field "name")
    let optional ← Json.withDefault Json.bool? false (field "optional")
    let summary ← Json.optional Json.string? (field "summary")
    let initializer ← Json.optional Json.string? (field "initExpression")
    let type ← Json.withDefault (ValueType.ofJson? levels) .unknown (field "type")
    return ⟨name, optional, summary, initializer, type⟩
  | 0, _ => none

end

/-- A declared type, when brackets may nest `levels` deep. -/
def Descriptor.ofJson? (levels : Nat) (v : Json) : Option Descriptor := do
  let field ← v.fields?
    ["name", "namespace", "isEnum", "baseName", "baseNamespace", "summary", "properties",
      "references"]
  let name ← Json.required Json.string? (field "name")
  let scope ← Json.withDefault Json.string? "" (field "namespace")
  let isEnum ← Json.withDefault Json.bool? false (field "isEnum")
  let base ← Json.optional Json.string? (field "baseName")
  let baseScope ← Json.optional Json.string? (field "baseNamespace")
  let summary ← Json.optional Json.string? (field "summary")
  let members ← Json.withDefault (Json.list? (Member.ofJson? (levels - 2))) [] (field "properties")
  let references ← Json.withDefault (Json.list? Path.ofJson?) [] (field "references")
  return ⟨name, scope, isEnum, base, baseScope, summary, members, references⟩

/-- The declared types of a list, when brackets may nest `levels` deep. -/
def Descriptor.listOfJson? (levels : Nat) (v : Json) : Option (List Descriptor) :=
  v.list? (Descriptor.ofJson? (levels - 1))

/-- How deep brackets may nest in a descriptor file. -/
def DescriptorFile.levels : Nat := 127

/-- A descriptor file. -/
def DescriptorFile.ofJson? (v : Json) : Option DescriptorFile := do
  let field ← v.fields? ["sourcePath", "types"]
  let sourcePath ← Json.required Path.ofJson? (field "sourcePath")
  let types ← Json.withDefault (Descriptor.listOfJson? (levels - 1)) [] (field "types")
  return ⟨sourcePath, types⟩

/-- The descriptor file that a text spells. -/
def DescriptorFile.parse? (text : String) : Option DescriptorFile :=
  Json.parse? text >>= DescriptorFile.ofJson?

end Typings
