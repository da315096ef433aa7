import Typings.Path.Basic

/-!
# Descriptors

A descriptor says everything about one declared type that its definition needs: its name
and namespace, what it extends, its documentation and its members. Descriptors of one
source file come together in a descriptor file.

## Main definitions

* `ValueType`, `ValueKind` — the type of a member.
* `Member` — a property of an interface, or a constant of an enumeration.
* `Descriptor` — an interface, a class or an enumeration.
* `DescriptorFile` — the descriptors of one source file.
-/

namespace Typings

/-! ## Types of members -/

mutual

/-- The type of a member. -/
structure ValueType where
  /-- What kind of type it is. -/
  kind : ValueKind
  /-- The name of the declared type that it refers to, if it refers to one. -/
  referenceName : Option String := none

/-- The kinds of types that a member can have. -/
inductive ValueKind where
  /-- A type with a name. -/
  | known (name : String)
  /-- An array. -/
  | array (item : ValueType)
  /-- A dictionary, written as it is given. -/
  | dictionary (text : String)
  /-- An object type without a name, given by its members. -/
  | shape (members : List Member)
  /-- A type about which nothing is known. -/
  | unknown

/-- A property of an interface or of an object type, or a constant of an enumeration. -/
structure Member where
  /-- The name. -/
  name : String
  /-- Whether the member may be absent. -/
  optional : Bool := false
  /-- The documentation. -/
  summary : Option String := none
  /-- The value of a constant, as it was found in the source. -/
  initializer : Option String := none
  /-- The type. -/
  type : ValueType

end

namespace ValueType

/-- A type with a name. -/
def known (name : String) : ValueType := ⟨.known name, none⟩

/-- An array of items. -/
def array (item : ValueType) : ValueType := ⟨.array item, none⟩

/-- A dictionary, by its text. -/
def dictionary (text : String) : ValueType := ⟨.dictionary text, none⟩

/-- An object type without a name. -/
def shape (members : List Member) : ValueType := ⟨.shape members, none⟩

/-- The type about which nothing is known. -/
def unknown : ValueType := ⟨.unknown, none⟩

instance : Inhabited ValueType := ⟨unknown⟩

/-- A reference to a declared type. -/
def reference (name : String) : ValueType := ⟨.known name, some name⟩

/-- The same type, as a reference to a declared type. -/
def withReferenceName (t : ValueType) (name : String) : ValueType :=
  { t with referenceName := some name }

end ValueType

mutual

/-- Whether a type is a dictionary, or an array of such at any depth. -/
def ValueType.isDictionary : ValueType → Bool
  | ⟨kind, _⟩ => kind.isDictionary

/-- Whether a kind is that of a dictionary, or of an array of such at any depth. -/
def ValueKind.isDictionary : ValueKind → Bool
  | .dictionary _ => true
  | .array item => item.isDictionary
  | _ => false

end

/-! ## Members -/

namespace Member

instance : Inhabited Member := ⟨⟨"", false, none, none, .unknown⟩⟩

/-- A member with a type. -/
def ofType (name : String) (type : ValueType) : Member := ⟨name, false, none, none, type⟩

/-- A constant of an enumeration, perhaps with its value. -/
def constant (name : String) (initializer : Option String) : Member :=
  ⟨name, false, none, initializer, .unknown⟩

/-- The same member, which may be absent. -/
def asOptional (m : Member) : Member := { m with optional := true }

/-- The same member with documentation. -/
def withSummary (m : Member) (summary : String) : Member := { m with summary := some summary }

/-- The name, with a question mark behind it if the member may be absent. -/
def label (m : Member) : String := if m.optional then m.name ++ "?" else m.name

end Member

/-! ## Declared types -/

/-- A declared type. -/
structure Descriptor where
  /-- The name. -/
  name : String
  /-- The namespace, with dots between its parts; empty for a type without one. -/
  scope : String := ""
  /-- Whether the type is an enumeration. -/
  isEnum : Bool := false
  /-- The name of the type that it extends. -/
  base : Option String := none
  /-- The namespace of the type that it extends, if known. -/
  baseScope : Option String := none
  /-- The documentation. -/
  summary : Option String := none
  /-- The members. -/
  members : List Member := []
  /-- The files in which the types of the members are declared. -/
  references : List Path := []
  deriving Inhabited

namespace Descriptor

/-- An interface or class without members. -/
def interface (name : String) : Descriptor := ⟨name, "", false, none, none, none, [], []⟩

/-- An enumeration without members. -/
def enumeration (name : String) : Descriptor := ⟨name, "", true, none, none, none, [], []⟩

/-- The same type in a namespace. -/
def inScope (d : Descriptor) (scope : String) : Descriptor := { d with scope := scope }

/-- The same type, extending another one. -/
def extending (d : Descriptor) (base : String) (baseScope : Option String) : Descriptor :=
  { d with base := some base, baseScope := baseScope }

/-- The same type with documentation. -/
def withSummary (d : Descriptor) (summary : String) : Descriptor :=
  { d with summary := some summary }

/-- The same type with one more member at the end. -/
def withMember (d : Descriptor) (m : Member) : Descriptor :=
  { d with members := d.members ++ [m] }

/-- The same type with one more file that its members refer to. -/
def withReference (d : Descriptor) (reference : Path) : Descriptor :=
  { d with references := d.references ++ [reference] }

end Descriptor

/-- The descriptors extracted from one source file. -/
structure DescriptorFile where
  /-- The source file. -/
  sourcePath : Path
  /-- The types that it declares. -/
  types : List Descriptor
  deriving Inhabited

end Typings
