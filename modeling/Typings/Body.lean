import Typings.Descriptor.Group
import Typings.Draft
import Typings.Extends
import Typings.Initializer
import Typings.Options.Naming

/-!
# The body of a definition file

The declarations of a list of descriptors, and what the rest of the file needs to know
about them: the names that are declared, the names that are referred to, and the bases
that are extended.

## Main definitions

* `ValueType.draft`, `Member.draft`, `Descriptor.draft`, `Body.draft` — the declarations as
  drafts, with a slot in the header of each type that extends another one.
* `Descriptor.extendedBase?`, `Descriptor.extendsClause` — what a type extends.
* `Names.ofTypes` — the names that are declared, referred to and extended.
* `Body.render` — the body with tokens in its slots.
-/

namespace Typings

/-! ## Types of members -/

/-- Whether a node of a type counts as a reference: it has a name to refer to, and it is no
dictionary. -/
def ValueKind.refers (kind : ValueKind) (referenceName : Option String) : Bool :=
  referenceName.isSome && !kind.isDictionary

mutual

/-- The draft of a type. -/
def ValueType.draft (o : Options) : ValueType → Draft
  | ⟨kind, referenceName⟩ => kind.draft o (kind.refers referenceName)

/-- The draft of a kind. A known type that is reached by reference is spelled as it is
declared; what is not an array ends the reach of a reference. -/
def ValueKind.draft (o : Options) (isReference : Bool) : ValueKind → Draft
  | .known name => [.add (if isReference then o.typeName name else name)]
  | .array ⟨kind, referenceName⟩ =>
    let reached := if referenceName.isSome then kind.refers referenceName else isReference
    kind.draft o reached ++ [.add "[]"]
  | .dictionary text => [.add text]
  | .shape members =>
    [.add "\x7b", .newline, .indent] ++ membersDraft o members ++ [.dedent, .addIndented "\x7d"]
  | .unknown => [.add "any"]

/-- The draft of a property. -/
def Member.draft (o : Options) : Member → Draft
  | ⟨name, optional, summary, initializer, type⟩ =>
    let label := Member.label ⟨name, optional, summary, initializer, type⟩
    [.comment summary, .addIndented (o.propertyName label ++ ": ")]
      ++ type.draft o ++ [.add ";", .newline]

/-- The draft of some properties. -/
def membersDraft (o : Options) : List Member → Draft
  | [] => []
  | m :: rest => m.draft o ++ membersDraft o rest

end

/-- The draft of a constant of an enumeration. -/
def Member.constantDraft (o : Options) (m : Member) : Draft :=
  let name := o.constantName m.name
  .comment m.summary :: Draft.line
    (match m.initializer with
    | some value => name ++ " = " ++ Initializer.clean value ++ ","
    | none => name ++ ",")

/-! ## Declared types -/

namespace Descriptor

/-- The base that a type extends: an enumeration extends none, an empty name is none, and a
summary may ask to leave it out. -/
def extendedBase? (d : Descriptor) : Option String :=
  if d.isEnum || Summary.ignoresBase d.summary then none else d.base.filter (· ≠ "")

/-- A base that a type extends is its given base. -/
theorem base_of_extendedBase? {d : Descriptor} {base : String} (h : d.extendedBase? = some base) :
    d.base = some base := by
  rw [extendedBase?] at h
  split at h
  · cases h
  · exact (Option.filter_eq_some_iff.mp h).1

/-- The extends clause for a base. It names the namespace of the base if that is another
one than the namespace of the type. -/
def extendsClause (o : Options) (d : Descriptor) (base : String) : String :=
  match d.baseScope.filter fun scope => scope ≠ "" && scope ≠ d.scope with
  | some scope => "extends " ++ scope ++ "." ++ o.typeName base ++ " "
  | none => "extends " ++ o.typeName base ++ " "

/-- The keyword of a type that is no enumeration. -/
def keyword (o : Options) : String :=
  if o.classInsteadOfInterface then "class" else "interface"

/-- The slot in a header: there is one if the type extends a base. -/
def slot (d : Descriptor) : Draft :=
  match d.extendedBase? with
  | some base => [.slot base]
  | none => []

/-- The draft of an enumeration, with a modifier in front. -/
def enumDraft (o : Options) (modifier : String) (d : Descriptor) : Draft :=
  [.comment d.summary] ++ Draft.line (modifier ++ "const enum " ++ o.typeName d.name ++ " \x7b")
    ++ [.indent] ++ d.members.flatMap (Member.constantDraft o) ++ [.dedent] ++ Draft.line "\x7d"

/-- The start of an interface or class, up to where an extends clause may stand. -/
def headerDraft (o : Options) (modifier : String) (d : Descriptor) : Draft :=
  [.comment d.summary,
    .addIndented (modifier ++ keyword o ++ " " ++ o.typeName d.name ++ " ")]

/-- The members of an interface or class, in braces. -/
def blockDraft (o : Options) (d : Descriptor) : Draft :=
  [.add "\x7b", .newline, .indent] ++ membersDraft o d.members ++ [.dedent] ++ Draft.line "\x7d"

/-- The draft of an interface or class, with a modifier in front. -/
def interfaceDraft (o : Options) (modifier : String) (d : Descriptor) : Draft :=
  d.headerDraft o modifier ++ d.slot ++ d.blockDraft o

/-- The draft of a declared type, with a modifier in front. -/
def draft (o : Options) (modifier : String) (d : Descriptor) : Draft :=
  if d.isEnum then d.enumDraft o modifier else d.interfaceDraft o modifier

end Descriptor

namespace Body

/-- Whether the declarations of a namespace stand in a module declaration. Types without a
namespace have no module to declare. -/
def isWrapped (o : Options) (scope : String) : Bool := o.declareModule && scope ≠ ""

/-- What stands in front of each declaration of a namespace. -/
def modifier (o : Options) (scope : String) : String :=
  if o.declareModule then (if isWrapped o scope then "" else "declare ") else "export "

/-- The draft of a namespace, around the draft of its declarations. -/
def enclose (o : Options) (scope : String) (declarations : Draft) : Draft :=
  if isWrapped o scope then
    Draft.line ("declare module " ++ scope ++ " \x7b") ++ [.indent] ++ declarations
      ++ [.dedent] ++ Draft.line "\x7d"
  else declarations

/-- The draft of the declarations of a namespace. -/
def scopeDraft (o : Options) (scope : String) (types : List Descriptor) : Draft :=
  enclose o scope (types.flatMap (Descriptor.draft o (modifier o scope)))

/-- The draft of all declarations, namespace by namespace. -/
def draft (o : Options) (types : List Descriptor) : Draft :=
  (Descriptor.groups types).flatMap fun (scope, types) => scopeDraft o scope types

end Body

/-! ## Names -/

mutual

/-- The names that the nodes of a type refer to, from the outside in. -/
def ValueType.referenceNames : ValueType → List String
  | ⟨kind, referenceName⟩ =>
    (if kind.isDictionary then [] else referenceName.toList) ++ kind.referenceNames

/-- The names that the nodes inside a kind refer to. -/
def ValueKind.referenceNames : ValueKind → List String
  | .array item => item.referenceNames
  | .shape members => membersReferenceNames members
  | _ => []

/-- The names that a member refers to. -/
def Member.referenceNames : Member → List String
  | ⟨_, _, _, _, type⟩ => type.referenceNames

/-- The names that some members refer to. -/
def membersReferenceNames : List Member → List String
  | [] => []
  | m :: rest => m.referenceNames ++ membersReferenceNames rest

end

/-- The names that a declared type refers to. The members of an enumeration are constants and
refer to nothing. -/
def Descriptor.referenceNames (d : Descriptor) : List String :=
  if d.isEnum then [] else membersReferenceNames d.members

/-- The names that a body declares, refers to and extends. -/
structure Names where
  /-- The names of the declared types, as they are spelled. -/
  declared : OrderedSet String
  /-- The names of the types that members refer to, as they are spelled. -/
  referenced : OrderedSet String
  /-- The names of the bases, as they are given. -/
  bases : OrderedSet String
  deriving Inhabited

/-- The names that the declarations of some descriptors declare, refer to and extend. -/
def Names.ofTypes (o : Options) (types : List Descriptor) : Names :=
  let order := Descriptor.renderOrder types
  { declared := .ofList (order.map fun d => o.typeName d.name)
    referenced := .ofList ((order.flatMap Descriptor.referenceNames).map o.typeName)
    bases := .ofList (order.filterMap Descriptor.extendedBase?) }

/-! ## The body -/

/-- The declarations of a definition file, before the extends clauses are known. -/
structure Body where
  /-- The declarations, with tokens for extends clauses. -/
  text : String
  /-- The clause for each base that is extended. -/
  clauses : Extends.Registry
  /-- The names that occur. -/
  names : Names
  deriving Inhabited

namespace Body

/-- The clause for each type that extends another one, in the order of declaration. -/
def clauseList (o : Options) (types : List Descriptor) : List (String × String) :=
  (Descriptor.renderOrder types).filterMap fun d =>
    d.extendedBase?.map fun base => (base, d.extendsClause o base)

/-- The body for some descriptors. -/
def render (o : Options) (types : List Descriptor) : Body where
  text := (draft o types).text Extends.token
  clauses := Extends.Registry.empty.registerAll (clauseList o types)
  names := Names.ofTypes o types

end Body

end Typings
