/-!
# Options

What can be chosen about a definition file: how declarations are wrapped, how names are
spelled, how lines are laid out, and what happens to references that lead nowhere.

## Main definitions

* `Indentation`, `LineEnding`, `MissingPolicy` — the choices with names.
* `Options` — all choices together, with `default` and `strict`.
-/

namespace Typings

/-- How the lines of a finished file are indented. -/
inductive Indentation where
  /-- By one tab for each level. -/
  | tab
  /-- By a number of blanks for each level. -/
  | spaces (width : UInt8)
  deriving DecidableEq, Repr

/-- How the lines of a finished file end. -/
inductive LineEnding where
  /-- By a carriage return and a line feed. -/
  | crlf
  /-- By a line feed. -/
  | lf
  deriving DecidableEq, Repr

/-- What happens when a base class or an import cannot be found. -/
inductive MissingPolicy where
  /-- A comment in the file tells about it. -/
  | warn
  /-- No file is generated. -/
  | fail
  deriving DecidableEq, Repr

/-- The choices for a definition file. -/
structure Options where
  /-- Namespaces become module declarations, and nothing is exported or imported. -/
  declareModule : Bool
  /-- Types that are no enumerations are declared as classes. -/
  classInsteadOfInterface : Bool
  /-- How lines are indented. -/
  indent : Indentation
  /-- How lines end. -/
  lineEnding : LineEnding
  /-- What happens to references that lead nowhere. -/
  missingReferences : MissingPolicy
  /-- Names of types start with a small letter. -/
  camelCaseTypeNames : Bool
  /-- Names of properties start with a small letter. -/
  camelCasePropertyNames : Bool
  /-- Names of constants start with a small letter. -/
  camelCaseEnumValues : Bool
  /-- The file starts with a directive that names its module. -/
  amdModuleName : Bool
  /-- The extension of source files, without the dot. -/
  sourceExtension : String
  /-- What generated files carry in their names before the extension. -/
  generatedSuffix : String
  deriving DecidableEq, Repr

namespace Options

/-- The choices that hold when nothing is said. -/
protected def default : Options where
  declareModule := false
  classInsteadOfInterface := false
  indent := .spaces 4
  lineEnding := .lf
  missingReferences := .warn
  camelCaseTypeNames := false
  camelCasePropertyNames := true
  camelCaseEnumValues := false
  amdModuleName := false
  sourceExtension := "cs"
  generatedSuffix := ".generated"

instance : Inhabited Options := ⟨Options.default⟩

/-- The default choices, except that a reference that leads nowhere is a failure. -/
def strict : Options := { Options.default with missingReferences := .fail }

end Options

end Typings
