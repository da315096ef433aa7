import Typings.Options.Basic
import Typings.Path.Basic
import Typings.Text.Lowercase

/-!
# How names are spelled

Declarations, extends clauses and imports spell a name by the same functions, so that they
agree. The names of generated files follow from the name of their source.

## Main definitions

* `camelCase` — a name with a small first letter.
* `Options.typeName`, `Options.propertyName`, `Options.constantName` — names as declared.
* `Options.moduleName`, `Options.outputFileName` — names of generated files.
-/

namespace Typings

/-- A name whose first character is replaced by its lower case. -/
def camelCase (name : String) : String :=
  match name.toList with
  | [] => ""
  | first :: rest => String.ofList (Text.lowercase first ++ rest)

namespace Options

/-- The name of a type, as it is declared and referred to. -/
def typeName (o : Options) (name : String) : String :=
  if o.camelCaseTypeNames then camelCase name else name

/-- The name of a property, as it is declared. -/
def propertyName (o : Options) (name : String) : String :=
  if o.camelCasePropertyNames then camelCase name else name

/-- The name of a constant of an enumeration, as it is declared. -/
def constantName (o : Options) (name : String) : String :=
  if o.camelCaseEnumValues then camelCase name else name

/-- The name of the module that is generated from a source file. -/
def moduleName (o : Options) (source : Path) : String :=
  source.fileStem?.getD "" ++ o.generatedSuffix

/-- The extension of generated files. Module declarations go into declaration files. -/
def outputExtension (o : Options) : String := if o.declareModule then ".d.ts" else ".ts"

/-- The name of the file that is generated from a source file. -/
def outputFileName (o : Options) (source : Path) : String :=
  o.moduleName source ++ o.outputExtension

end Options

end Typings
