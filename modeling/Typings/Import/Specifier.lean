import Typings.Options.Naming
import Typings.Path.Relative
import Typings.Text.Replace

/-!
# What an import statement says

A file is imported under the symbol that its name gives, from a specifier that leads to it
from the directory of the importing file.

## Main definitions

* `Import`, `Import.line` — an import and its statement.
* `stripExtension` — a file name without the extension of a module.
* `Options.importSymbol` — the symbol that a file stands for.
* `Options.moduleSpecifier` — the way to a file, as an import names it.
-/

namespace Typings

/-- An import of one symbol. -/
structure Import where
  /-- The symbol. -/
  symbol : String
  /-- The module that it comes from. -/
  specifier : String
  deriving DecidableEq, Repr

/-- The import statement. -/
def Import.line (i : Import) : String :=
  "import \x7b " ++ i.symbol ++ " \x7d from \"" ++ i.specifier ++ "\";"

/-- The extensions of modules, in the order in which they are tried. -/
def moduleExtensions : List String := [".d.ts", ".ts", ".tsx"]

/-- A text without an ending, if something is left in front of it. -/
def properStem? (ending text : List Char) : Option (List Char) :=
  (ending.isSuffixOf? text).filter (· ≠ [])

/-- A file name without the extension of source files. Something must stand in front of the
dot. -/
def stripSourceExtension (sourceExtension fileName : String) : String :=
  match Text.splitLast '.' fileName.toList with
  | some (c :: stem, extension) =>
    if sourceExtension ≠ "" ∧ String.ofList extension = sourceExtension then
      String.ofList (c :: stem)
    else fileName
  | _ => fileName

/-- A file name without the extension of a module or of a source file. Any other ending
behind a dot is part of the name. -/
def stripExtension (sourceExtension fileName : String) : String :=
  match moduleExtensions.findSome? fun e => properStem? e.toList fileName.toList with
  | some stem => String.ofList stem
  | none => stripSourceExtension sourceExtension fileName

/-- A text without an ending, if it has that ending. -/
def withoutEnding (ending text : String) : String :=
  match ending.toList.isSuffixOf? text.toList with
  | some stem => String.ofList stem
  | none => text

namespace Options

/-- The file name of a path without extension; empty if the path does not end with a name. -/
def moduleStem (o : Options) (file : Path) : String :=
  stripExtension o.sourceExtension (file.fileName?.getD "")

/-- The symbol that a file stands for: its name without extension and without the suffix of
generated files. -/
def importSymbol (o : Options) (file : Path) : String :=
  withoutEnding o.generatedSuffix (o.moduleStem file)

/-- The way from a directory to a module. It starts with a dot, and its separators are
slashes. -/
def moduleSpecifier (o : Options) (fromDir target : Path) : String :=
  let path := (fromDir.relative (target.withFileName (o.moduleStem target))).text
  let specifier := String.ofList (Text.replace ['\\'] ['/'] path.toList)
  if specifier.toList.head? = some '.' then specifier else "./" ++ specifier

/-! ## Some files -/

example : importSymbol .default ⟨"/lib/Order.generated.d.ts"⟩ = "Order" := by
  decide +kernel

example : moduleSpecifier .default ⟨"/src/Models"⟩ ⟨"/src/Shared/Money.cs"⟩ = "../Shared/Money" := by
  decide +kernel

end Options

end Typings
