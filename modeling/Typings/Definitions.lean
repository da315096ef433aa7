import Typings.Import.Resolve
import Typings.Version

/-!
# Definition files

A definition file is a banner, the imports and the body, laid out as the options say.

## Main definitions

* `Options.normalize` — the line endings and the indentation of a raw text.
* `Definitions`, `generate` — a definition file, with what is missing in it.
-/

namespace Typings

/-! ## Layout -/

/-- Give a raw text the line ending of the options. -/
def LineEnding.apply : LineEnding → List Char → List Char
  | .crlf, text => text
  | .lf, text => Text.replace Text.newline.toList ['\n'] text

/-- Give a raw text the indentation of the options: every tab becomes blanks. -/
def Indentation.apply : Indentation → List Char → List Char
  | .tab, text => text
  | .spaces width, text => Text.replace ['\t'] (List.replicate width.toNat ' ') text

/-- A raw text with the line endings and the indentation of the options. -/
def Options.normalize (o : Options) (text : String) : String :=
  String.ofList (o.indent.apply (o.lineEnding.apply text.toList))

/-! ## The parts of a file -/

/-- The directive that names the module of a file. -/
def moduleDirective (o : Options) (source : Path) : List String :=
  if o.amdModuleName then ["/// <amd-module name='" ++ o.moduleName source ++ "'/>"] else []

/-- The line above and below the banner. -/
def rule : String :=
  "// ------------------------------------------------------------------------------"

/-- The banner. -/
def banner : List String :=
  [rule, "// <auto-generated>",
    "//     This file was generated by tsdefgen v" ++ version,
    "// </auto-generated>", rule]

/-! ## The file -/

/-- A definition file. -/
structure Definitions where
  /-- The text. -/
  text : String
  /-- What is missing in it. -/
  warnings : List Missing
  deriving DecidableEq, Repr

/-- The lines above the body. -/
def headLines (o : Options) (source : Path) (imports : ImportBlock) : List String :=
  moduleDirective o source ++ banner ++ imports.lines

/-- The raw text of a definition file: the lines above the body, and the body with its extends
clauses. -/
def rawText (o : Options) (source : Path) (body : Body) (imports : ImportBlock) : String :=
  ((Writer.empty.addLines (headLines o source imports)).add
    (body.clauses.reconcile imports.unresolvedBases body.text)).text

/-- The definition file for the descriptors of a source file. `isFile` says which source files
exist. -/
def generate (o : Options) (types : List Descriptor) (source : Path) (isFile : Path → Bool) :
    Except Missing Definitions := do
  let body := Body.render o types
  let imports ← resolveImports o types body.names source isFile
  return ⟨o.normalize (rawText o source body imports), imports.warnings⟩

end Typings
