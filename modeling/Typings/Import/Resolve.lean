import Typings.Body
import Typings.Import.Missing
import Typings.Import.Specifier
import Typings.Path.Set

/-!
# Finding imports

A file must import every type that its members refer to and every base that its types
extend, unless it declares them itself. Types are looked for among the files that the
descriptors refer to. The source of a base must stand beside the source file.

The search visits the files first, then the bases, and at last looks for the names that are
still not available. Something missing is told in the block, or ends the search, as the
policy for missing references says.

## Main definitions

* `ImportBlock` — the lines above the body and what is missing.
* `Search`, `Search.visitReference`, `Search.visitBase`, `Search.finish` — the search.
* `resolveImports` — the block for a body, or the first thing missing.
-/

namespace Typings

/-! ## The import block -/

/-- What stands above the body because of imports. -/
structure ImportBlock where
  /-- Import statements and comments on what is missing. -/
  lines : List String
  /-- The bases that are missing, so that no clause may name them. -/
  unresolvedBases : List String
  /-- What is missing. -/
  warnings : List Missing
  deriving DecidableEq, Repr

/-- The comment that tells about something missing. -/
def Missing.line (what : Missing) : String := "// Warning: " ++ what.message

namespace ImportBlock

/-- The block without lines. -/
def empty : ImportBlock := ⟨[], [], []⟩

/-- Add an import statement. -/
def addImport (block : ImportBlock) (what : Import) : ImportBlock :=
  { block with lines := block.lines ++ [what.line] }

/-- Tell that something is missing, unless nothing may be. -/
def report (block : ImportBlock) (policy : MissingPolicy) (what : Missing) :
    Except Missing ImportBlock :=
  match policy with
  | .fail => .error what
  | .warn => .ok { block with
      lines := block.lines ++ [what.line]
      warnings := block.warnings ++ [what] }

/-- Leave out the clauses that name a base. -/
def dropBase (block : ImportBlock) (base : String) : ImportBlock :=
  { block with unresolvedBases := block.unresolvedBases ++ [base] }

end ImportBlock

/-! ## The search -/

/-- How far the search has come. -/
structure Search where
  /-- The block so far. -/
  block : ImportBlock
  /-- The names that are declared or imported. -/
  available : List String

/-- Import a symbol. -/
def Search.take (s : Search) (what : Import) : Search :=
  ⟨s.block.addImport what, s.available ++ [what.symbol]⟩

/-- The search before its first step: what is declared is available. -/
def Search.start (names : Names) : Search := ⟨.empty, names.declared.toList⟩

section Search

variable (o : Options) (names : Names) (source : Path) (isFile : Path → Bool)

/-- The names that are referred to and not declared. -/
def neededNames : List String := names.referenced.toList.filter (· ∉ names.declared)

/-- The directory of a source file. -/
def sourceDirectory : Path := source.parent?.getD ⟨""⟩

/-- The import of what a file stands for. -/
def referenceImport (file : Path) : Import :=
  ⟨o.typeName (o.importSymbol file), o.moduleSpecifier (sourceDirectory source) file⟩

/-- Visit a file that the descriptors refer to. It is imported if it stands for a needed name
that is not available yet. -/
def Search.visitReference (s : Search) (file : Path) : Search :=
  let found := referenceImport o source file
  if found.symbol ∈ neededNames names ∧ found.symbol ∉ s.available then s.take found else s

/-- Where the source file of a base is expected: beside the source of the type. -/
def expectedBaseSource (base : String) : Path :=
  (sourceDirectory source).join ⟨base ++ "." ++ o.sourceExtension⟩

/-- The import of a base from the file that is generated from its source. -/
def baseImport (base : String) : Import :=
  ⟨o.typeName base, "./" ++ base ++ o.generatedSuffix⟩

/-- Visit a base. It is imported if its name is not available and its source file exists, and
a base without source file is missing. -/
def Search.visitBase (s : Search) (base : String) : Except Missing Search :=
  if o.typeName base ∈ s.available then return s
  else if isFile (expectedBaseSource o source base) then return s.take (baseImport o base)
  else do
    let what := Missing.baseClass base (expectedBaseSource o source base)
    let block ← s.block.report o.missingReferences what
    return { s with block := block.dropBase base }

/-- End the search: the needed names that are not available are missing together. -/
def Search.finish (s : Search) : Except Missing ImportBlock :=
  match (neededNames names).filter (· ∉ s.available) with
  | [] => return s.block
  | absent => s.block.report o.missingReferences (.imports absent)

end Search

/-- The files that some descriptors refer to, each place once. -/
def referencedFiles (types : List Descriptor) : List Path :=
  Path.distinct (types.flatMap (·.references))

/-- The block for a body, or, if nothing may be missing, the first thing that is. Module
declarations import nothing. -/
def resolveImports (o : Options) (types : List Descriptor) (names : Names) (source : Path)
    (isFile : Path → Bool) : Except Missing ImportBlock :=
  if o.declareModule then return .empty
  else do
    let visited := (referencedFiles types).foldl (Search.visitReference o names source) (.start names)
    let searched ← names.bases.toList.foldlM (Search.visitBase o source isFile) visited
    searched.finish o names

end Typings
