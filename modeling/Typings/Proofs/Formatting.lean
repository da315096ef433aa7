import Typings.Proofs.Body.Qualification
import Typings.Proofs.Import.Settings

/-!
# The layout of a file is its last step

A file is written with tabs and with a carriage return and a line feed at the end of each line,
whatever the options say. The choice of line endings and of indentation is not looked at before
the raw text of the whole file is finished. So the file that these two options ask for is the
layout of the file without them, with the same things missing, and there is one if and only if
there is the other.

The search and the body each say on which options they depend (`Options.SearchAlike`,
`Options.WriteAlike`). The lines above the body add the directive.

## Main definitions

* `Options.raw` — the same options, with the layout of a raw text.
* `rawDefinitions` — a file before its layout.

## Main results

* `generate_eq_layout` — a file is the layout of the raw file.
* `rawDefinitions_congr` — the options that a raw file depends on.
* `generate_formatting` — the files with and without the choice of a layout.
-/

namespace Typings

/-- The same options, with the line endings and the indentation of a raw text. -/
def Options.raw (o : Options) : Options := { o with lineEnding := .crlf, indent := .tab }

/-- A file with the line endings and the indentation of the options. -/
def Definitions.layOut (o : Options) (file : Definitions) : Definitions :=
  ⟨o.normalize file.text, file.warnings⟩

/-- A file before its layout. -/
def rawDefinitions (o : Options) (types : List Descriptor) (source : Path)
    (isFile : Path → Bool) : Except Missing Definitions :=
  (resolveImports o types (Body.render o types).names source isFile).map fun imports =>
    ⟨rawText o source (Body.render o types) imports, imports.warnings⟩

/-- A file is the layout of its raw text. -/
theorem generate_eq_layout (o : Options) (types : List Descriptor) (source : Path)
    (isFile : Path → Bool) :
    generate o types source isFile
      = (rawDefinitions o types source isFile).map (Definitions.layOut o) := by
  show (resolveImports o types (Body.render o types).names source isFile).bind _ = _
  rw [rawDefinitions]
  cases resolveImports o types (Body.render o types).names source isFile <;> rfl

/-- Both options write the same raw file. -/
structure Options.RawAlike (o o' : Options) : Prop
    extends o.WriteAlike o', o.SearchAlike o' where
  policy : o.missingReferences = o'.missingReferences
  directive : o.amdModuleName = o'.amdModuleName

section

variable {o o' : Options}

theorem headLines_congr (h : o.RawAlike o') (source : Path) (imports : ImportBlock) :
    headLines o source imports = headLines o' source imports := by
  rw [headLines, headLines, moduleDirective, moduleDirective, Options.moduleName,
    Options.moduleName, h.directive, h.suffix]

/-- **A raw file does not depend on the layout**: options that differ in nothing else write the
same raw file. -/
theorem rawDefinitions_congr (h : o.RawAlike o') (types : List Descriptor) (source : Path)
    (isFile : Path → Bool) :
    rawDefinitions o types source isFile = rawDefinitions o' types source isFile := by
  have htext (body : Body) (imports : ImportBlock) :
      rawText o source body imports = rawText o' source body imports := by
    rw [rawText, rawText, headLines_congr h]
  rw [rawDefinitions, rawDefinitions, Body.render_congr h.toWriteAlike,
    resolveImports_congr h.toSearchAlike h.policy]
  simp only [htext]

end

section

variable (o : Options) (types : List Descriptor) (source : Path) (isFile : Path → Bool)

theorem Options.rawAlike_raw : o.raw.RawAlike o :=
  ⟨⟨⟨rfl, rfl, rfl⟩, rfl, rfl⟩, rfl, rfl, rfl, rfl⟩

/-- Without a choice of layout, a file is its raw text. -/
theorem generate_raw :
    generate o.raw types source isFile = rawDefinitions o types source isFile := by
  have hsame : Definitions.layOut o.raw = id := by
    funext file
    rw [Definitions.layOut, Options.normalize_eq_self rfl rfl]
    rfl
  rw [generate_eq_layout, rawDefinitions_congr o.rawAlike_raw, hsame]
  cases rawDefinitions o types source isFile <;> rfl

/-- **Formatting changes formatting only.** With the layout of the options and with the raw
layout, generating ends with the same thing missing, or it gives two files with the same
warnings, and the text of the first one is the layout of the text of the second one. -/
theorem generate_formatting :
    (∃ what, generate o types source isFile = .error what ∧
        generate o.raw types source isFile = .error what) ∨
      ∃ file plain, generate o types source isFile = .ok file ∧
        generate o.raw types source isFile = .ok plain ∧
        file.warnings = plain.warnings ∧ file.text = o.normalize plain.text := by
  rw [generate_raw, generate_eq_layout]
  cases rawDefinitions o types source isFile with
  | error what => exact .inl ⟨what, rfl, rfl⟩
  | ok plain => exact .inr ⟨plain.layOut o, plain, rfl, rfl, rfl, rfl⟩

end

end Typings
