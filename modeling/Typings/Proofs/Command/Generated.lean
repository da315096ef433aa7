import Typings.Proofs.Command.OutputPath
import Typings.Proofs.Import.Destination
import Typings.Proofs.Path.Names

/-!
# Generated files as imports

The name of a generated file is put together in one place and read in others: an import takes
the extension and the suffix away again to find the symbol, and only the extension to find the
specifier. The import of a base is not read off any file, since the file for it may not be
generated yet; its specifier is put together from the name of the base. All of them agree, for
every stem that does not make the name look like one of another kind: a leading dot, a backslash,
or `.d` in front of the extension of a module.

## Main definitions

* `Options.IsKept` — a stem that can be read off the name of its generated file.

## Main results

* `Options.stripExtension_output` — the extension of generated files is taken away again.
* `Options.importSymbol_outputPath`, `Options.moduleSpecifier_outputPath` — a generated file as
  an import.
* `generatedFile_import` — the import of a base is the import of the file that is generated from
  its source.
-/

namespace Typings

open Typings.Path

/-! ## Reading names -/

theorem Text.splitLast_append {sep : Char} (before : List Char) {behind : List Char}
    (h : sep ∉ behind) : Text.splitLast sep (before ++ sep :: behind) = some (before, behind) := by
  induction before with
  | nil =>
      rw [List.nil_append, Text.splitLast, Text.splitLast_eq_none_iff.mpr h]
      exact if_pos rfl
  | cons c rest ih => rw [List.cons_append, Text.splitLast, ih]

theorem properStem?_append {stem : List Char} (hne : stem ≠ []) (ending : List Char) :
    properStem? ending (stem ++ ending) = some stem := by
  have hsuffix : ending.isSuffixOf? (stem ++ ending) = some stem :=
    List.isSuffixOf?_eq_some_iff_append_eq.mpr rfl
  rw [properStem?, hsuffix, Option.filter_some, if_pos (by simpa using hne)]

theorem withoutEnding_append (ending text : String) :
    withoutEnding ending (text ++ ending) = text := by
  have hsuffix : ending.toList.isSuffixOf? (text ++ ending).toList = some text.toList := by
    rw [List.isSuffixOf?_eq_some_iff_append_eq, String.toList_append]
  rw [withoutEnding, hsuffix]
  exact String.ofList_toList

namespace Options

/-- A stem that can be read off the name of its generated file. -/
structure IsKept (o : Options) (stem : String) : Prop where
  /-- It is not empty. -/
  full : stem ≠ ""
  /-- It does not start with a dot. -/
  undotted : stem.toList.head? ≠ some '.'
  /-- It holds nothing that is taken for a separator. -/
  whole : '\\' ∉ stem.toList
  /-- The name of the module is not taken for a declaration file. -/
  plain : o.declareModule = false → ¬ ['.', 'd'] <:+ (stem ++ o.generatedSuffix).toList

instance (o : Options) (stem : String) : Decidable (o.IsKept stem) :=
  decidable_of_iff (stem ≠ "" ∧ stem.toList.head? ≠ some '.' ∧ '\\' ∉ stem.toList ∧
      (o.declareModule = false → ¬ ['.', 'd'] <:+ (stem ++ o.generatedSuffix).toList))
    ⟨fun h => ⟨h.1, h.2.1, h.2.2.1, h.2.2.2⟩, fun h => ⟨h.1, h.2, h.3, h.4⟩⟩

variable {o : Options}

/-- The extension of generated files is taken away again. In declaration files it is tried first;
elsewhere the shorter extension must not be part of a longer one. -/
theorem stripExtension_output (extension : String) {name : String} (hne : name ≠ "")
    (hplain : o.declareModule = false → ¬ ['.', 'd'] <:+ name.toList) :
    stripExtension extension (name ++ o.outputExtension) = name := by
  have hchars : name.toList ≠ [] := by simpa using hne
  have hfound : (moduleExtensions.findSome? fun e =>
      properStem? e.toList (name ++ o.outputExtension).toList) = some name.toList := by
    rw [String.toList_append, outputExtension, moduleExtensions, List.findSome?_cons]
    cases hmodule : o.declareModule with
    | true => rw [if_pos rfl, properStem?_append hchars]
    | false =>
        have hlonger : properStem? ".d.ts".toList (name.toList ++ ".ts".toList) = none := by
          rw [Option.eq_none_iff_forall_ne_some]
          intro stem hstem
          obtain ⟨htext, -⟩ := properStem?_eq_some hstem
          have hsplit : name.toList ++ ".ts".toList = (stem ++ ['.', 'd']) ++ ".ts".toList := by
            rw [htext, List.append_assoc]
            rfl
          exact hplain hmodule ⟨stem, (List.append_cancel_right hsplit).symm⟩
        rw [if_neg Bool.false_ne_true, hlonger]
        simp only [List.findSome?_cons, properStem?_append hchars]
  rw [stripExtension, hfound]
  exact String.ofList_toList

/-! ## A generated file -/

section

variable {source : Path} {stem : String}

theorem moduleName_eq (h : source.fileStem? = some stem) :
    o.moduleName source = stem ++ o.generatedSuffix := by
  rw [moduleName, h, Option.getD_some]

/-- A generated file lies beside its source. -/
theorem components_outputPath (hsuffix : '/' ∉ o.generatedSuffix.toList)
    (h : source.fileStem? = some stem) :
    ∃ dir, source.parent? = some dir ∧
      (outputPath o none source).components
        = dir.components ++ [.name (o.outputFileName source)] := by
  obtain ⟨name, hname, -⟩ := Option.map_eq_some_iff.mp h
  obtain ⟨dir, hdir, hcomponents⟩ := exists_parent?_of_fileName? hname
  exact ⟨dir, hdir, components_withFileName hcomponents (isName_outputFileName source hsuffix)⟩

/-- The module that a generated file stands for. -/
theorem moduleStem_outputPath (hsuffix : '/' ∉ o.generatedSuffix.toList)
    (h : source.fileStem? = some stem) (hkept : o.IsKept stem) :
    o.moduleStem (outputPath o none source) = stem ++ o.generatedSuffix := by
  obtain ⟨dir, -, hcomponents⟩ := components_outputPath hsuffix h
  have hne : stem ++ o.generatedSuffix ≠ "" := by
    intro hempty
    have hchars := congrArg String.toList hempty
    simp [hkept.full] at hchars
  rw [moduleStem, fileName?_of_components hcomponents, Option.getD_some, outputFileName,
    moduleName_eq h]
  exact stripExtension_output o.sourceExtension hne hkept.plain

/-- A generated file stands for the stem of its source. -/
theorem importSymbol_outputPath (hsuffix : '/' ∉ o.generatedSuffix.toList)
    (h : source.fileStem? = some stem) (hkept : o.IsKept stem) :
    o.importSymbol (outputPath o none source) = stem := by
  rw [importSymbol, moduleStem_outputPath hsuffix h hkept, withoutEnding_append]

/-- From its own directory a generated file is reached by the name of its module. -/
theorem moduleSpecifier_outputPath (hsuffix : '/' ∉ o.generatedSuffix.toList)
    (hslash : '\\' ∉ o.generatedSuffix.toList) (h : source.fileStem? = some stem)
    (hkept : o.IsKept stem) {dir fromDir : Path} (hdir : source.parent? = some dir)
    (hfrom : fromDir.components = dir.components) :
    o.moduleSpecifier fromDir (outputPath o none source) = "./" ++ o.moduleName source := by
  obtain ⟨dir', hdir', hcomponents⟩ := components_outputPath hsuffix h
  have hsame : dir' = dir := Option.some.inj (hdir'.symm.trans hdir)
  rw [hsame, ← hfrom] at hcomponents
  have hstem := moduleStem_outputPath hsuffix h hkept
  obtain ⟨c, rest, hcons⟩ : ∃ c rest, stem.toList = c :: rest :=
    List.exists_cons_of_ne_nil (by simpa using hkept.full)
  have hc : c ≠ '.' := by simpa [hcons] using hkept.undotted
  have hname : IsName (o.moduleName source) := by
    rw [moduleName_eq h]
    refine isName_of_mem (c := c) (by simp [hcons]) hc ?_
    have hwhole := notMem_fileStem? source
    rw [h, Option.getD_some] at hwhole
    rw [String.toList_append, List.mem_append, not_or]
    exact ⟨hwhole, hsuffix⟩
  have hbackslash : '\\' ∉ (o.moduleName source).toList := by
    rw [moduleName_eq h, String.toList_append, List.mem_append, not_or]
    exact ⟨hkept.whole, hslash⟩
  have htarget := components_withFileName hcomponents hname
  rw [moduleSpecifier, hstem, ← moduleName_eq h, relative_of_components hname htarget]
  simp only [replace_backslash_eq_self hbackslash, String.ofList_toList]
  rw [if_neg]
  rw [moduleName_eq h, String.toList_append, hcons]
  simpa using hc

end

end Options

/-! ## The import of a base -/

/-- The source of a base is a file in the directory of the importing source. -/
theorem expectedBaseSource_spec {o : Options} (importer : Path) {base : String}
    (hfull : base ≠ "") (hundotted : base.toList.head? ≠ some '.') (hwhole : '/' ∉ base.toList)
    (hdot : '.' ∉ o.sourceExtension.toList) (hslash : '/' ∉ o.sourceExtension.toList) :
    (expectedBaseSource o importer base).fileStem? = some base ∧
      ∃ dir, (expectedBaseSource o importer base).parent? = some dir ∧
        (sourceDirectory importer).components = dir.components := by
  obtain ⟨c, rest, hcons⟩ : ∃ c rest, base.toList = c :: rest :=
    List.exists_cons_of_ne_nil (by simpa using hfull)
  have hc : c ≠ '.' := by simpa [hcons] using hundotted
  have htext : (base ++ "." ++ o.sourceExtension).toList
      = base.toList ++ '.' :: o.sourceExtension.toList := by
    simp
  have hname : IsName (base ++ "." ++ o.sourceExtension) := by
    refine isName_of_mem (c := c) (by simp [hcons]) hc ?_
    rw [htext, List.mem_append, List.mem_cons, not_or, not_or]
    exact ⟨hwhole, by decide, hslash⟩
  have hcomponents : (expectedBaseSource o importer base).components
      = (sourceDirectory importer).components ++ [.name (base ++ "." ++ o.sourceExtension)] :=
    components_join_name _ hname
  have hfile := fileName?_of_components hcomponents
  constructor
  · rw [fileStem?, hfile, Option.map_some, htext, Text.splitLast_append base.toList hdot, hcons]
    simp only [← hcons, String.ofList_toList]
  · obtain ⟨dir, hdir, hsplit⟩ := exists_parent?_of_fileName? hfile
    exact ⟨dir, hdir, List.append_cancel_right (hcomponents.symm.trans hsplit)⟩

/-- **Generated files are imported as what they were generated from.** A generated file stands
for the stem of its source, and from its directory it is reached by the name of its module. So
the import of a base whose source lies beside the importing source is the one that a reference to
the file generated from that source gives, and the search goes on from both alike. -/
theorem generatedFile_import (o : Options) (hslash : '/' ∉ o.generatedSuffix.toList)
    (hbackslash : '\\' ∉ o.generatedSuffix.toList) :
    (∀ source stem, source.fileStem? = some stem → o.IsKept stem →
      o.importSymbol (outputPath o none source) = stem ∧
        ∃ dir, source.parent? = some dir ∧ ∀ fromDir, fromDir.components = dir.components →
          o.moduleSpecifier fromDir (outputPath o none source) = "./" ++ o.moduleName source) ∧
      ∀ importer base, o.IsKept base → '/' ∉ base.toList → '.' ∉ o.sourceExtension.toList →
        '/' ∉ o.sourceExtension.toList →
        referenceImport o importer (outputPath o none (expectedBaseSource o importer base))
            = baseImport o base ∧
          ∀ names isFile s, isFile (expectedBaseSource o importer base) = true →
            o.typeName base ∈ neededNames names →
            Search.visitBase o importer isFile s base
              = .ok (s.visitReference o names importer
                (outputPath o none (expectedBaseSource o importer base))) := by
  constructor
  · intro source stem hstem hkept
    obtain ⟨dir, hdir, -⟩ := Options.components_outputPath hslash hstem
    refine ⟨Options.importSymbol_outputPath hslash hstem hkept, dir, hdir, ?_⟩
    intro fromDir hfrom
    exact Options.moduleSpecifier_outputPath hslash hbackslash hstem hkept hdir hfrom
  · intro importer base hkept hwhole hdot hextension
    obtain ⟨hstem, dir, hdir, hfrom⟩ :=
      expectedBaseSource_spec importer hkept.full hkept.undotted hwhole hdot hextension
    have himport : referenceImport o importer
        (outputPath o none (expectedBaseSource o importer base)) = baseImport o base := by
      rw [referenceImport, baseImport, Options.importSymbol_outputPath hslash hstem hkept,
        Options.moduleSpecifier_outputPath hslash hbackslash hstem hkept hdir hfrom,
        Options.moduleName_eq hstem, String.append_assoc]
    refine ⟨himport, ?_⟩
    intro names isFile s hfile hneeded
    rw [Search.visitBase, Search.visitReference, himport, hfile]
    by_cases havailable : o.typeName base ∈ s.available
    · rw [if_pos havailable, if_neg (fun h => h.2 havailable)]
      rfl
    · rw [if_neg havailable, if_pos rfl, if_pos ⟨hneeded, havailable⟩]
      rfl

/-- A stem that holds dots and the suffix of generated files, in a path that starts at no root. -/
theorem generatedFile_import_dotted :
    ('/' ∉ Options.default.generatedSuffix.toList ∧ '\\' ∉ Options.default.generatedSuffix.toList) ∧
      Options.default.importSymbol
          (outputPath .default none ⟨"shop//models/./Order.generated.d.ts.cs/"⟩)
        = "Order.generated.d.ts" ∧
      Options.default.moduleSpecifier ⟨"shop/models"⟩
          (outputPath .default none ⟨"shop//models/./Order.generated.d.ts.cs/"⟩)
        = "./Order.generated.d.ts.generated" ∧
      referenceImport .default ⟨"shop/models/Cart.cs"⟩
          (outputPath .default none
            (expectedBaseSource .default ⟨"shop/models/Cart.cs"⟩ "Order.generated"))
        = baseImport .default "Order.generated" := by
  have hslash : '/' ∉ Options.default.generatedSuffix.toList := by decide +kernel
  have hbackslash : '\\' ∉ Options.default.generatedSuffix.toList := by decide +kernel
  obtain ⟨hfiles, hbases⟩ := generatedFile_import .default hslash hbackslash
  obtain ⟨hsymbol, dir, hdir, hspecifier⟩ :=
    hfiles ⟨"shop//models/./Order.generated.d.ts.cs/"⟩ "Order.generated.d.ts" (by decide +kernel)
      (by decide +kernel)
  have hparent : Path.parent? ⟨"shop//models/./Order.generated.d.ts.cs/"⟩
      = some ⟨"shop//models"⟩ := by
    decide +kernel
  rw [hparent, Option.some.injEq] at hdir
  subst hdir
  obtain ⟨himport, -⟩ := hbases ⟨"shop/models/Cart.cs"⟩ "Order.generated" (by decide +kernel)
    (by decide +kernel) (by decide +kernel) (by decide +kernel)
  have hmodule := hspecifier ⟨"shop/models"⟩ (by decide +kernel)
  exact ⟨⟨hslash, hbackslash⟩, hsymbol, hmodule.trans (by decide +kernel), himport⟩

end Typings
