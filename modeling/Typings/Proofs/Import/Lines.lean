import Typings.Proofs.Body.Breaks
import Typings.Proofs.Command.Specifiers
import Typings.Proofs.Path.Names

/-!
# The lines above a body

Above the body of a file stand the directive for its module, the banner and a line for each
finding of the search for imports. They are put together from fixed texts, from names of the
descriptors and from paths. A path is taken apart and put together again on the way to a
specifier, but all of its parts are parts of its spelling.

## Main results

* `Path.oneLine_of_mem_components`, `Path.oneLine_parent?`, `Path.oneLine_relative` — paths.
* `oneLine_referenceImport`, `oneLine_baseImport`, `oneLine_message` — what the search finds.
* `MadeOfLines.allOneLine_headLines` — the lines above a body.
-/

namespace Typings

open Text

/-- Texts with a separator between them stand on one line just if each of them does. -/
theorem oneLine_intercalate {separator : String} (hseparator : OneLine separator.toList)
    {texts : List String} :
    OneLine (separator.intercalate texts).toList ↔ AllOneLine texts := by
  induction texts with
  | nil => exact ⟨fun _ => by simp [AllOneLine], fun _ => by simp [OneLine]⟩
  | cons text rest ih =>
      cases rest with
      | nil => simp [AllOneLine]
      | cons other others =>
          rw [String.intercalate_cons_cons, String.toList_append, String.toList_append,
            oneLine_append, oneLine_append, ih, and_iff_left hseparator, AllOneLine, AllOneLine,
            List.forall_mem_cons (a := text)]

/-! ## Paths -/

namespace Path

variable {p q : Path}

theorem oneLine_of_mem_segments (h : OneLine p.text.toList) {piece : String}
    (hpiece : piece ∈ p.segments) : OneLine piece.toList := by
  rw [← intercalate_segments p, oneLine_intercalate (by decide)] at h
  exact h piece hpiece

theorem oneLine_of_mem_components (h : OneLine p.text.toList) {c : Component}
    (hc : c ∈ p.components) : OneLine c.text.toList := by
  rw [components_eq_append_steps] at hc
  rcases List.mem_append.mp hc with hstart | hstep
  · cases hanchor : p.split.1 with
    | root =>
        rw [hanchor] at hstart
        rw [List.mem_singleton.mp hstart]
        decide
    | current =>
        rw [hanchor] at hstart
        rw [List.mem_singleton.mp hstart]
        decide
    | relative =>
        rw [hanchor] at hstart
        exact absurd hstart List.not_mem_nil
  · obtain ⟨piece, hpiece, hown⟩ := List.mem_filterMap.mp hstep
    rw [text_of_pieceComponent? hown]
    exact oneLine_of_mem_segments h hpiece

theorem oneLine_fileName? (h : OneLine p.text.toList) : OneLine (p.fileName?.getD "").toList := by
  cases hname : p.fileName? with
  | none => decide
  | some name =>
      have hlast := getLast?_steps_of_fileName?_eq hname
      refine oneLine_of_mem_components h (c := .name name) ?_
      rw [components_eq_append_steps]
      exact List.mem_append_right _ (List.mem_of_getLast? hlast)

theorem oneLine_fileStem? (h : OneLine p.text.toList) : OneLine (p.fileStem?.getD "").toList := by
  have hname := oneLine_fileName? h
  rw [fileStem?]
  cases hfile : p.fileName? with
  | none => decide
  | some name =>
      rw [hfile, Option.getD_some] at hname
      rw [Option.map_some, Option.getD_some]
      split
      · rename_i c stem behind hsplit
        have htext := append_of_splitLast hsplit
        rw [htext, oneLine_append] at hname
        rw [String.toList_ofList]
        exact hname.1
      · exact hname

theorem oneLine_join (hp : OneLine p.text.toList) (hq : OneLine q.text.toList) :
    OneLine (p.join q).text.toList :=
  ⟨notMem_text_join (by decide) hp.1 hq.1, notMem_text_join (by decide) hp.2 hq.2⟩

theorem oneLine_assemble (anchor : Anchor) {pieces : List String} (h : AllOneLine pieces) :
    OneLine (assemble anchor pieces).text.toList := by
  have hslash : OneLine "/".toList := by decide
  cases anchor with
  | root =>
      show OneLine ("/" ++ "/".intercalate pieces).toList
      exact hslash.append ((oneLine_intercalate hslash).mpr h)
  | current =>
      have hdot : OneLine ".".toList := by decide
      exact (oneLine_intercalate hslash).mpr (List.forall_mem_cons.mpr ⟨hdot, h⟩)
  | relative => exact (oneLine_intercalate hslash).mpr h

theorem split_subset_segments (p : Path) : p.split.2 ⊆ p.segments := by
  rw [split]
  split
  · rename_i rest hsegments
    rw [hsegments]
    split
    · exact List.nil_subset _
    · exact List.subset_cons_self _ _
  · rename_i rest hsegments
    rw [hsegments]
    exact List.subset_cons_self _ _
  · exact List.Subset.refl _

/-- The directory above is spelled by pieces of the path. -/
theorem oneLine_parent? (h : OneLine p.text.toList) (hq : p.parent? = some q) :
    OneLine q.text.toList := by
  have hpieces : AllOneLine p.split.2 := fun piece hpiece =>
    oneLine_of_mem_segments h (split_subset_segments p hpiece)
  cases hsplit : p.split with
  | mk anchor pieces =>
      rw [hsplit] at hpieces
      rw [parent?, hsplit] at hq
      cases hkept : dropEndWhile isIdle pieces with
      | nil =>
          simp only [hkept] at hq
          split at hq
          · cases hq
            decide
          · cases hq
      | cons step steps =>
          simp only [hkept] at hq
          cases hq
          refine oneLine_assemble _ fun piece hpiece => hpieces piece ?_
          have hfront := (Text.dropEndWhile_prefix isIdle _).subset hpiece
          refine (Text.dropEndWhile_prefix isIdle pieces).subset ?_
          rw [hkept]
          exact List.mem_of_mem_dropLast hfront

theorem oneLine_withFileName (h : OneLine p.text.toList) {name : String}
    (hname : OneLine name.toList) : OneLine (p.withFileName name).text.toList := by
  rw [withFileName]
  split
  · rename_i hparent
    exact oneLine_join (oneLine_parent? h hparent) hname
  · exact oneLine_join h hname

theorem oneLine_relative (h : OneLine q.text.toList) : OneLine (p.relative q).text.toList := by
  have hstep : ∀ c ∈ walk p q, OneLine c.text.toList := by
    intro c hc
    rcases mem_walk hc with rfl | hmem
    · decide
    · exact oneLine_of_mem_components h hmem
  have hwalk : OneLine (ofComponents (walk p q)).text.toList :=
    ⟨notMem_text_alongComponents (by decide) (fun c hc => (hstep c hc).1) (p := ⟨""⟩) (by decide),
      notMem_text_alongComponents (by decide) (fun c hc => (hstep c hc).2) (p := ⟨""⟩) (by decide)⟩
  rw [relative]
  split
  · decide
  · exact hwalk

end Path

/-! ## Imports -/

section Imports

variable {o : Options} {source file : Path}

theorem oneLine_sourceDirectory (h : OneLine source.text.toList) :
    OneLine (sourceDirectory source).text.toList := by
  rw [sourceDirectory]
  cases hparent : source.parent? with
  | none => decide
  | some directory => exact Path.oneLine_parent? h hparent

theorem oneLine_moduleStem (o : Options) (h : OneLine file.text.toList) :
    OneLine (o.moduleStem file).toList :=
  (Path.oneLine_fileName? h).mono fun _ hc => (stripExtension_spec _ _).1.subset hc

theorem oneLine_importSymbol (o : Options) (h : OneLine file.text.toList) :
    OneLine (o.importSymbol file).toList := by
  have hstem := oneLine_moduleStem o h
  rw [Options.importSymbol, withoutEnding]
  split
  · rename_i stem hsuffix
    rw [List.isSuffixOf?_eq_some_iff_append_eq] at hsuffix
    rw [← hsuffix, oneLine_append] at hstem
    rw [String.toList_ofList]
    exact hstem.1
  · exact hstem

theorem oneLine_moduleSpecifier (o : Options) (directory : Path) (h : OneLine file.text.toList) :
    OneLine (o.moduleSpecifier directory file).toList := by
  have hpath := Path.oneLine_relative (p := directory)
    (Path.oneLine_withFileName h (oneLine_moduleStem o h))
  have hslash : OneLine ['/'] := by decide
  have hstart : OneLine "./".toList := by decide
  have hspecifier : OneLine (String.ofList (Text.replace ['\\'] ['/']
      (directory.relative (file.withFileName (o.moduleStem file))).text.toList)).toList := by
    rw [String.toList_ofList]
    exact ⟨fun hm => (mem_replace (by decide) hm).elim hslash.1 hpath.1,
      fun hm => (mem_replace (by decide) hm).elim hslash.2 hpath.2⟩
  simp only [Options.moduleSpecifier]
  split
  · exact hspecifier
  · exact hstart.append hspecifier

theorem oneLine_line {symbol specifier : String} (hsymbol : OneLine symbol.toList)
    (hspecifier : OneLine specifier.toList) : OneLine (Import.line ⟨symbol, specifier⟩).toList := by
  have hstart : OneLine "import \x7b ".toList := by decide
  have hfrom : OneLine " \x7d from \"".toList := by decide
  have hend : OneLine "\";".toList := by decide
  rw [Import.line]
  exact (((hstart.append hsymbol).append hfrom).append hspecifier).append hend

theorem oneLine_referenceImport (h : OneLine file.text.toList) :
    OneLine (referenceImport o source file).line.toList := by
  have hsymbol : OneLine (o.typeName (o.importSymbol file)).toList :=
    oneLine_spelled _ (oneLine_importSymbol o h)
  rw [referenceImport]
  exact oneLine_line hsymbol (oneLine_moduleSpecifier o _ h)

theorem oneLine_baseImport (hsuffix : OneLine o.generatedSuffix.toList) {base : String}
    (hbase : OneLine base.toList) : OneLine (baseImport o base).line.toList := by
  have hsymbol : OneLine (o.typeName base).toList := oneLine_spelled _ hbase
  have hstart : OneLine "./".toList := by decide
  exact oneLine_line hsymbol ((hstart.append hbase).append hsuffix)

theorem oneLine_expectedBaseSource (hsource : OneLine source.text.toList)
    (hextension : OneLine o.sourceExtension.toList) {base : String} (hbase : OneLine base.toList) :
    OneLine (expectedBaseSource o source base).text.toList := by
  have hdot : OneLine ".".toList := by decide
  exact Path.oneLine_join (oneLine_sourceDirectory hsource)
    ((hbase.append hdot).append hextension)

end Imports

/-! ## What is missing -/

theorem oneLine_baseClass {base : String} {expected : Path} (hbase : OneLine base.toList)
    (hexpected : OneLine expected.text.toList) :
    OneLine (Missing.baseClass base expected).line.toList := by
  have hwarning : OneLine "// Warning: ".toList := by decide
  have hstart : OneLine "base class '".toList := by decide
  have hskipped :
      OneLine "' skipped because its expected source file does not exist: ".toList := by
    simp [OneLine]
  exact hwarning.append (((hstart.append hbase).append hskipped).append hexpected)

theorem oneLine_imports {names : List String} (h : AllOneLine names) :
    OneLine (Missing.imports names).line.toList := by
  have hwarning : OneLine "// Warning: ".toList := by decide
  have hstart : OneLine "needed imports missing: ".toList := by decide
  have hcomma : OneLine ", ".toList := by decide
  have hend : OneLine ". Make sure file names match the contained class/enum name.".toList := by
    simp [OneLine]
  exact hwarning.append ((hstart.append ((oneLine_intercalate hcomma).mpr h)).append hend)

/-! ## All that a file is made of -/

/-- The given texts of a declared type that are no documentation. -/
def Descriptor.strings (d : Descriptor) : List String :=
  d.undocumented.texts ++ (d.referenceNames ++ d.references.map Path.text)

/-- All that a file is made of stands on one line each, apart from documentation. -/
structure MadeOfLines (o : Options) (types : List Descriptor) (source : Path) : Prop where
  types : ∀ d ∈ types, AllOneLine d.strings
  source : OneLine source.text.toList
  sourceExtension : OneLine o.sourceExtension.toList
  generatedSuffix : OneLine o.generatedSuffix.toList

namespace MadeOfLines

variable {o : Options} {types : List Descriptor} {source : Path} (h : MadeOfLines o types source)

include h

theorem allOneLine_texts : ∀ d ∈ types, AllOneLine d.undocumented.texts :=
  fun d hd => (allOneLine_append.mp (h.types d hd)).1

theorem oneLine_referenced {name : String} (hname : name ∈ (Names.ofTypes o types).referenced) :
    OneLine name.toList := by
  obtain ⟨d, hd, given, hreferred, rfl⟩ := Names.mem_referenced_ofTypes.mp hname
  obtain ⟨-, hstrings⟩ := allOneLine_append.mp (h.types d hd)
  exact oneLine_spelled _ ((allOneLine_append.mp hstrings).1 given hreferred)

theorem oneLine_reference {file : Path} (hfile : file ∈ referencedFiles types) :
    OneLine file.text.toList := by
  obtain ⟨d, hd, hown⟩ := List.mem_flatMap.mp (mem_of_mem_distinctBy hfile)
  obtain ⟨-, hstrings⟩ := allOneLine_append.mp (h.types d hd)
  exact (allOneLine_append.mp hstrings).2 file.text (List.mem_map_of_mem hown)

theorem oneLine_extended {base : String} (hbase : base ∈ (Names.ofTypes o types).bases) :
    OneLine base.toList := by
  obtain ⟨d, hd, hown⟩ := Names.mem_bases_ofTypes.mp hbase
  exact Descriptor.oneLine_base (h.allOneLine_texts d hd) (Descriptor.base_of_extendedBase? hown)

theorem oneLine_baseFinding {isFile : Path → Bool} {available bases : List String}
    (hbases : AllOneLine bases) {finding : Finding}
    (hfinding : finding ∈ baseFindings o source isFile available bases) :
    OneLine finding.line.toList := by
  induction bases generalizing available with
  | nil => exact absurd hfinding List.not_mem_nil
  | cons base rest ih =>
      rw [baseFindings] at hfinding
      split at hfinding
      · exact ih hbases.tail hfinding
      · split at hfinding
        · rcases List.mem_cons.mp hfinding with rfl | hlater
          · exact oneLine_baseImport h.generatedSuffix hbases.head
          · exact ih hbases.tail hlater
        · rcases List.mem_cons.mp hfinding with rfl | hlater
          · exact oneLine_baseClass hbases.head
              (oneLine_expectedBaseSource h.source h.sourceExtension hbases.head)
          · exact ih hbases.tail hlater

/-- **What the search for imports finds** is told in lines. -/
theorem oneLine_finding {isFile : Path → Bool} {finding : Finding}
    (hfinding : finding ∈ findings o (Names.ofTypes o types) source isFile types) :
    OneLine finding.line.toList := by
  rw [findings] at hfinding
  split at hfinding
  · exact absurd hfinding List.not_mem_nil
  · rcases List.mem_append.mp hfinding with hvisited | hleft
    · rcases List.mem_append.mp hvisited with hfile | hbase
      · obtain ⟨i, hi, rfl⟩ := List.mem_map.mp hfile
        have hfound := List.mem_of_mem_filter (mem_of_mem_distinctBy hi)
        obtain ⟨file, hreferenced, rfl⟩ := List.mem_map.mp hfound
        exact oneLine_referenceImport (h.oneLine_reference hreferenced)
      · exact h.oneLine_baseFinding (fun base hbase => h.oneLine_extended hbase) hbase
    · rw [nameFindings] at hleft
      split at hleft
      · exact absurd hleft List.not_mem_nil
      · rw [List.mem_singleton.mp hleft]
        refine oneLine_imports fun name hname => ?_
        exact h.oneLine_referenced (mem_neededNames.mp (List.mem_of_mem_filter hname)).1

/-- **The lines above a body** are lines. -/
theorem allOneLine_headLines {isFile : Path → Bool} {imports : ImportBlock}
    (himports : resolveImports o types (Names.ofTypes o types) source isFile = .ok imports) :
    AllOneLine (headLines o source imports) := by
  have hbanner : AllOneLine banner := by simp [AllOneLine, OneLine, banner, rule, version]
  have hdirective : AllOneLine (moduleDirective o source) := by
    rw [moduleDirective]
    split
    · have hstart : OneLine "/// <amd-module name='".toList := by decide
      have hend : OneLine "'/>".toList := by decide
      intro line hline
      rw [List.mem_singleton.mp hline]
      have hname : OneLine (o.moduleName source).toList :=
        (Path.oneLine_fileStem? h.source).append h.generatedSuffix
      exact (hstart.append hname).append hend
    · exact fun line hline => absurd hline List.not_mem_nil
  have hlines : AllOneLine imports.lines := by
    rw [eq_ofFindings_of_ok himports]
    intro line hline
    obtain ⟨finding, hfinding, rfl⟩ := List.mem_map.mp hline
    exact h.oneLine_finding hfinding
  exact allOneLine_append.mpr ⟨allOneLine_append.mpr ⟨hdirective, hbanner⟩, hlines⟩

end MadeOfLines

end Typings
