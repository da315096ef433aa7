import Typings.Command.Generate
import Typings.Proofs.FileTree.Destination
import Typings.Proofs.Path.Resolution

/-!
# Where definition files go

A definition file goes into the output directory, or beside its source if there is none. Its name
ends with the extension of definition files whatever the options are, so it can take the place of
a source file only if that has such a name.

## Main results

* `directory_outputPath` — beside its source.
* `fileName?_of_components_outputPath` — the name of a definition file.
-/

namespace Typings

open Typings.Path

variable {o : Options} {source : Path}

/-! ## Beside the source -/

theorem notMem_fileStem? (source : Path) : '/' ∉ (source.fileStem?.getD "").toList := by
  rw [fileStem?]
  cases hname : source.fileName? with
  | none => simp
  | some name =>
      have hlast := getLast?_steps_of_fileName?_eq hname
      have hown : IsName name := isStep_of_mem_steps (List.mem_of_getLast? hlast)
      simp only [Option.map_some, Option.getD_some]
      split
      · rename_i c stem extension hsplit
        have htext := Text.append_of_splitLast hsplit
        have hwhole := hown.whole
        rw [htext] at hwhole
        rw [String.toList_ofList]
        exact fun hslash => hwhole (List.mem_append_left _ hslash)
      · exact hown.whole

/-- The extension of definition files ends with a letter and holds no separator. -/
theorem outputExtension_spec (o : Options) :
    's' ∈ o.outputExtension.toList ∧ '/' ∉ o.outputExtension.toList := by
  rw [Options.outputExtension]
  split <;> decide

theorem isName_outputFileName (source : Path)
    (hsuffix : '/' ∉ o.generatedSuffix.toList) : IsName (o.outputFileName source) := by
  obtain ⟨hletter, hwhole⟩ := outputExtension_spec o
  have htext : (o.outputFileName source).toList = (source.fileStem?.getD "").toList
      ++ (o.generatedSuffix.toList ++ o.outputExtension.toList) := by
    simp [Options.outputFileName, Options.moduleName]
  refine isName_of_mem (c := 's') ?_ (by decide) ?_
  · simp [htext, hletter]
  · rw [htext, List.mem_append, List.mem_append, not_or, not_or]
    exact ⟨notMem_fileStem? source, hsuffix, hwhole⟩

/-- Without an output directory a definition file goes into the directory of its source. -/
theorem directory_outputPath (hsource : source.isAbsolute = true)
    (hlast : source.steps.getLast? ≠ some .parent) (hsuffix : '/' ∉ o.generatedSuffix.toList) :
    (outputPath o none source).directory.components = source.directory.components := by
  obtain ⟨habsolute, hsteps⟩ :=
    steps_withFileName hsource hlast (isName_outputFileName source hsuffix)
  have hpath : outputPath o none source = source.withFileName (o.outputFileName source) := rfl
  rw [hpath, components_of_isAbsolute (isAbsolute_directory habsolute),
    components_of_isAbsolute (isAbsolute_directory hsource), steps_directory habsolute, hsteps,
    steps_directory hsource, List.dropLast_concat]

/-! ## The name of a definition file -/

/-- The last piece between separators keeps an end without separators. -/
theorem exists_splitOn_append {sep : Char} (front : List Char) {behind : List Char}
    (h : sep ∉ behind) :
    ∃ before last, (front ++ behind).splitOn sep = before ++ [last ++ behind] := by
  induction front with
  | nil => exact ⟨[], [], List.splitOn_eq_singleton h⟩
  | cons c rest ih =>
      obtain ⟨before, last, hsplit⟩ := ih
      rw [List.cons_append, List.splitOn_cons_eq_if_modifyHead, hsplit]
      split
      · exact ⟨[] :: before, last, rfl⟩
      · cases before with
        | nil => exact ⟨[], c :: last, rfl⟩
        | cons first others => exact ⟨(c :: first) :: others, last, rfl⟩

/-- A path whose spelling ends with some characters, not all dots and without separators, ends
with a name that ends with them. -/
theorem exists_fileName?_of_suffix {p : Path} {front behind : List Char}
    (htext : p.text.toList = front ++ behind) {c : Char} (hmem : c ∈ behind) (hc : c ≠ '.')
    (hwhole : '/' ∉ behind) : ∃ name, p.fileName? = some name ∧ behind <:+ name.toList := by
  obtain ⟨before, last, hsplit⟩ := exists_splitOn_append front hwhole
  have hsegments : p.segments = before.map String.ofList ++ [String.ofList (last ++ behind)] := by
    rw [segments, htext, hsplit, List.map_append]
    rfl
  have hname : IsName (String.ofList (last ++ behind)) := by
    refine isName_of_mem (c := c) (by simp [hmem]) hc (notMem_of_mem_segments (p := p) ?_)
    simp [hsegments]
  refine ⟨String.ofList (last ++ behind), fileName?_of_getLast?_steps ?_, by simp⟩
  rw [steps, hsegments, List.filterMap_append,
    List.filterMap_cons_some (pieceComponent?_of_isName hname), List.filterMap_nil]
  exact List.getLast?_concat

/-- Joining keeps the spelling of what comes last. -/
theorem exists_text_join (p q : Path) :
    ∃ front, (p.join q).text.toList = front ++ q.text.toList := by
  rw [join]
  split
  · exact ⟨[], rfl⟩
  · split
    · exact ⟨p.text.toList, by simp⟩
    · exact ⟨p.text.toList ++ ['/'], by simp⟩

theorem exists_text_outputPath (o : Options) (outDir : Option Path) (source : Path) :
    ∃ front, (outputPath o outDir source).text.toList
      = front ++ (o.outputFileName source).toList := by
  cases outDir with
  | some dir => exact exists_text_join dir ⟨o.outputFileName source⟩
  | none =>
      show ∃ front, (source.withFileName (o.outputFileName source)).text.toList = _
      rw [withFileName]
      split
      · exact exists_text_join _ ⟨o.outputFileName source⟩
      · exact exists_text_join _ ⟨o.outputFileName source⟩

/-- **What a definition file is called.** A path to the same place as a definition file ends with
a name that ends with the extension of definition files, and with the suffix of generated files in
front of it if that holds no separator. -/
theorem fileName?_of_components_outputPath {outDir : Option Path} {other : Path}
    (h : other.components = (outputPath o outDir source).components) :
    ∃ name, other.fileName? = some name ∧ o.outputExtension.toList <:+ name.toList ∧
      ('/' ∉ o.generatedSuffix.toList →
        o.generatedSuffix.toList ++ o.outputExtension.toList <:+ name.toList) := by
  obtain ⟨front, hfront⟩ := exists_text_outputPath o outDir source
  obtain ⟨hletter, hwhole⟩ := outputExtension_spec o
  have hname : (o.outputFileName source).toList = (source.fileStem?.getD "").toList
      ++ (o.generatedSuffix.toList ++ o.outputExtension.toList) := by
    simp [Options.outputFileName, Options.moduleName]
  have hsame : other.fileName? = (outputPath o outDir source).fileName? := by
    rw [fileName?, fileName?, h]
  have htext : (outputPath o outDir source).text.toList
      = (front ++ (source.fileStem?.getD "").toList ++ o.generatedSuffix.toList)
        ++ o.outputExtension.toList := by
    rw [hfront, hname]
    simp
  obtain ⟨name, hlast, hextension⟩ :=
    exists_fileName?_of_suffix htext hletter (by decide) hwhole
  refine ⟨name, hsame.trans hlast, hextension, fun hsuffix => ?_⟩
  have htext' : (outputPath o outDir source).text.toList
      = (front ++ (source.fileStem?.getD "").toList)
        ++ (o.generatedSuffix.toList ++ o.outputExtension.toList) := by
    rw [hfront, hname]
    simp
  obtain ⟨name', hlast', hending⟩ := exists_fileName?_of_suffix htext'
    (List.mem_append_right _ hletter) (by decide)
    (fun hslash => (List.mem_append.mp hslash).elim hsuffix hwhole)
  have hnames : name' = name := Option.some.inj (hlast'.symm.trans hlast)
  rwa [hnames] at hending

/-! ## The place of a definition file -/

section

open FileTree

variable {cwd : Place}

/-- The place that a path leads to is found by its steps. -/
theorem destination_eq_foldl_steps (p : Path) :
    destination cwd p = p.steps.foldl (fun place c => enter place c.text) (start cwd p) := by
  rw [destination, steps]
  generalize start cwd p = place
  induction p.segments generalizing place with
  | nil => rfl
  | cons piece rest ih =>
      rw [List.foldl_cons, ih]
      by_cases hidle : isIdle piece = true
      · have hnothing : pieceComponent? piece = none := by rw [pieceComponent?, if_pos hidle]
        rw [List.filterMap_cons_none hnothing, enter, if_pos hidle]
      · by_cases hup : piece = ".."
        · have hparent : pieceComponent? piece = some .parent := by
            rw [pieceComponent?, if_neg hidle, if_pos hup]
          rw [List.filterMap_cons_some hparent, List.foldl_cons, hup]
          rfl
        · have hname : pieceComponent? piece = some (.name piece) := by
            rw [pieceComponent?, if_neg hidle, if_neg hup]
          rw [List.filterMap_cons_some hname, List.foldl_cons]
          rfl

theorem enter_of_isName {name : String} (h : IsName name) (place : Place) :
    enter place name = place ++ [name] := by
  rw [enter, h.meant, if_neg Bool.false_ne_true, if_neg h.proper]

/-- A path that ends with a name leads to a place with that name. -/
theorem getLast?_destination {p : Path} {name : String} (h : p.fileName? = some name) :
    (destination cwd p).getLast? = some name := by
  have hlast := getLast?_steps_of_fileName?_eq h
  have hown : IsName name := isStep_of_mem_steps (List.mem_of_getLast? hlast)
  obtain ⟨front, hfront⟩ := List.getLast?_eq_some_iff.mp hlast
  rw [destination_eq_foldl_steps, hfront, List.foldl_append]
  show (enter _ name).getLast? = _
  rw [enter_of_isName hown, List.getLast?_concat]

theorem start_join {p q : Path} (hq : q.isAbsolute = false) :
    start cwd (p.join q) = start cwd p := by
  have habsolute : (p.join q).isAbsolute = p.isAbsolute := by
    by_cases hempty : p.text = ""
    · have hjoin : p.join q = q := by
        rw [join, hq, if_neg Bool.false_ne_true, if_pos (by simp [hempty]), hempty,
          String.empty_append]
      have hp : p.isAbsolute = false := by rw [isAbsolute, hempty]; rfl
      rw [hjoin, hq, hp]
    · rw [isAbsolute, isAbsolute, (head?_text_join hempty hq).1]
  rw [start, start, habsolute]

/-- A name in a directory stands in the place of the directory. -/
theorem destination_join_name (p : Path) {name : String} (h : IsName name) :
    destination cwd (p.join ⟨name⟩) = destination cwd p ++ [name] := by
  have hstep : Component.IsStep (.name name) := h
  have hrelative : isAbsolute ⟨name⟩ = false := isAbsolute_of_isStep hstep
  have hown : steps ⟨name⟩ = [.name name] := steps_of_isStep hstep
  rw [destination_eq_foldl_steps, destination_eq_foldl_steps, start_join hrelative,
    steps_join hrelative, hown, List.foldl_append]
  exact enter_of_isName h _

/-- **The place of a definition file**: its own name, in the output directory or in the directory
of the source. -/
theorem destination_outputPath (hsource : source.isAbsolute = true)
    (hlast : source.steps.getLast? ≠ some .parent) (hsuffix : '/' ∉ o.generatedSuffix.toList)
    (outDir : Option Path) :
    destination cwd (outputPath o outDir source)
      = destination cwd (outDir.getD source.directory) ++ [o.outputFileName source] := by
  have hname := isName_outputFileName source hsuffix
  cases outDir with
  | some dir => exact destination_join_name dir hname
  | none =>
      obtain ⟨habsolute, hsteps⟩ := steps_withFileName hsource hlast hname
      have hpath : outputPath o none source = source.withFileName (o.outputFileName source) := rfl
      have hstart : start cwd (source.withFileName (o.outputFileName source))
          = start cwd source.directory := by
        rw [start, start, habsolute, isAbsolute_directory hsource]
      rw [hpath, destination_eq_foldl_steps, hsteps, hstart, List.foldl_append, Option.getD_none,
        destination_eq_foldl_steps, steps_directory hsource]
      exact enter_of_isName hname _

theorem outputFileName_inj {source source' : Path} :
    o.outputFileName source = o.outputFileName source' ↔
      source.fileStem?.getD "" = source'.fileStem?.getD "" := by
  simp only [Options.outputFileName, Options.moduleName, ← String.toList_inj, String.toList_append,
    List.append_left_inj]

/-- **Two definition files have the same place** if and only if their sources have the same stem
and, without an output directory, the same directory. -/
theorem destination_outputPath_eq_iff {source source' : Path} {outDir : Option Path}
    (hsource : source.isAbsolute = true ∧ source.steps.getLast? ≠ some .parent)
    (hsource' : source'.isAbsolute = true ∧ source'.steps.getLast? ≠ some .parent)
    (hsuffix : '/' ∉ o.generatedSuffix.toList) :
    destination cwd (outputPath o outDir source) = destination cwd (outputPath o outDir source') ↔
      source.fileStem?.getD "" = source'.fileStem?.getD "" ∧
        destination cwd (outDir.getD source.directory)
          = destination cwd (outDir.getD source'.directory) := by
  rw [destination_outputPath hsource.1 hsource.2 hsuffix,
    destination_outputPath hsource'.1 hsource'.2 hsuffix, ← outputFileName_inj (o := o)]
  constructor
  · intro h
    obtain ⟨hdirectory, hname⟩ := List.append_inj' h rfl
    exact ⟨List.singleton_inj.mp hname, hdirectory⟩
  · rintro ⟨hname, hdirectory⟩
    rw [hname, hdirectory]

end

end Typings
