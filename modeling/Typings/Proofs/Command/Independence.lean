import Typings.Proofs.Command.Batch
import Typings.Proofs.Command.Found
import Typings.Proofs.Command.Outputs
import Typings.Proofs.Descriptor.Grouping

/-!
# Each descriptor file by itself

A run reads descriptor files and looks for the sources of bases while it writes definition files
into the same tree. What is generated for a descriptor file does not depend on that. For a
definition file is called `….ts`, whatever the options are. No descriptor file is called so, and
neither is the source of a base, unless sources have just this extension. So what a run reads is
never what it wrote, and what it looks for is never what it made.

This is said of trees without symbolic links: through a link the source of a base may lead to a
definition file. And it is said of what is generated, not of whether that can be written, for a
directory on the way to one definition file may stand in the place of another one.

## Main definitions

* `IsApart` — a place where no definition file goes.
* `DescriptorFile.Direct` — a descriptor file that names its source and its bases plainly.

## Main results

* `Batch.grows_before` — a step starts in a tree that has nothing new where no definition file
  goes.
* `generated_eq` — what is generated from such a tree.
* `Batch.generated_independent` — each descriptor file by itself.
* `earlier_file_matters` — links, and places that are taken.
-/

namespace Typings

open FileTree Typings.Path

/-! ## Places apart -/

/-- The ending of the names of definition files. -/
def definitionEnding : String := ".ts"

/-- A place where no definition file goes, whatever the options are. -/
def IsApart (place : Place) : Prop :=
  ∀ name, place.getLast? = some name → ¬ definitionEnding.toList <:+ name.toList

theorem IsApart.ne_destination {cwd place : Place} (h : IsApart place) (o : Options)
    (outDir : Option Path) (source : Path) :
    place ≠ destination cwd (outputPath o outDir source) := by
  obtain ⟨name, hname, hextension, -⟩ := fileName?_of_components_outputPath
    (rfl : (outputPath o outDir source).components = (outputPath o outDir source).components)
  rintro rfl
  refine h name (getLast?_destination hname) (List.IsSuffix.trans ?_ hextension)
  rw [Options.outputExtension]
  split <;> decide

/-- A descriptor file that is found in a directory stands apart. -/
theorem isApart_of_mem_descriptorFiles {cwd : Place} {t : FileTree} {input : Path}
    (hdirectory : t.isFile cwd input = false) {found : Found}
    (h : found ∈ t.descriptorFiles cwd input) : IsApart (destination cwd found.path) := by
  obtain ⟨name, hname, hending⟩ := exists_fileName?_of_mem_descriptorFiles hdirectory h
  intro name' hname' hts
  rw [getLast?_destination hname] at hname'
  cases hname'
  have hletter : name.toList.getLast? = some 'n' := getLast?_of_suffix hending (by decide)
  rw [getLast?_of_suffix hts (by decide)] at hletter
  cases hletter

/-! ## Steps -/

section

variable {cwd : Place} {o : Options} {outDir : Option Path} {t : FileTree}

/-- A delivery adds no file but the one that is delivered. -/
theorem grows_deliver (path : Path) (text : String) (t : FileTree) :
    Grows (· ≠ destination cwd path) t (deliver (host cwd) path text t).2 := by
  have hprepared (result : Except FileError Unit) {made : FileTree}
      (hmade : Grows (fun _ => True) t made) :
      Grows (· ≠ destination cwd path) t (delivered cwd path text (result, made)).2 := by
    have hgrows : Grows (· ≠ destination cwd path) t made := hmade.mono fun _ _ => trivial
    cases result with
    | error e => exact hgrows
    | ok done =>
        rw [delivered]
        cases hwritten : made.write cwd path text with
        | error e => exact hgrows
        | ok written => exact hgrows.trans (grows_write hwritten)
  rw [deliver_host]
  cases path.parent? with
  | none => exact hprepared _ (.refl _ t)
  | some dir => exact hprepared _ (grows_createDirectories t cwd dir)

/-- Handing over adds no file apart. -/
theorem grows_handOver (printing : Bool) (found : Found) (t : FileTree)
    (what : Except Failure (Path × Definitions)) :
    Grows IsApart t (handOver cwd printing o outDir found t what).2 := by
  match what with
  | .error failure => exact .refl _ t
  | .ok (source, definitions) =>
      rw [handOver]
      cases printing with
      | true => exact .refl _ t
      | false =>
          exact (grows_deliver (outputPath o outDir source) definitions.text t).mono
            fun place hplace => hplace.ne_destination o outDir source

/-- **A step starts in a tree** that has nothing new where no definition file goes. -/
theorem Batch.grows_before {arguments : List String} (b : Batch cwd arguments t) {step : FileStep}
    (h : step ∈ b.steps) : Grows IsApart t step.before := by
  refine (fileSteps_induction (.refl IsApart) .trans fun step hstep => ?_).1 step h
  have hafter := congrArg Prod.snd (report_after_of_mem hstep)
  rw [show step.after = _ from hafter]
  exact grows_handOver _ _ _ _

end

/-! ## Expected sources -/

/-- A descriptor file that names its source without steps up, and its bases without separators. -/
structure DescriptorFile.Direct (file : DescriptorFile) : Prop where
  source : .parent ∉ file.sourcePath.components
  bases : ∀ d ∈ file.types, ∀ base, d.base = some base → '/' ∉ base.toList

section

variable {o : Options} (hdot : '.' ∉ o.sourceExtension.toList)
  (hslash : '/' ∉ o.sourceExtension.toList) (hts : o.sourceExtension ≠ "ts")

include hdot hts

/-- The name of a source does not end as those of definition files do. -/
theorem not_suffix_sourceName (base : String) :
    ¬ definitionEnding.toList <:+ (base ++ "." ++ o.sourceExtension).toList := by
  rintro ⟨front, hfront⟩
  have hown : '.' :: o.sourceExtension.toList <:+ (base ++ "." ++ o.sourceExtension).toList :=
    ⟨base.toList, by simp⟩
  have hother : '.' :: "ts".toList <:+ (base ++ "." ++ o.sourceExtension).toList :=
    ⟨front, hfront⟩
  -- Either ending would hold the dot of the other one.
  rcases List.suffix_or_suffix_of_suffix hown hother with hshort | hshort
  · rcases List.suffix_cons_iff.mp hshort with hsame | hlonger
    · exact hts (String.toList_inj.mp (List.cons_inj_right '.' |>.mp hsame))
    · exact absurd (hlonger.subset List.mem_cons_self) (by decide)
  · rcases List.suffix_cons_iff.mp hshort with hsame | hlonger
    · exact hts (String.toList_inj.mp (List.cons_inj_right '.' |>.mp hsame.symm))
    · exact hdot (hlonger.subset List.mem_cons_self)

include hslash

/-- **The expected source of a base** is there in a later tree if and only if it was there
before. -/
theorem isFile_expectedSource {cwd : Place} {t t' : FileTree} (h : Grows IsApart t t')
    {file : DescriptorFile} (hdirect : file.Direct) {p : Path} (hp : p ∈ expectedSources o file) :
    t'.isFile cwd p = t.isFile cwd p := by
  obtain ⟨base, hbase, rfl⟩ := List.mem_map.mp hp
  obtain ⟨d, hd, hown⟩ := Names.mem_bases_ofTypes.mp hbase
  have hwhole : '/' ∉ (base ++ "." ++ o.sourceExtension).toList := by
    have hbaseWhole := hdirect.bases d hd base (Descriptor.base_of_extendedBase? hown)
    simp [hbaseWhole, hslash]
  have hlast : (expectedBaseSource o file.sourcePath base).segments.getLast?
      = some (base ++ "." ++ o.sourceExtension) := getLast?_segments_join _ hwhole
  by_cases hname : IsName (base ++ "." ++ o.sourceExtension)
  · have hsteps : (expectedBaseSource o file.sourcePath base).steps
        = (sourceDirectory file.sourcePath).steps
          ++ [.name (base ++ "." ++ o.sourceExtension)] := by
      rw [expectedBaseSource, steps_join (isAbsolute_of_notMem hwhole)]
      rw [show steps ⟨base ++ "." ++ o.sourceExtension⟩ = _ from
        steps_of_isStep (c := .name (base ++ "." ++ o.sourceExtension)) hname]
    refine h.isFile_eq (fun name hplace => ?_) fun hup => ?_
    · have hfile : (expectedBaseSource o file.sourcePath base).fileName?
          = some (base ++ "." ++ o.sourceExtension) :=
        fileName?_of_getLast?_steps (by rw [hsteps, List.getLast?_concat])
      rw [getLast?_destination hfile] at hplace
      cases hplace
      exact not_suffix_sourceName hdot hts base
    · have hparent := parent_mem_steps hup
      rw [hsteps, List.mem_append] at hparent
      rcases hparent with hdirectory | hown
      · refine hdirect.source ?_
        rw [components_eq_append_steps]
        refine List.mem_append_right _ ?_
        rw [sourceDirectory] at hdirectory
        cases hparent : file.sourcePath.parent? with
        | none => simp [hparent, steps, segments, pieceComponent?, isIdle] at hdirectory
        | some dir =>
            rw [hparent] at hdirectory
            exact mem_steps_of_parent? hparent hdirectory
      · simp at hown
  · -- What is no name leads to a directory, if it leads anywhere.
    have hdots : isIdle (base ++ "." ++ o.sourceExtension) = true ∨
        base ++ "." ++ o.sourceExtension = ".." := by
      by_contra hnot
      rw [not_or, Bool.not_eq_true] at hnot
      exact hname ⟨hwhole, hnot.1, hnot.2⟩
    rw [isFile_of_getLast? hlast hdots, isFile_of_getLast? hlast hdots]

/-! ## Runs -/

/-- **What is generated** from a later tree that reads the descriptor file alike. -/
theorem generated_eq {cwd : Place} {t t' : FileTree} (h : Grows IsApart t t') {found : Found}
    (hread : t'.read cwd found.path = t.read cwd found.path)
    (hdirect : ∀ text file, t.read cwd found.path = .ok text →
      DescriptorFile.parse? text = some file → file.Direct) :
    t'.generated cwd o found = t.generated cwd o found := by
  rw [generated, generated, hread]
  cases htext : t.read cwd found.path with
  | error e => rfl
  | ok text =>
      simp only
      cases hfile : DescriptorFile.parse? text with
      | none => rfl
      | some file =>
          simp only
          rw [generate_congr fun p hp =>
            isFile_expectedSource hdot hslash hts h (hdirect text file htext hfile) hp]

end

theorem Batch.read_before {cwd : Place} {arguments : List String} {t : FileTree}
    (b : Batch cwd arguments t) (hformed : t.WellFormed) {step : FileStep} (h : step ∈ b.steps) :
    step.before.read cwd step.found.path = t.read cwd step.found.path := by
  have hfound : step.found ∈ b.files := by
    rw [← map_found_fileSteps b.files t]
    exact List.mem_map.mpr ⟨step, h, rfl⟩
  cases hfile : t.isFile cwd (b.request.input cwd) with
  | true =>
      -- The only step starts in the tree of the run.
      rw [Batch.steps, Batch.files, descriptorFiles, if_pos hfile] at h
      rw [List.mem_singleton.mp h]
      rfl
  | false =>
      have hapart := isApart_of_mem_descriptorFiles hfile hfound
      rw [Batch.files, descriptorFiles, if_neg (by simp [hfile]), List.mem_mergeSort] at hfound
      obtain ⟨place, hplace, hown⟩ := List.mem_map.mp hfound
      rw [← hown] at hapart ⊢
      exact (b.grows_before h).toPersists.read_below hformed b.present (List.mem_filter.mp hplace).1
        hapart

/-- **Each descriptor file by itself.** What is generated for it is what would be generated from the
tree before the run, whatever becomes of the other files. -/
theorem Batch.generated_independent {cwd : Place} {arguments : List String} {t : FileTree}
    (b : Batch cwd arguments t) (hformed : t.WellFormed)
    (hdot : '.' ∉ b.config.emit.sourceExtension.toList)
    (hslash : '/' ∉ b.config.emit.sourceExtension.toList)
    (hts : b.config.emit.sourceExtension ≠ "ts")
    (hdirect : ∀ found ∈ b.files, ∀ text file, t.read cwd found.path = .ok text →
      DescriptorFile.parse? text = some file → file.Direct) :
    runIn cwd arguments t = (.generated b.printing (b.steps.map (·.report)), b.last) ∧
      b.steps.map (·.found) = b.files ∧
      ∀ step ∈ b.steps,
        step.before.generated cwd b.options step.found = t.generated cwd b.options step.found ∧
        (step.report, step.after) = handOver cwd b.printing b.options b.outDir step.found
          step.before (t.generated cwd b.options step.found) := by
  have hfiles : b.steps.map (·.found) = b.files := map_found_fileSteps b.files t
  refine ⟨b.run_eq, hfiles, fun step hstep => ?_⟩
  have hfound : step.found ∈ b.files := by
    rw [← hfiles]
    exact List.mem_map.mpr ⟨step, hstep, rfl⟩
  have hsame : step.before.generated cwd b.options step.found
      = t.generated cwd b.options step.found :=
    generated_eq (o := b.options) hdot hslash hts (b.grows_before hstep)
      (b.read_before hformed hstep) (hdirect step.found hfound)
  exact ⟨hsame, hsame ▸ report_after_of_mem hstep⟩

/-! ## A type and its base -/

/-- The text of a descriptor file for a type that extends another one. -/
def extendingText : String :=
  "\x7b\"sourcePath\":\"/B.cs\",\"types\":[\x7b\"name\":\"Second\",\"baseName\":\"A\"\x7d]\x7d"

/-- What it spells. -/
def extendingFile : DescriptorFile :=
  ⟨⟨"/B.cs"⟩, [(Descriptor.interface "Second").extending "A" none]⟩

theorem parse?_extendingText : DescriptorFile.parse? extendingText = some extendingFile := rfl

/-- A tree with a descriptor file, and one for a type that extends the type of the first one. -/
def extendingTree : FileTree :=
  .directory [
    ("A.types.json", .file (oneTypeText "/A.cs" "A")),
    ("B.types.json", .file extendingText)]

theorem ofArguments_generate : Request.ofArguments ["generate"] = .generate {} := by
  decide +kernel

/-- A run over both files. -/
def extendingBatch : Batch [] ["generate"] extendingTree where
  request := {}
  config := .default
  asked := ofArguments_generate
  configured := rfl
  present := by decide +kernel

theorem input_generate : GenerateArguments.input {} [] = ⟨"/."⟩ := by decide +kernel

theorem files_of_pair {text other : String}
    (b : Batch [] ["generate"]
      (.directory [("A.types.json", .file text), ("B.types.json", .file other)]))
    (hrequest : b.request = {}) : b.files = [firstFound, secondFound] := by
  rw [Batch.files, hrequest, input_generate]
  exact descriptorFiles_pair text other

theorem files_extendingBatch : extendingBatch.files = [firstFound, secondFound] :=
  files_of_pair extendingBatch rfl

theorem wellFormed_pair (text other : String) :
    (FileTree.directory [("A.types.json", .file text), ("B.types.json", .file other)]).WellFormed := by
  have hname : IsName "A.types.json" := isName_of_mem (c := 'A') (by decide) (by decide) (by decide)
  have hname' : IsName "B.types.json" :=
    isName_of_mem (c := 'B') (by decide) (by decide) (by decide)
  exact ⟨hname, by simp, trivial, hname', by simp, trivial, trivial⟩

/-- A file that is read is the one that its text spells. -/
theorem direct_of_read {t : FileTree} {cwd : Place} {path : Path} {own text : String}
    {spelled file : DescriptorFile} (hdirect : spelled.Direct) (hread : t.read cwd path = .ok own)
    (hparsed : DescriptorFile.parse? own = some spelled) (htext : t.read cwd path = .ok text)
    (hfile : DescriptorFile.parse? text = some file) : file.Direct := by
  cases Except.ok.inj (hread.symm.trans htext)
  cases Option.some.inj (hparsed.symm.trans hfile)
  exact hdirect

theorem direct_oneType {source : String} (h : .parent ∉ (Path.mk source).components)
    (name : String) : (oneType source name).Direct :=
  ⟨h, by simp [oneType, Descriptor.interface]⟩

/-- Both files name their source and their bases plainly. -/
theorem direct_extendingTree {found : Found} (hfound : found ∈ [firstFound, secondFound])
    {text : String} {file : DescriptorFile}
    (htext : extendingTree.read [] found.path = .ok text)
    (hfile : DescriptorFile.parse? text = some file) : file.Direct := by
  rcases List.mem_pair.mp hfound with rfl | rfl
  · exact direct_of_read (direct_oneType (by decide +kernel) "A") rfl rfl htext hfile
  · have hdirect : extendingFile.Direct :=
      ⟨by decide +kernel, by simp [extendingFile, Descriptor.extending]⟩
    exact direct_of_read hdirect rfl parse?_extendingText htext hfile

/-- The definition file for the base does not stand in for its source. -/
theorem generated_extendingTree :
    extendingTree.WellFormed ∧ extendingBatch.files = [firstFound, secondFound] ∧
      extendingBatch.steps.map (fun step => step.before.generated [] .default step.found)
        = [firstFound, secondFound].map (extendingTree.generated [] .default) := by
  have hdirect : ∀ found ∈ extendingBatch.files, ∀ text file,
      extendingTree.read [] found.path = .ok text →
        DescriptorFile.parse? text = some file → file.Direct := by
    rw [files_extendingBatch]
    exact fun found hfound text file => direct_extendingTree hfound
  obtain ⟨-, hfiles, hsteps⟩ := extendingBatch.generated_independent (wellFormed_pair _ _)
    (by decide) (by decide) (by decide) hdirect
  refine ⟨wellFormed_pair _ _, files_extendingBatch, ?_⟩
  rw [← files_extendingBatch, ← hfiles, List.map_map]
  exact List.map_congr_left fun step hstep => (hsteps step hstep).1

/-! ## Where an earlier file matters -/

/-- The same tree with a link from the source of the base to the definition file for it. -/
def linkedTree : LinkedTree := ⟨extendingTree, [(["A.cs"], ⟨"A.generated.ts"⟩)], by decide⟩

theorem findDescriptorFiles_linkedTree :
    findDescriptorFiles (LinkedTree.host []) ⟨"/."⟩ linkedTree
      = ([firstFound, secondFound], linkedTree) := by
  have hdirectory : (LinkedTree.host []).isFile ⟨"/."⟩ linkedTree = (false, linkedTree) := rfl
  have hplaces : linkedTree.placesBelow [] ⟨"/."⟩ = [["A.types.json"], ["B.types.json"]] := by
    decide +kernel
  have hbelow : (LinkedTree.host []).placesBelow ⟨"/."⟩ linkedTree
      = ([["A.types.json"], ["B.types.json"]], linkedTree) := congrArg (·, linkedTree) hplaces
  have hfound : (([] :: [["A.types.json"], ["B.types.json"]]).filter
      (isDescriptorPlace ⟨"/."⟩)).map (Found.below ⟨"/."⟩) = [firstFound, secondFound] := by
    decide +kernel
  have hsorted : [firstFound, secondFound].Pairwise
      fun a b => (!(b.path.precedes a.path)) = true := by decide +kernel
  rw [findDescriptorFiles, bind_apply, hdirectory]
  simp only [Bool.false_eq_true, if_false]
  rw [bind_apply, hbelow]
  simp only
  rw [hfound, List.mergeSort_of_pairwise hsorted]
  rfl

/-- A run over both files tells of nothing that is missing: the definition file for the base is
where its source leads. -/
theorem runIn_linkedTree :
    ∃ reports last, LinkedTree.runIn [] ["generate"] linkedTree = (.generated false reports, last) ∧
      reports.map (·.warnings) = [[], []] := by
  have hrun : LinkedTree.runIn [] ["generate"] linkedTree
      = generateAll (LinkedTree.host []) {} linkedTree := by
    rw [LinkedTree.runIn, ofArguments_generate]
    rfl
  have hconfig : loadConfig (LinkedTree.host []) linkedTree = (.ok .default, linkedTree) := rfl
  have hpresent : (LinkedTree.host []).exists? ⟨"/."⟩ linkedTree = (true, linkedTree) := rfl
  have hfiles := findDescriptorFiles_linkedTree
  rw [← input_generate] at hpresent hfiles
  rw [hrun, generateAll_of_found hconfig hpresent hfiles]
  exact ⟨_, _, rfl, by decide +kernel⟩

/-- A tree in which the way to one definition file leads over the place of the other one. -/
def crowdedTree : FileTree :=
  .directory [
    ("A.types.json", .file (oneTypeText "/B.generated.ts/A.cs" "First")),
    ("B.types.json", .file (oneTypeText "/B.cs" "Second"))]

/-- A run over both files. -/
def crowdedBatch : Batch [] ["generate"] crowdedTree where
  request := {}
  config := .default
  asked := ofArguments_generate
  configured := rfl
  present := by decide +kernel

theorem files_crowdedBatch : crowdedBatch.files = [firstFound, secondFound] :=
  files_of_pair crowdedBatch rfl

theorem direct_crowdedTree {found : Found} (hfound : found ∈ [firstFound, secondFound])
    {text : String} {file : DescriptorFile} (htext : crowdedTree.read [] found.path = .ok text)
    (hfile : DescriptorFile.parse? text = some file) : file.Direct := by
  rcases List.mem_pair.mp hfound with rfl | rfl
  · exact direct_of_read (direct_oneType (by decide +kernel) "First") rfl rfl htext hfile
  · exact direct_of_read (direct_oneType (by decide +kernel) "Second") rfl rfl htext hfile

/-- **Where an earlier file matters.** A link can lead from a source that is expected to the
definition file of an earlier descriptor file. And a directory that was made for an earlier file can
stand where a definition file should go. -/
theorem earlier_file_matters :
    (¬ ∀ (cwd : Place) (arguments : List String) (s s' : LinkedTree) (a : GenerateArguments)
        (config : Config) (files : List Found) (reports : List FileReport),
      s.tree.WellFormed → Request.ofArguments arguments = .generate a →
      loadConfig (LinkedTree.host cwd) s = (.ok config, s) →
      findDescriptorFiles (LinkedTree.host cwd) (a.input cwd) s = (files, s) →
      LinkedTree.runIn cwd arguments s = (.generated a.stdout reports, s') →
      '.' ∉ config.emit.sourceExtension.toList → '/' ∉ config.emit.sourceExtension.toList →
      config.emit.sourceExtension ≠ "ts" →
      (∀ found ∈ files, ∀ text file, s.read cwd found.path = .ok text →
        DescriptorFile.parse? text = some file → file.Direct) →
      reports.map (·.warnings) = files.map fun found => (generateFile (LinkedTree.host cwd) true
        (a.options config.emit) none found s).1.warnings) ∧
    ¬ ∀ (cwd : Place) (arguments : List String) (t : FileTree) (b : Batch cwd arguments t),
      t.WellFormed →
      '.' ∉ b.config.emit.sourceExtension.toList → '/' ∉ b.config.emit.sourceExtension.toList →
      b.config.emit.sourceExtension ≠ "ts" →
      (∀ found ∈ b.files, ∀ text file, t.read cwd found.path = .ok text →
        DescriptorFile.parse? text = some file → file.Direct) →
      b.reports = b.files.map fun found =>
        (generateFile (host cwd) b.printing b.options b.outDir found t).1 := by
  constructor
  · intro hall
    obtain ⟨reports, last, hrun, hwarnings⟩ := runIn_linkedTree
    have hfiles := findDescriptorFiles_linkedTree
    rw [← input_generate] at hfiles
    have hread (found : Found) (hfound : found ∈ [firstFound, secondFound]) :
        linkedTree.read [] found.path = extendingTree.read [] found.path := by
      rcases List.mem_pair.mp hfound with rfl | rfl <;> rfl
    have hsame := hall [] ["generate"] linkedTree last {} .default _ reports (wellFormed_pair _ _)
      ofArguments_generate rfl hfiles hrun (by decide) (by decide) (by decide)
      fun found hfound text file htext =>
        direct_extendingTree hfound ((hread found hfound).symm.trans htext)
    rw [hwarnings] at hsame
    -- By itself the second file waits for the source of its base.
    exact absurd hsame (by decide +kernel)
  · intro hall
    have hsame := hall [] ["generate"] crowdedTree crowdedBatch (wellFormed_pair _ _) (by decide)
      (by decide) (by decide) fun found hfound text file =>
        direct_crowdedTree (files_crowdedBatch ▸ hfound)
    rw [Batch.reports, Batch.steps, files_crowdedBatch] at hsame
    have hsucceeded := congrArg (List.map (·.succeeded)) hsame
    exact absurd hsucceeded (by decide +kernel)

end Typings
