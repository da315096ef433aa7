import Typings.Proofs.Command.OutputPath
import Typings.Proofs.Command.Trace

/-!
# The files that a run leaves behind

A run that succeeds with every descriptor file has written a definition file for each of them. The
name of such a file keeps little of its source: two sources may share it, and then the later file
takes the place of the earlier one. So at the end a place holds the last file that went there.

No definition file takes the place of a descriptor file in a directory, for their names end
differently. A source may be lost only if it is named like a definition file.

## Main definitions

* `Output` — the step of a run with what it writes.
* `GenerateRun.path`, `GenerateRun.place` — where an output goes.
* `GenerateRun.Writes` — an output is written by a step of a run.
* `GenerateRun.Leaves` — what a run leaves behind that writes an output in each step.

## Main results

* `GenerateRun.read_path` — the last output at a place stays.
* `outputs_remain` — what a run leaves behind that succeeds with every file.
* `output_overwritten` — a run that loses a file.
-/

namespace Typings

open FileTree Typings.Path

/-! ## Descriptor files -/

section

variable {cwd : Place} {t : FileTree}

/-- A path whose spelling ends with a name like those of descriptor files. -/
theorem exists_fileName?_of_descriptorEnding {p : Path} {front : List Char} {name : String}
    (hname : descriptorEnding.toList <:+ name.toList)
    (htext : p.text.toList = front ++ name.toList) :
    ∃ name, p.fileName? = some name ∧ descriptorEnding.toList <:+ name.toList := by
  obtain ⟨stem, hstem⟩ := hname
  rw [← hstem, ← List.append_assoc] at htext
  exact exists_fileName?_of_suffix htext (by decide : 's' ∈ _) (by decide) (by decide)

/-- The descriptor files that are found in a directory are called so. -/
theorem exists_fileName?_of_mem_descriptorFiles {input : Path}
    (hdirectory : t.isFile cwd input = false) {found : Found}
    (h : found ∈ t.descriptorFiles cwd input) :
    ∃ name, found.path.fileName? = some name ∧ descriptorEnding.toList <:+ name.toList := by
  rw [descriptorFiles, if_neg (by simp [hdirectory]), List.mem_mergeSort] at h
  obtain ⟨place, hplace, rfl⟩ := List.mem_map.mp h
  have hending := (List.mem_filter.mp hplace).2
  rw [isDescriptorPlace, isDescriptorName, List.isSuffixOf_iff_suffix] at hending
  show ∃ name, (input.along place).fileName? = some name ∧ _
  rcases List.eq_nil_or_concat place with rfl | ⟨front, last, rfl⟩
  · cases hname : input.fileName? with
    | some name =>
        rw [hname] at hending
        exact ⟨name, hname, hending⟩
    | none =>
        rw [hname] at hending
        exact exists_fileName?_of_descriptorEnding hending (List.nil_append _).symm
  · rw [List.concat_eq_append] at hending ⊢
    rw [List.getLast?_concat] at hending
    obtain ⟨before, hbefore⟩ := exists_text_join (input.along front) ⟨last⟩
    have halong : input.along (front ++ [last]) = (input.along front).join ⟨last⟩ := by
      rw [along, List.foldl_append]
      rfl
    rw [halong]
    exact exists_fileName?_of_descriptorEnding hending hbefore

theorem getLast?_of_suffix {α : Type} {end' text : List α} (h : end' <:+ text) (hne : end' ≠ []) :
    text.getLast? = end'.getLast? := by
  obtain ⟨front, rfl⟩ := h
  exact List.getLast?_append_of_ne_nil front hne

/-- No definition file has the place of a file with such a name. -/
theorem destination_outputPath_ne {o : Options} {outDir : Option Path} {source p : Path}
    {name : String} (hname : p.fileName? = some name)
    (hending : descriptorEnding.toList <:+ name.toList) :
    destination cwd (outputPath o outDir source) ≠ destination cwd p := by
  obtain ⟨own, hown, hextension, -⟩ := fileName?_of_components_outputPath
    (rfl : (outputPath o outDir source).components = (outputPath o outDir source).components)
  intro hsame
  have hplace : (destination cwd (outputPath o outDir source)).getLast? = some own :=
    getLast?_destination hown
  rw [hsame, getLast?_destination hname] at hplace
  cases hplace
  have hletter : name.toList.getLast? = some 'n' := getLast?_of_suffix hending (by decide)
  have hletter' : name.toList.getLast? = some 's' := by
    rw [Options.outputExtension] at hextension
    split at hextension
    · exact getLast?_of_suffix hextension (by decide)
    · exact getLast?_of_suffix hextension (by decide)
  rw [hletter] at hletter'
  cases hletter'

end

/-! ## Outputs -/

/-- A step of a run, with the descriptors that it reads and the definitions that it writes. -/
structure Output where
  /-- The step. -/
  step : FileStep
  /-- What it reads. -/
  file : DescriptorFile
  /-- What it writes. -/
  definitions : Definitions

namespace GenerateRun

variable {cwd : Place} {a : GenerateArguments} {t t' : FileTree} (run : GenerateRun cwd a t t')

/-- The path to an output. -/
def path (x : Output) : Path := outputPath run.options run.outDir x.file.sourcePath

/-- The place of an output. -/
def place (x : Output) : Place := destination cwd (run.path x)

/-- The directory that an output goes to. -/
def directory (x : Output) : Place :=
  destination cwd (run.outDir.getD x.file.sourcePath.directory)

/-- A step of the run writes an output for its descriptor file, with the content that this file had
before the run. -/
structure Writes (x : Output) : Prop where
  delivers : x.step.Delivers cwd run.options run.outDir x.file x.definitions
  own : ∀ text, t.read cwd x.step.found.path = .ok text → DescriptorFile.parse? text = some x.file

variable {run}

/-- A descriptor file is not changed by the steps in front of the one that reads it. -/
theorem read_before {front back : List FileStep} {step : FileStep}
    (hsteps : run.steps = front ++ step :: back) {text : String}
    (hread : t.read cwd step.found.path = .ok text) :
    step.before.read cwd step.found.path = .ok text := by
  have htrace := run.trace
  rw [hsteps] at htrace
  obtain ⟨hfront, -, -⟩ := htrace.split
  refine hfront.persists.read (fun other hother path hpath => ?_) hread
  have hfound := run.found
  rw [hsteps] at hfound
  cases hfile : t.isFile cwd ((host cwd).cwd.join ⟨a.path⟩) with
  | true =>
      -- There is no step in front of the only one.
      rw [descriptorFiles, if_pos hfile] at hfound
      have hlength := congrArg List.length hfound
      have hpos := List.length_pos_of_mem hother
      simp at hlength
      omega
  | false =>
      have hmem : step.found ∈ t.descriptorFiles cwd ((host cwd).cwd.join ⟨a.path⟩) := by
        rw [← hfound]
        simp
      obtain ⟨name, hname, hending⟩ := exists_fileName?_of_mem_descriptorFiles hfile hmem
      obtain ⟨file, definitions, -, rfl⟩ := (hfront.taken_of_mem hother).delivers hpath
      exact destination_outputPath_ne hname hending

/-- Each step that succeeds writes an output. -/
theorem exists_writes {step : FileStep} (hstep : step ∈ run.steps)
    (hsucceeded : step.report.succeeded = true) :
    ∃ x : Output, x.step = step ∧ run.Writes x := by
  have htaken := run.taken_of_mem hstep
  obtain ⟨path, hpath⟩ := htaken.exists_written hsucceeded
  obtain ⟨file, definitions, hdelivers, -⟩ := htaken.delivers hpath
  obtain ⟨front, back, hsteps⟩ := List.append_of_mem hstep
  refine ⟨⟨step, file, definitions⟩, rfl, hdelivers, fun text htext => ?_⟩
  obtain ⟨text', htext', hfile⟩ := hdelivers.parsed
  have hsame : text = text' := Except.ok.inj ((read_before hsteps htext).symm.trans htext')
  rw [hsame]
  exact hfile

/-- **The last output at a place stays.** -/
theorem read_path {outputs : List Output} (hsteps : outputs.map (·.step) = run.steps)
    (hwrites : ∀ x ∈ outputs, run.Writes x) {front back : List Output} {x : Output}
    (houtputs : outputs = front ++ x :: back) (hlast : ∀ y ∈ back, run.place y ≠ run.place x) :
    t'.read cwd (run.path x) = .ok x.definitions.text := by
  subst houtputs
  have htrace := run.trace
  rw [← hsteps, List.map_append, List.map_cons] at htrace
  obtain ⟨-, -, hback⟩ := htrace.split
  have hx := (hwrites x (by simp)).delivers
  refine hback.persists.read (fun other hother path hpath => ?_) hx.holds
  obtain ⟨y, hy, rfl⟩ := List.mem_map.mp hother
  have hwritten := (hwrites y (by simp [hy])).delivers.written
  rw [hpath] at hwritten
  cases hwritten
  exact hlast y hy

end GenerateRun

/-! ## What is left -/

/-- A list of outputs, one for each of some steps. -/
theorem exists_outputs {cwd : Place} {a : GenerateArguments} {t t' : FileTree}
    (run : GenerateRun cwd a t t') (hall : ∀ step ∈ run.steps, step.report.succeeded = true) :
    ∃ outputs : List Output, outputs.map (·.step) = run.steps ∧ ∀ x ∈ outputs, run.Writes x := by
  have hpart (steps : List FileStep) (hsub : ∀ step ∈ steps, step ∈ run.steps) :
      ∃ outputs : List Output, outputs.map (·.step) = steps ∧ ∀ x ∈ outputs, run.Writes x := by
    induction steps with
    | nil => exact ⟨[], rfl, by simp⟩
    | cons step rest ih =>
        have hstep : step ∈ run.steps := hsub step (by simp)
        obtain ⟨x, rfl, hx⟩ := run.exists_writes hstep (hall _ hstep)
        obtain ⟨outputs, hsteps, houtputs⟩ := ih fun other hother => hsub other (by simp [hother])
        refine ⟨x :: outputs, by rw [List.map_cons, hsteps], fun y hy => ?_⟩
        rcases List.mem_cons.mp hy with rfl | hrest
        · exact hx
        · exact houtputs y hrest
  exact hpart run.steps fun _ h => h

/-- The name of a source without its extension. -/
def Output.stem (x : Output) : String := x.file.sourcePath.fileStem?.getD ""

/-- What a run leaves behind that writes an output in each step. -/
structure GenerateRun.Leaves {cwd : Place} {a : GenerateArguments} {t t' : FileTree}
    (run : GenerateRun cwd a t t') (outputs : List Output) : Prop where
  /-- There is one output for each descriptor file. -/
  steps : outputs.map (·.step) = run.steps
  writes : ∀ x ∈ outputs, run.Writes x
  /-- The last output at a place is there at the end. -/
  last : ∀ front x back, outputs = front ++ x :: back →
    (∀ y ∈ back, run.place y ≠ run.place x) → t'.read cwd (run.path x) = .ok x.definitions.text
  /-- So all outputs are there if they have different places, -/
  remain : (outputs.map run.place).Nodup →
    ∀ x ∈ outputs, t'.read cwd (run.path x) = .ok x.definitions.text
  /-- that is if no two of them have the same stem in the same directory. -/
  apart : '/' ∉ run.options.generatedSuffix.toList →
    (∀ x ∈ outputs, x.file.sourcePath.isAbsolute = true ∧
      x.file.sourcePath.steps.getLast? ≠ some .parent) →
    ((outputs.map run.place).Nodup ↔
      outputs.Pairwise fun x y => ¬(x.stem = y.stem ∧ run.directory x = run.directory y))
  /-- An output takes the place of a source only if the source is named like an output. -/
  sources : ∀ x ∈ outputs, ∀ y ∈ outputs,
    y.file.sourcePath.components = (run.path x).components →
    ∃ name, y.file.sourcePath.fileName? = some name ∧
      run.options.outputExtension.toList <:+ name.toList ∧
      ('/' ∉ run.options.generatedSuffix.toList →
        run.options.generatedSuffix.toList ++ run.options.outputExtension.toList <:+ name.toList)

theorem GenerateRun.leaves {cwd : Place} {a : GenerateArguments} {t t' : FileTree}
    {run : GenerateRun cwd a t t'} {outputs : List Output}
    (hsteps : outputs.map (·.step) = run.steps) (hwrites : ∀ x ∈ outputs, run.Writes x) :
    run.Leaves outputs where
  steps := hsteps
  writes := hwrites
  last front x back houtputs hlast := read_path hsteps hwrites houtputs hlast
  remain hnodup x hx := by
    obtain ⟨front, back, houtputs⟩ := List.append_of_mem hx
    refine read_path hsteps hwrites houtputs fun y hy hsame => ?_
    rw [houtputs, List.map_append, List.map_cons] at hnodup
    have hother := (List.nodup_cons.mp (List.nodup_append.mp hnodup).2.1).1
    exact hother (List.mem_map.mpr ⟨y, hy, hsame⟩)
  apart hsuffix hsources := by
    rw [List.Nodup, List.pairwise_map]
    refine List.Pairwise.iff_of_mem fun {x y} hx hy => not_congr ?_
    exact destination_outputPath_eq_iff (hsources x hx) (hsources y hy) hsuffix
  sources x hx y hy h := fileName?_of_components_outputPath h

theorem GenerateRun.map_path {cwd : Place} {a : GenerateArguments} {t t' : FileTree}
    {run : GenerateRun cwd a t t'} {outputs : List Output}
    (hsteps : outputs.map (·.step) = run.steps) (hwrites : ∀ x ∈ outputs, run.Writes x) :
    (outputs.map run.path).map (fun path => Except.ok (Delivery.written path))
      = (run.steps.map (·.report)).map (·.outcome) := by
  rw [← hsteps, List.map_map, List.map_map, List.map_map]
  exact List.map_congr_left fun x hx => (hwrites x hx).delivers.written.symm

theorem forall_succeeded_of_failed_eq_zero {reports : List FileReport}
    (h : Report.failed reports = 0) : ∀ report ∈ reports, report.succeeded = true := by
  rw [Report.failed, List.countP_eq_zero] at h
  intro report hreport
  simpa using h report hreport

/-- **What a run leaves behind** that succeeds with every descriptor file. -/
theorem outputs_remain {cwd : Place} {arguments : List String} {t t' : FileTree}
    {reports : List FileReport} (h : runIn cwd arguments t = (.generated false reports, t'))
    (hall : Report.failed reports = 0) :
    ∃ a, Request.ofArguments arguments = .generate a ∧ ∃ run : GenerateRun cwd a t t',
      run.steps.map (·.report) = reports ∧ ∃ outputs, run.Leaves outputs := by
  obtain ⟨a, harguments, -, run, hreports⟩ := exists_generateRun h
  have hsucceeded : ∀ step ∈ run.steps, step.report.succeeded = true := fun step hstep => by
    refine forall_succeeded_of_failed_eq_zero hall _ ?_
    rw [← hreports]
    exact List.mem_map.mpr ⟨step, hstep, rfl⟩
  obtain ⟨outputs, hsteps, hwrites⟩ := exists_outputs run hsucceeded
  exact ⟨a, harguments, run, hreports, outputs, GenerateRun.leaves hsteps hwrites⟩

/-! ## Two descriptor files -/

/-- A descriptor file with one empty type. -/
def oneType (source name : String) : DescriptorFile := ⟨⟨source⟩, [.interface name]⟩

/-- Its text. -/
def oneTypeText (source name : String) : String :=
  "\x7b\"sourcePath\":\"" ++ source ++ "\",\"types\":[\x7b\"name\":\"" ++ name ++ "\"\x7d]\x7d"

/-- A tree with the descriptor file for `/A.cs` and one for another source. -/
def twoTree (other : String) : FileTree :=
  .directory [
    ("A.types.json", .file (oneTypeText "/A.cs" "First")),
    ("B.types.json", .file (oneTypeText other "Second"))]

/-- How the first file is found. -/
def firstFound : Found := ⟨⟨"/./A.types.json"⟩, ["A.types.json"]⟩

/-- How the other file is found. -/
def secondFound : Found := ⟨⟨"/./B.types.json"⟩, ["B.types.json"]⟩

/-- Both files are found, whatever they say. -/
theorem descriptorFiles_pair (text other : String) :
    (FileTree.directory [("A.types.json", .file text), ("B.types.json", .file other)]).descriptorFiles
      [] ⟨"/."⟩ = [firstFound, secondFound] :=
  descriptorFiles_of_sorted rfl rfl (by decide +kernel)

theorem descriptorFiles_twoTree (other : String) :
    (twoTree other).descriptorFiles [] ⟨"/."⟩ = [firstFound, secondFound] :=
  descriptorFiles_pair _ _

theorem read_first (other : String) :
    (twoTree other).read [] firstFound.path = .ok (oneTypeText "/A.cs" "First") := rfl

theorem parse?_first :
    DescriptorFile.parse? (oneTypeText "/A.cs" "First") = some (oneType "/A.cs" "First") := rfl

theorem outputPath_first : outputPath .default none (oneType "/A.cs" "First").sourcePath
    = ⟨"/A.generated.ts"⟩ := by decide +kernel

/-- The first definition file does not touch the other descriptor file. -/
theorem read_second (other text : String) :
    (deliver (host []) ⟨"/A.generated.ts"⟩ text (twoTree other)).2.read [] secondFound.path
      = .ok (oneTypeText other "Second") := rfl

theorem mapM_pair {f : Found → StateM FileTree FileReport} {x y : Found} {r r' : FileReport}
    {t t' t'' : FileTree} (h : f x t = (r, t')) (h' : f y t' = (r', t'')) :
    [x, y].mapM f t = ([r, r'], t'') := by
  rw [List.mapM_cons, List.mapM_cons, List.mapM_nil, bind_apply, h]
  simp only [bind_apply, h']
  rfl

/-- A run over both files writes the second definition file behind the first one. -/
theorem exists_run_twoTree (other : String)
    (hparsed : DescriptorFile.parse? (oneTypeText other "Second") = some (oneType other "Second"))
    (hwritable : ∀ text text', (deliver (host []) (outputPath .default none ⟨other⟩) text'
      (deliver (host []) ⟨"/A.generated.ts"⟩ text (twoTree other)).2).1
        = .ok (.written (outputPath .default none ⟨other⟩))) :
    ∃ reports t', runIn [] ["generate"] (twoTree other) = (.generated false reports, t') ∧
      reports.map (·.outcome) = [⟨"/A.generated.ts"⟩, outputPath .default none ⟨other⟩].map
        fun path => .ok (.written path) := by
  have harguments : Request.ofArguments ["generate"] = .generate {} := by decide +kernel
  obtain ⟨first, hfirst⟩ := exists_generate_eq_ok (o := .default) rfl
    (oneType "/A.cs" "First").types (oneType "/A.cs" "First").sourcePath
    ((twoTree other).isFile [])
  have hstep := generateFile_of_generated none
    (generated_eq_ok_iff.mpr ⟨_, _, read_first other, parse?_first, hfirst, rfl⟩)
  rw [outputPath_first] at hstep
  obtain ⟨second, hsecond⟩ := exists_generate_eq_ok (o := .default) rfl
    (oneType other "Second").types (oneType other "Second").sourcePath
    ((deliver (host []) ⟨"/A.generated.ts"⟩ first.text (twoTree other)).2.isFile [])
  have hstep' := generateFile_of_generated none
    (generated_eq_ok_iff.mpr ⟨_, _, read_second other first.text, hparsed, hsecond, rfl⟩)
  have hfiles := mapM_pair hstep hstep'
  rw [← descriptorFiles_twoTree other] at hfiles
  have hconfig : (twoTree other).configuration [] = .ok .default := rfl
  have hinput : (host []).cwd.join ⟨GenerateArguments.path {}⟩ = ⟨"/."⟩ := by decide +kernel
  have hexists : (twoTree other).exists? [] ⟨"/."⟩ = true := rfl
  refine ⟨_, _, runIn_generate harguments rfl hconfig hinput hexists hfiles, ?_⟩
  have hwritten : (deliver (host []) ⟨"/A.generated.ts"⟩ first.text (twoTree other)).1
      = .ok (.written ⟨"/A.generated.ts"⟩) := rfl
  have hwritten' : (deliver (host []) (outputPath .default none (oneType other "Second").sourcePath)
      second.text (deliver (host []) ⟨"/A.generated.ts"⟩ first.text (twoTree other)).2).1
      = .ok (.written (outputPath .default none ⟨other⟩)) := hwritable first.text second.text
  rw [List.map_cons, List.map_cons, List.map_nil, hwritten, hwritten']
  rfl

theorem failed_of_map_outcome {reports : List FileReport} {paths : List Path}
    (h : reports.map (·.outcome) = paths.map fun path => .ok (.written path)) :
    Report.failed reports = 0 := by
  rw [Report.failed, List.countP_eq_zero]
  intro report hreport
  have hmem : report.outcome ∈ reports.map (·.outcome) := List.mem_map.mpr ⟨report, hreport, rfl⟩
  rw [h] at hmem
  obtain ⟨path, -, hpath⟩ := List.mem_map.mp hmem
  rw [FileReport.succeeded, ← hpath]
  exact Bool.false_ne_true

theorem path_inj {paths paths' : List Path}
    (h : paths.map (fun path => (Except.ok (Delivery.written path) : Except Failure Delivery))
      = paths'.map fun path => .ok (.written path)) : paths = paths' := by
  refine List.map_injective_iff.mpr (fun p q hpq => ?_) h
  cases hpq
  rfl

theorem outputs_remain_twoTree :
    ∃ reports t', runIn [] ["generate"] (twoTree "/B.cs") = (.generated false reports, t') ∧
      Report.failed reports = 0 ∧
      ∃ (a : GenerateArguments) (run : GenerateRun [] a (twoTree "/B.cs") t')
        (outputs : List Output),
        outputs.map run.path = [⟨"/A.generated.ts"⟩, ⟨"/B.generated.ts"⟩] ∧
          ∀ x ∈ outputs, t'.read [] (run.path x) = .ok x.definitions.text := by
  obtain ⟨reports, t', hrun, houtcomes⟩ := exists_run_twoTree "/B.cs" rfl fun _ _ => rfl
  have hall : Report.failed reports = 0 := failed_of_map_outcome houtcomes
  obtain ⟨a, -, run, hreports, outputs, hleaves⟩ := outputs_remain hrun hall
  have hpaths : outputs.map run.path = [⟨"/A.generated.ts"⟩, ⟨"/B.generated.ts"⟩] := by
    have hmap := GenerateRun.map_path hleaves.steps hleaves.writes
    rw [hreports, houtcomes] at hmap
    exact path_inj hmap
  refine ⟨reports, t', hrun, hall, a, run, outputs, hpaths, hleaves.remain ?_⟩
  have hplaces : outputs.map run.place = (outputs.map run.path).map (destination []) := by
    rw [List.map_map]
    rfl
  rw [hplaces, hpaths]
  decide +kernel

/-- **Two sources with one stem lose a file.** Both definition files go to `/A.generated.ts`. -/
theorem output_overwritten :
    ¬ ∀ (cwd : Place) (arguments : List String) (t t' : FileTree) (reports : List FileReport),
      runIn cwd arguments t = (.generated false reports, t') → Report.failed reports = 0 →
      ∀ (a : GenerateArguments) (run : GenerateRun cwd a t t') (outputs : List Output),
        Request.ofArguments arguments = .generate a → outputs.map (·.step) = run.steps →
        (∀ x ∈ outputs, run.Writes x) → (outputs.map (·.file.sourcePath)).Nodup →
          (outputs.map run.path).Nodup ∧
          (∀ x ∈ outputs, t'.read cwd (run.path x) = .ok x.definitions.text) ∧
          ∀ x ∈ outputs, ∀ y ∈ outputs,
            y.file.sourcePath.components ≠ (run.path x).components := by
  intro hall
  have harguments : Request.ofArguments ["generate"] = .generate {} := by decide +kernel
  obtain ⟨reports, t', hrun, houtcomes⟩ := exists_run_twoTree "/A.vb" rfl fun _ _ => rfl
  have hnone : Report.failed reports = 0 := failed_of_map_outcome houtcomes
  obtain ⟨a, ha, -, run, hreports⟩ := exists_generateRun hrun
  cases harguments.symm.trans ha
  obtain ⟨outputs, hsteps, hwrites⟩ := exists_outputs run fun step hstep => by
    refine forall_succeeded_of_failed_eq_zero hnone _ ?_
    rw [← hreports]
    exact List.mem_map.mpr ⟨step, hstep, rfl⟩
  have hfound : outputs.map (·.step.found) = [firstFound, secondFound] := by
    have hinput : (host []).cwd.join ⟨GenerateArguments.path {}⟩ = ⟨"/."⟩ := by decide +kernel
    rw [← descriptorFiles_twoTree "/A.vb", ← hinput, ← run.found, ← hsteps, List.map_map]
    rfl
  obtain ⟨x, y, rfl, hx, hy⟩ : ∃ x y, outputs = [x, y] ∧ x.step.found = firstFound ∧
      y.step.found = secondFound := by
    rcases outputs with - | ⟨x, - | ⟨y, - | ⟨z, rest⟩⟩⟩
    · simp at hfound
    · simp at hfound
    · simp only [List.map_cons, List.map_nil, List.cons.injEq, and_true] at hfound
      exact ⟨x, y, rfl, hfound⟩
    · simp at hfound
  have hfile : x.file = oneType "/A.cs" "First" := by
    have hown := (hwrites x (by simp)).own
    rw [hx] at hown
    exact Option.some.inj ((hown _ (read_first "/A.vb")).symm.trans parse?_first)
  have hfile' : y.file = oneType "/A.vb" "Second" := by
    have hown := (hwrites y (by simp)).own
    rw [hy] at hown
    exact Option.some.inj ((hown (oneTypeText "/A.vb" "Second") rfl).symm.trans rfl)
  have hsources : ([x, y].map (·.file.sourcePath)).Nodup := by
    simp [hfile, hfile', oneType]
  obtain ⟨hpaths, -⟩ := hall _ _ _ _ _ hrun hnone _ run [x, y] harguments hsteps hwrites hsources
  have hmap := GenerateRun.map_path hsteps hwrites
  rw [hreports, houtcomes] at hmap
  rw [path_inj hmap] at hpaths
  exact absurd hpaths (by decide +kernel)

end Typings
