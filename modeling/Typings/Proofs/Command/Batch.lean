import Typings.Proofs.Command.Trace

/-!
# A batch of descriptor files

A run with a configuration and something to look at works through every descriptor file that it
finds, in their order, and whatever becomes of the others. It finds out for each file what to
generate, and then it hands that over. Only handing over definitions can change the file tree, so
a file from which nothing is generated leaves the tree as it was.

The steps of such a run are a function of the tree that it starts in, whether definitions are
written or printed.

## Main definitions

* `FileTree.fileSteps`, `FileTree.behind` — the steps for some files, and the tree behind them.
* `Batch` — a run with a configuration and something to look at.

## Main results

* `mapM_generateFile` — the reports on some files are told by their steps.
* `Batch.run_eq`, `Batch.runIn_cases` — what a run comes to.
* `Batch.accounts` — the accounts of a run.
-/

namespace Typings

open FileTree

namespace FileTree

variable (cwd : Place) (printing : Bool) (o : Options) (outDir : Option Path)

/-! ## Steps -/

/-- The step for one descriptor file. -/
def fileStep (found : Found) (t : FileTree) : FileStep :=
  let (report, after) := generateFile (host cwd) printing o outDir found t
  ⟨found, t, report, after⟩

/-- The steps for some descriptor files, one after the other. -/
def fileSteps : List Found → FileTree → List FileStep
  | [], _ => []
  | found :: rest, t =>
    let step := fileStep cwd printing o outDir found t
    step :: fileSteps rest step.after

/-- The tree behind some steps from a tree. -/
def behind (t : FileTree) : List FileStep → FileTree
  | [] => t
  | step :: rest => behind step.after rest

variable {cwd printing o outDir}

/-- **The reports on some files are told by their steps.** -/
theorem mapM_generateFile (files : List Found) (t : FileTree) :
    files.mapM (generateFile (host cwd) printing o outDir) t
      = ((fileSteps cwd printing o outDir files t).map (·.report),
        behind t (fileSteps cwd printing o outDir files t)) := by
  induction files generalizing t with
  | nil => rfl
  | cons found rest ih =>
      rw [List.mapM_cons, bind_apply, bind_apply, ih]
      rfl

/-- There is one step for each file. -/
theorem map_found_fileSteps (files : List Found) (t : FileTree) :
    (fileSteps cwd printing o outDir files t).map (·.found) = files := by
  induction files generalizing t with
  | nil => rfl
  | cons found rest ih =>
      rw [fileSteps, List.map_cons, ih]
      rfl

theorem eq_fileStep_of_mem {files : List Found} {t : FileTree} {step : FileStep}
    (h : step ∈ fileSteps cwd printing o outDir files t) :
    step = fileStep cwd printing o outDir step.found step.before := by
  induction files generalizing t with
  | nil => simp [fileSteps] at h
  | cons found rest ih =>
      rcases List.mem_cons.mp h with rfl | hrest
      · rfl
      · exact ih hrest

/-- What a step tells and leaves follows from what is generated for its file. -/
theorem report_after_of_mem {files : List Found} {t : FileTree} {step : FileStep}
    (h : step ∈ fileSteps cwd printing o outDir files t) :
    (step.report, step.after) = handOver cwd printing o outDir step.found step.before
      (step.before.generated cwd o step.found) := by
  rw [← generateFile_eq_handOver]
  exact congrArg (fun s : FileStep => (s.report, s.after)) (eq_fileStep_of_mem h)

/-- **A relation between trees that holds across each step holds across some steps.** -/
theorem fileSteps_induction {r : FileTree → FileTree → Prop} (hrefl : ∀ t, r t t)
    (htrans : ∀ {t t' t''}, r t t' → r t' t'' → r t t'') {files : List Found} {t : FileTree}
    (hstep : ∀ step ∈ fileSteps cwd printing o outDir files t, r step.before step.after) :
    (∀ step ∈ fileSteps cwd printing o outDir files t, r t step.before) ∧
      r t (behind t (fileSteps cwd printing o outDir files t)) := by
  induction files generalizing t with
  | nil => exact ⟨by simp [fileSteps], hrefl t⟩
  | cons found rest ih =>
      have hfirst : r t (fileStep cwd printing o outDir found t).after :=
        hstep _ List.mem_cons_self
      obtain ⟨hbefore, hlast⟩ := ih fun step hrest => hstep step (List.mem_cons_of_mem _ hrest)
      refine ⟨fun step hmem => ?_, htrans hfirst hlast⟩
      rcases List.mem_cons.mp hmem with rfl | hrest
      · exact hrefl t
      · exact htrans hfirst (hbefore step hrest)

end FileTree

/-! ## Batches -/

/-- The path that is looked at. -/
def GenerateArguments.input (a : GenerateArguments) (cwd : Place) : Path :=
  (host cwd).cwd.join ⟨a.path⟩

/-- A run with a configuration and something to look at. -/
structure Batch (cwd : Place) (arguments : List String) (t : FileTree) where
  /-- What is asked for. -/
  request : GenerateArguments
  /-- The configuration. -/
  config : Config
  asked : Request.ofArguments arguments = .generate request
  configured : t.configuration cwd = .ok config
  present : t.exists? cwd (request.input cwd) = true

namespace Batch

variable {cwd : Place} {arguments : List String} {t : FileTree} (b : Batch cwd arguments t)

/-- Whether definitions are printed. -/
def printing : Bool := b.request.stdout

/-- The options that the run works with. -/
def options : Options := b.request.options b.config.emit

/-- The directory that the files go to, if there is one. -/
def outDir : Option Path := b.request.outputDirectory? (host cwd).cwd b.config

/-- The descriptor files that are found. -/
def files : List Found := t.descriptorFiles cwd (b.request.input cwd)

/-- The steps of the run. -/
def steps : List FileStep := fileSteps cwd b.printing b.options b.outDir b.files t

/-- The reports on the descriptor files. -/
def reports : List FileReport := b.steps.map (·.report)

/-- The tree behind the run. -/
def last : FileTree := behind t b.steps

/-- **What a run comes to** that has a configuration and something to look at. -/
theorem run_eq : runIn cwd arguments t = (.generated b.printing b.reports, b.last) := by
  have hpresent : (host cwd).exists? (b.request.input cwd) t = (true, t) := by
    rw [← b.present]
    rfl
  have hloaded : loadConfig (host cwd) t = (.ok b.config, t) := by
    rw [loadConfig_host, b.configured]
  have hrun : runIn cwd arguments t = generateAll (host cwd) b.request t := by
    rw [runIn, b.asked]
    rfl
  rw [hrun, generateAll_of_found hloaded hpresent (findDescriptorFiles_host cwd _ t),
    mapM_generateFile]
  rfl

/-- **How a run ends**: without a configuration, without anything to look at, or as a batch. -/
theorem runIn_cases {a : GenerateArguments}
    (harguments : Request.ofArguments arguments = .generate a) (cwd : Place) (t : FileTree) :
    (∃ e, t.configuration cwd = .error e ∧ runIn cwd arguments t = (e.report, t)) ∨
      (t.exists? cwd (a.input cwd) = false ∧
        runIn cwd arguments t = (.noInput (a.input cwd), t)) ∨
      ∃ b : Batch cwd arguments t, b.request = a := by
  have hrun : runIn cwd arguments t = generateAll (host cwd) a t := by
    rw [runIn, harguments]
    rfl
  cases hconfig : t.configuration cwd with
  | error e =>
      refine Or.inl ⟨e, rfl, ?_⟩
      rw [hrun, generateAll, bind_apply, loadConfig_host, hconfig]
      rfl
  | ok config =>
      cases hexists : t.exists? cwd (a.input cwd) with
      | false =>
          have hnothing : (host cwd).exists? (a.input cwd) t = (false, t) := by
            rw [← hexists]
            rfl
          refine Or.inr (Or.inl ⟨rfl, ?_⟩)
          rw [hrun, generateAll, bind_apply, loadConfig_host, hconfig]
          rw [GenerateArguments.input] at hnothing ⊢
          simp only [bind_apply, hnothing]
          rfl
      | true => exact Or.inr (Or.inr ⟨⟨a, config, harguments, hconfig, hexists⟩, rfl⟩)

theorem failed_eq_zero_iff {reports : List FileReport} :
    Report.failed reports = 0 ↔ ∀ report ∈ reports, report.succeeded = true := by
  rw [Report.failed, List.countP_eq_zero]
  simp

/-- The accounts of a run: every file is handled, the counts that it tells add up, and a file from
which nothing is generated changes nothing. -/
structure Accounts : Prop where
  ended : runIn cwd arguments t = (.generated b.printing b.reports, b.last)
  /-- Every file that is found is handled, in order. -/
  handled : b.steps.map (·.found) = b.files
  counted : Report.succeeded b.reports + Report.failed b.reports = b.files.length
  exitCode : (runIn cwd arguments t).1.exitCode
    = if ∃ step ∈ b.steps, step.report.succeeded = false then 1 else 0
  /-- A file that cannot be read or parsed, or for which something is missing that must not be. -/
  untouched : ∀ step ∈ b.steps, ∀ failure,
    step.before.generated cwd b.options step.found = .error failure →
      step.report = ⟨step.found.name, [], .error failure⟩ ∧ step.after = step.before

/-- **The accounts of a run.** -/
theorem accounts : b.Accounts where
  ended := b.run_eq
  handled := map_found_fileSteps b.files t
  counted := by
    have hlength : b.reports.length = b.files.length := by
      have hfound : b.steps.map (·.found) = b.files := map_found_fileSteps b.files t
      rw [reports, List.length_map, ← hfound, List.length_map]
    rw [Report.succeeded, Report.failed, ← hlength,
      List.length_eq_countP_add_countP FileReport.succeeded (l := b.reports)]
    simp
  exitCode := by
    rw [b.run_eq]
    simp only [Report.exitCode]
    by_cases hall : ∀ step ∈ b.steps, step.report.succeeded = true
    · rw [if_pos, if_neg]
      · rintro ⟨step, hstep, hfailed⟩
        rw [hall step hstep] at hfailed
        cases hfailed
      · rw [failed_eq_zero_iff, reports, List.forall_mem_map]
        exact hall
    · rw [if_neg, if_pos]
      · simpa using hall
      · rwa [failed_eq_zero_iff, reports, List.forall_mem_map]
  untouched step hstep failure hfailure := by
    have h : _ = handOver cwd b.printing b.options b.outDir step.found step.before
      (step.before.generated cwd b.options step.found) := report_after_of_mem hstep
    rw [hfailure] at h
    exact ⟨congrArg Prod.fst h, congrArg Prod.snd h⟩

end Batch

/-! ## A file that cannot be parsed -/

/-- A tree with a descriptor file that cannot be parsed, and one that can. -/
def halfTree : FileTree :=
  .directory [
    ("A.types.json", .file "\x7b"),
    ("B.types.json", .file "\x7b\"sourcePath\":\"/B.cs\"\x7d")]

/-- A run over both files. -/
def halfBatch : Batch [] ["generate"] halfTree where
  request := {}
  config := .default
  asked := by decide +kernel
  configured := rfl
  present := by decide +kernel

/-- How the first file is found. -/
def brokenFound : Found := ⟨⟨"/./A.types.json"⟩, ["A.types.json"]⟩

/-- How the other file is found. -/
def wholeFound : Found := ⟨⟨"/./B.types.json"⟩, ["B.types.json"]⟩

theorem descriptorFiles_halfTree :
    halfTree.descriptorFiles [] ⟨"/."⟩ = [brokenFound, wholeFound] :=
  descriptorFiles_of_sorted rfl rfl (by decide +kernel)

theorem files_halfBatch : halfBatch.files = [brokenFound, wholeFound] := by
  have hinput : halfBatch.request.input [] = ⟨"/."⟩ := by decide +kernel
  rw [Batch.files, hinput, descriptorFiles_halfTree]

/-- The first file fails and changes nothing, and both files are counted. -/
theorem accounts_halfBatch :
    Report.succeeded halfBatch.reports + Report.failed halfBatch.reports = 2 ∧
      (runIn [] ["generate"] halfTree).1.exitCode = 1 ∧
      ∀ step ∈ halfBatch.steps.head?, step.after = halfTree := by
  have h := halfBatch.accounts
  have hsteps : halfBatch.steps = fileSteps [] false halfBatch.options halfBatch.outDir
      [brokenFound, wholeFound] halfTree := by
    rw [← files_halfBatch]
    rfl
  have hbroken : halfTree.generated [] halfBatch.options brokenFound
      = .error (.invalid brokenFound.path) := rfl
  obtain ⟨first, hmem, hfirst⟩ : ∃ first ∈ halfBatch.steps,
      halfBatch.steps.head? = some first ∧ first.found = brokenFound ∧
        first.before = halfTree := by
    rw [hsteps]
    exact ⟨_, List.mem_cons_self, rfl, rfl, rfl⟩
  obtain ⟨hhead, hfound, hbefore⟩ := hfirst
  obtain ⟨hreport, hafter⟩ := h.untouched first hmem (.invalid brokenFound.path) (by
    rw [hfound, hbefore]
    exact hbroken)
  refine ⟨?_, ?_, ?_⟩
  · rw [h.counted, files_halfBatch]
    rfl
  · rw [h.exitCode, if_pos]
    exact ⟨first, hmem, by rw [hreport]; rfl⟩
  · intro step hstep
    rw [hhead] at hstep
    cases hstep
    rw [hafter, hbefore]

end Typings
