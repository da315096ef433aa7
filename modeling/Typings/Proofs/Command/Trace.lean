import Typings.Command.Run
import Typings.Proofs.FileTree.Writing
import Typings.Proofs.Import.Sources

/-!
# A run, file by file

A run of the command looks for its configuration and for descriptor files, and then it works
through these files one after the other. Looking does not change the file tree. What is left of
a run is a trace: for each descriptor file the tree before it, the tree behind it, and what is
told about it.

## Main definitions

* `FileTree.configuration`, `FileTree.descriptorFiles` — what a run finds.
* `FileStep`, `Trace` — the steps of a run.
* `FileStep.Delivers` — a step that writes a definition file.
* `GenerateRun` — a whole run.

## Main results

* `FileStep.Taken.delivers` — a step that tells of a file has written it.
* `Trace.persists` — what the steps of a run keep.
* `exists_generateRun` — each run that ends with a report on files has a trace.
* `runIn_generate` — a run works through all files that it finds.
* `writeConfig_host` — a run that writes a configuration.
-/

namespace Typings

open FileTree

/-! ## Looking -/

/-- One action after another one that changes a state. -/
theorem bind_apply {σ α β : Type} (x : StateM σ α) (f : α → StateM σ β) (s : σ) :
    (x >>= f) s = f (x s).1 (x s).2 := rfl

namespace FileTree

/-- The configuration that a run in a tree finds. -/
def configuration (cwd : Place) (t : FileTree) : Except ConfigError Config :=
  if t.exists? cwd (configPath (host cwd)) then
    match t.read cwd (configPath (host cwd)) with
    | .error e => .error (.file e)
    | .ok text =>
      match Config.parse? text with
      | some config => .ok config
      | none => .error .invalid
  else .ok .default

theorem loadConfig_host (cwd : Place) (t : FileTree) :
    loadConfig (host cwd) t = (t.configuration cwd, t) := by
  show (if t.exists? cwd (configPath (host cwd)) then _ else _ : StateM FileTree _) t = _
  rw [configuration]
  split
  · show (match t.read cwd (configPath (host cwd)) with
      | .error e => _
      | .ok text => _ : StateM FileTree _) t = _
    cases t.read cwd (configPath (host cwd)) with
    | error e => rfl
    | ok text =>
        show (match Config.parse? text with
          | some config => _
          | none => _ : StateM FileTree _) t
          = ((match Config.parse? text with
            | some config => Except.ok config
            | none => Except.error ConfigError.invalid), t)
        cases Config.parse? text <;> rfl
  · rfl

/-- The descriptor files that a run in a tree finds. -/
def descriptorFiles (cwd : Place) (input : Path) (t : FileTree) : List Found :=
  if t.isFile cwd input then [⟨input, []⟩]
  else
    ((([] :: t.placesBelow cwd input).filter (isDescriptorPlace input)).map
      (Found.below input)).mergeSort fun a b => !(b.path.precedes a.path)

/-- What is found in a directory, if it is found in order. -/
theorem descriptorFiles_of_sorted {cwd : Place} {input : Path} {t : FileTree} {found : List Found}
    (hdirectory : t.isFile cwd input = false)
    (hfound : (([] :: t.placesBelow cwd input).filter (isDescriptorPlace input)).map
      (Found.below input) = found)
    (hsorted : found.Pairwise fun a b => (!(b.path.precedes a.path)) = true) :
    t.descriptorFiles cwd input = found := by
  rw [descriptorFiles, if_neg (by simp [hdirectory]), hfound]
  exact List.mergeSort_of_pairwise hsorted

theorem findDescriptorFiles_host (cwd : Place) (input : Path) (t : FileTree) :
    findDescriptorFiles (host cwd) input t = (t.descriptorFiles cwd input, t) := by
  show (if t.isFile cwd input then _ else _ : StateM FileTree _) t = _
  rw [descriptorFiles]
  split <;> rfl

/-- Asking for some files one by one. -/
theorem filterM_isFile (cwd : Place) (ps : List Path) (t : FileTree) :
    ps.filterM (host cwd).isFile t = (ps.filter (t.isFile cwd), t) := by
  have haux (acc : List Path) :
      ps.filterAuxM (host cwd).isFile acc t = ((ps.filter (t.isFile cwd)).reverse ++ acc, t) := by
    induction ps generalizing acc with
    | nil => rfl
    | cons p rest ih =>
        show rest.filterAuxM (host cwd).isFile (bif t.isFile cwd p then p :: acc else acc) t = _
        rw [ih]
        cases h : t.isFile cwd p <;> simp [h]
  show ((ps.filterAuxM (host cwd).isFile [] t).1.reverse, (ps.filterAuxM (host cwd).isFile [] t).2)
    = _
  rw [haux]
  simp

end FileTree

/-! ## One file -/

/-- What is generated depends only on which expected sources there are. -/
theorem generate_congr {o : Options} {file : DescriptorFile} {isFile isFile' : Path → Bool}
    (h : ∀ p ∈ expectedSources o file, isFile p = isFile' p) :
    generate o file.types file.sourcePath isFile
      = generate o file.types file.sourcePath isFile' := by
  have himports : resolveImports o file.types (Names.ofTypes o file.types) file.sourcePath isFile
      = resolveImports o file.types (Names.ofTypes o file.types) file.sourcePath isFile' := by
    apply resolveImports_of_findings_eq
    apply findings_congr_files
    intro _ base hsought
    exact h _ (List.mem_map.mpr ⟨base, hsought.mem, rfl⟩)
  rw [generate, generate]
  show (resolveImports o file.types (Names.ofTypes o file.types) file.sourcePath isFile).bind _
    = (resolveImports o file.types (Names.ofTypes o file.types) file.sourcePath isFile').bind _
  rw [himports]

/-- Where missing references are warnings only, there is always a definition file. -/
theorem exists_generate_eq_ok {o : Options} (hwarn : o.missingReferences = .warn)
    (types : List Descriptor) (source : Path) (isFile : Path → Bool) :
    ∃ definitions, generate o types source isFile = .ok definitions := by
  rw [generate]
  simp only [resolveImports_warn hwarn]
  exact ⟨_, rfl⟩

namespace FileTree

/-- What delivering a text comes to when the directories for it are made, or are not. -/
def delivered (cwd : Place) (path : Path) (text : String) :
    Except FileError Unit × FileTree → Except Failure Delivery × FileTree
  | (.error e, t) => (.error (.file e), t)
  | (.ok (), t) =>
    match t.write cwd path text with
    | .error e => (.error (.file e), t)
    | .ok written => (.ok (.written path), written)

/-- The write at the end of a delivery, when the directories are made. -/
theorem write_host (cwd : Place) (path : Path) (text : String) (made : FileTree) :
    ((host cwd).write path text >>= fun
      | .error e => pure (.error (.file e))
      | .ok () => pure (.ok (.written path)) : StateM FileTree (Except Failure Delivery)) made
      = delivered cwd path text (.ok (), made) := by
  have hrun : (host cwd).write path text made = writing cwd path text made := rfl
  rw [bind_apply, delivered, hrun, writing]
  cases made.write cwd path text <;> rfl

theorem deliver_host (cwd : Place) (path : Path) (text : String) (t : FileTree) :
    deliver (host cwd) path text t
      = delivered cwd path text (match path.parent? with
        | some dir => creating cwd dir t
        | none => (.ok (), t)) := by
  rw [deliver]
  cases path.parent? with
  | none => exact write_host cwd path text t
  | some dir =>
      have hrun : (host cwd).createDirectories dir t = creating cwd dir t := rfl
      dsimp only
      rw [bind_apply, hrun]
      obtain ⟨result, made⟩ := creating cwd dir t
      cases result with
      | error e => rfl
      | ok done => exact write_host cwd path text made

/-- What is generated for a descriptor file in a tree, with the source that the file describes, or
why nothing is. -/
def generated (cwd : Place) (o : Options) (found : Found) (t : FileTree) :
    Except Failure (Path × Definitions) :=
  match t.read cwd found.path with
  | .error e => .error (.file e)
  | .ok text =>
    match DescriptorFile.parse? text with
    | none => .error (.invalid found.path)
    | some f =>
      match generate o f.types f.sourcePath (t.isFile cwd) with
      | .error what => .error (.missing what)
      | .ok definitions => .ok (f.sourcePath, definitions)

/-- What becomes of what is generated: the definitions are printed or delivered, or it is told why
there are none. -/
def handOver (cwd : Place) (printing : Bool) (o : Options) (outDir : Option Path) (found : Found)
    (t : FileTree) : Except Failure (Path × Definitions) → FileReport × FileTree
  | .error failure => (⟨found.name, [], .error failure⟩, t)
  | .ok (source, definitions) =>
    if printing then (⟨found.name, definitions.warnings, .ok (.printed definitions.text)⟩, t)
    else
      let (outcome, after) := deliver (host cwd) (outputPath o outDir source) definitions.text t
      (⟨found.name, definitions.warnings, outcome⟩, after)

/-- **One descriptor file**: first it is found out what to generate, which changes nothing, and then
that is handed over. -/
theorem generateFile_eq_handOver (cwd : Place) (printing : Bool) (o : Options)
    (outDir : Option Path) (found : Found) (t : FileTree) :
    generateFile (host cwd) printing o outDir found t
      = handOver cwd printing o outDir found t (t.generated cwd o found) := by
  have hread : (host cwd).read found.path t = (t.read cwd found.path, t) := rfl
  rw [generateFile, generated, bind_apply]
  simp only [hread]
  cases t.read cwd found.path with
  | error e => rfl
  | ok text =>
      cases hfile : DescriptorFile.parse? text with
      | none =>
          simp only [hfile]
          rfl
      | some file =>
          simp only [hfile]
          -- Only the expected sources are looked for beforehand.
          have hsame : generate o file.types file.sourcePath
                (fun p => decide (p ∈ (expectedSources o file).filter (t.isFile cwd)))
              = generate o file.types file.sourcePath (t.isFile cwd) := by
            refine generate_congr fun p hp => ?_
            simp [hp]
          rw [bind_apply, filterM_isFile]
          simp only [hsame]
          cases generate o file.types file.sourcePath (t.isFile cwd) <;> cases printing <;> rfl

/-- What is generated for a descriptor file that can be read and parsed. -/
theorem generated_eq_ok_iff {cwd : Place} {o : Options} {found : Found} {t : FileTree}
    {source : Path} {definitions : Definitions} :
    t.generated cwd o found = .ok (source, definitions) ↔
      ∃ text file, t.read cwd found.path = .ok text ∧ DescriptorFile.parse? text = some file ∧
        generate o file.types file.sourcePath (t.isFile cwd) = .ok definitions ∧
        file.sourcePath = source := by
  rw [generated]
  cases t.read cwd found.path with
  | error e => simp
  | ok text =>
      cases hfile : DescriptorFile.parse? text with
      | none => simp [hfile]
      | some file =>
          cases hgenerated : generate o file.types file.sourcePath (t.isFile cwd) with
          | error what => simp [hfile, hgenerated]
          | ok own => simp [hfile, hgenerated, and_comm]

/-- **What is generated is delivered**, unless it is printed. -/
theorem generateFile_of_generated {cwd : Place} {o : Options} {found : Found} {t : FileTree}
    {source : Path} {definitions : Definitions} (outDir : Option Path)
    (h : t.generated cwd o found = .ok (source, definitions)) :
    generateFile (host cwd) false o outDir found t
      = (⟨found.name, definitions.warnings,
          (deliver (host cwd) (outputPath o outDir source) definitions.text t).1⟩,
        (deliver (host cwd) (outputPath o outDir source) definitions.text t).2) := by
  rw [generateFile_eq_handOver, h]
  rfl

end FileTree

/-- A step of a run: the descriptor file, the tree before and behind the step, and what is told
about it. -/
structure FileStep where
  /-- The descriptor file. -/
  found : Found
  /-- The tree before. -/
  before : FileTree
  /-- What is told. -/
  report : FileReport
  /-- The tree behind. -/
  after : FileTree

namespace FileStep

variable (cwd : Place) (o : Options) (outDir : Option Path) (step : FileStep)

/-- The step is taken by a run that writes files. -/
def Taken : Prop :=
  generateFile (host cwd) false o outDir step.found step.before = (step.report, step.after)

/-- The step writes the definition file for some descriptors, and the file can be read behind
it. -/
structure Delivers (file : DescriptorFile) (definitions : Definitions) : Prop where
  parsed : ∃ text, step.before.read cwd step.found.path = .ok text ∧
    DescriptorFile.parse? text = some file
  generated : generate o file.types file.sourcePath (step.before.isFile cwd) = .ok definitions
  written : step.report.outcome = .ok (.written (outputPath o outDir file.sourcePath))
  holds : step.after.read cwd (outputPath o outDir file.sourcePath) = .ok definitions.text

variable {cwd o outDir step}

/-- A step writes one definition file. -/
theorem Delivers.unique {file file' : DescriptorFile} {definitions definitions' : Definitions}
    (h : step.Delivers cwd o outDir file definitions)
    (h' : step.Delivers cwd o outDir file' definitions') :
    file = file' ∧ definitions = definitions' := by
  obtain ⟨text, htext, hfile⟩ := h.parsed
  obtain ⟨text', htext', hfile'⟩ := h'.parsed
  have hsame : text = text' := Except.ok.inj (htext.symm.trans htext')
  rw [hsame, hfile'] at hfile
  cases hfile
  exact ⟨rfl, Except.ok.inj (h.generated.symm.trans h'.generated)⟩

/-- A step either fails before it changes anything, or delivers what it generates. -/
theorem Taken.cases (h : step.Taken cwd o outDir) :
    (∃ failure, step.report.outcome = .error failure ∧ step.after = step.before) ∨
      ∃ text file definitions, step.before.read cwd step.found.path = .ok text ∧
        DescriptorFile.parse? text = some file ∧
        generate o file.types file.sourcePath (step.before.isFile cwd) = .ok definitions ∧
        deliver (host cwd) (outputPath o outDir file.sourcePath) definitions.text step.before
          = (step.report.outcome, step.after) := by
  rw [Taken] at h
  cases hgenerated : step.before.generated cwd o step.found with
  | error failure =>
      rw [generateFile_eq_handOver, hgenerated] at h
      injection h with hreport hafter
      exact Or.inl ⟨failure, by rw [← hreport], hafter.symm⟩
  | ok what =>
      obtain ⟨text, file, htext, hfile, hdefinitions, hsource⟩ :=
        generated_eq_ok_iff.mp hgenerated
      rw [generateFile_of_generated outDir hgenerated, ← hsource] at h
      injection h with hreport hafter
      refine Or.inr ⟨text, file, what.2, htext, hfile, hdefinitions, ?_⟩
      exact Prod.ext (by rw [← hreport]) hafter

/-- What a delivery comes to: nothing that was there is lost, and what is told to be written can
be read. -/
theorem delivered_spec {path : Path} {text : String} {t : FileTree}
    {outcome : Except Failure Delivery} {after : FileTree}
    (h : deliver (host cwd) path text t = (outcome, after)) :
    (∃ failure, outcome = .error failure ∧ Persists (fun _ => True) t after) ∨
      outcome = .ok (.written path) ∧ after.read cwd path = .ok text ∧
        Persists (· ≠ destination cwd path) t after := by
  obtain ⟨result, made, hmade, hpersists⟩ : ∃ result made,
      (match path.parent? with
        | some dir => creating cwd dir t
        | none => (.ok (), t)) = (result, made) ∧ Persists (fun _ => True) t made := by
    cases path.parent? with
    | none => exact ⟨_, _, rfl, .refl _ t⟩
    | some dir => exact ⟨_, _, rfl, persists_createDirectories t cwd dir⟩
  rw [deliver_host, hmade] at h
  cases result with
  | error e =>
      cases h
      exact Or.inl ⟨_, rfl, hpersists⟩
  | ok done =>
      rw [delivered] at h
      split at h
      · cases h
        exact Or.inl ⟨_, rfl, hpersists⟩
      · rename_i written hwritten
        cases h
        refine Or.inr ⟨rfl, read_write hwritten, ?_⟩
        exact (hpersists.mono fun _ _ => trivial).trans (persists_write hwritten)

/-- **A step that tells of a file has written it.** -/
theorem Taken.delivers (h : step.Taken cwd o outDir) {path : Path}
    (hpath : step.report.outcome = .ok (.written path)) :
    ∃ file definitions, step.Delivers cwd o outDir file definitions ∧
      path = outputPath o outDir file.sourcePath := by
  rcases h.cases with ⟨failure, hfailure, -⟩ |
    ⟨text, file, definitions, hread, hfile, hgen, hdeliver⟩
  · rw [hpath] at hfailure
    cases hfailure
  · rcases delivered_spec hdeliver with ⟨failure, hfailure, -⟩ | ⟨hwritten, hholds, -⟩
    · rw [hpath] at hfailure
      cases hfailure
    · rw [hpath] at hwritten
      cases hwritten
      exact ⟨file, definitions, ⟨⟨text, hread, hfile⟩, hgen, hpath, hholds⟩, rfl⟩

/-- A step that succeeds tells of a file. -/
theorem Taken.exists_written (h : step.Taken cwd o outDir)
    (hsucceeded : step.report.succeeded = true) :
    ∃ path, step.report.outcome = .ok (.written path) := by
  rw [FileReport.succeeded] at hsucceeded
  rcases h.cases with ⟨failure, hfailure, -⟩ | ⟨text, file, definitions, -, -, -, hdeliver⟩
  · rw [hfailure] at hsucceeded
    cases hsucceeded
  · rcases delivered_spec hdeliver with ⟨failure, hfailure, -⟩ | ⟨hwritten, -, -⟩
    · rw [hfailure] at hsucceeded
      cases hsucceeded
    · exact ⟨_, hwritten⟩

/-- **A step keeps every file** but the one that it tells of. -/
theorem Taken.persists (h : step.Taken cwd o outDir) :
    Persists (fun place => ∀ path, step.report.outcome = .ok (.written path) →
      destination cwd path ≠ place) step.before step.after := by
  rcases h.cases with ⟨failure, -, hsame⟩ | ⟨text, file, definitions, -, -, -, hdeliver⟩
  · rw [hsame]
    exact .refl _ _
  · rcases delivered_spec hdeliver with ⟨-, -, hpersists⟩ | ⟨hwritten, -, hpersists⟩
    · exact hpersists.mono fun _ _ => trivial
    · exact hpersists.mono fun place hplace heq => hplace _ hwritten heq.symm

end FileStep

/-! ## All files -/

/-- The steps of a run that writes files, from one tree to another one. -/
inductive Trace (cwd : Place) (o : Options) (outDir : Option Path) :
    FileTree → List FileStep → FileTree → Prop where
  /-- No step is taken. -/
  | done (t : FileTree) : Trace cwd o outDir t [] t
  /-- One step, and more behind it. -/
  | step {step : FileStep} {steps : List FileStep} {last : FileTree}
      (taken : step.Taken cwd o outDir) (rest : Trace cwd o outDir step.after steps last) :
      Trace cwd o outDir step.before (step :: steps) last

namespace Trace

variable {cwd : Place} {o : Options} {outDir : Option Path} {t t' : FileTree}
  {steps : List FileStep}

theorem taken_of_mem (h : Trace cwd o outDir t steps t') {step : FileStep} (hstep : step ∈ steps) :
    step.Taken cwd o outDir := by
  induction h with
  | done t => simp at hstep
  | step taken _ ih =>
      rcases List.mem_cons.mp hstep with rfl | hrest
      · exact taken
      · exact ih hrest

/-- **A run keeps every file** at a place to which none of its steps delivers. -/
theorem persists (h : Trace cwd o outDir t steps t') :
    Persists (fun place => ∀ step ∈ steps, ∀ path, step.report.outcome = .ok (.written path) →
      destination cwd path ≠ place) t t' := by
  induction h with
  | done t => exact .refl _ t
  | step taken _ ih =>
      refine (taken.persists.mono ?_).trans (ih.mono ?_)
      · exact fun place hplace path hpath => hplace _ (by simp) path hpath
      · exact fun place hplace step hstep path hpath => hplace step (by simp [hstep]) path hpath

/-- The trace of a run over one file. -/
theorem exists_of_single (h : Trace cwd o outDir t steps t') {found : Found}
    (hfound : steps.map (·.found) = [found]) : ∃ report, steps = [⟨found, t, report, t'⟩] := by
  rcases steps with - | ⟨⟨own, before, report, after⟩, - | ⟨next, others⟩⟩
  · cases hfound
  · cases hfound
    cases h with
    | step taken rest =>
        cases rest
        exact ⟨report, rfl⟩
  · cases hfound

/-- A trace in front of and behind one of its steps. -/
theorem split {front back : List FileStep} {step : FileStep}
    (h : Trace cwd o outDir t (front ++ step :: back) t') :
    Trace cwd o outDir t front step.before ∧ step.Taken cwd o outDir ∧
      Trace cwd o outDir step.after back t' := by
  induction front generalizing t with
  | nil =>
      cases h with
      | step taken rest => exact ⟨.done _, taken, rest⟩
  | cons first others ih =>
      cases h with
      | step taken rest =>
          obtain ⟨hfront, hstep, hback⟩ := ih rest
          exact ⟨.step taken hfront, hstep, hback⟩

/-- Working through some files leaves a trace. -/
theorem exists_of_mapM {files : List Found} {reports : List FileReport}
    (h : files.mapM (generateFile (host cwd) false o outDir) t = (reports, t')) :
    ∃ steps, Trace cwd o outDir t steps t' ∧ steps.map (·.found) = files ∧
      steps.map (·.report) = reports := by
  induction files generalizing t reports with
  | nil =>
      cases h
      exact ⟨[], .done _, rfl, rfl⟩
  | cons found rest ih =>
      rw [List.mapM_cons, bind_apply, bind_apply] at h
      cases h
      obtain ⟨steps, htrace, hfound, hreports⟩ := ih rfl
      have htaken : FileStep.Taken cwd o outDir ⟨found, t,
          (generateFile (host cwd) false o outDir found t).1,
          (generateFile (host cwd) false o outDir found t).2⟩ := rfl
      refine ⟨_, .step htaken htrace, ?_, ?_⟩
      · rw [List.map_cons, hfound]
      · rw [List.map_cons, hreports]
        rfl

end Trace

/-! ## A run that writes a configuration -/

/-- The configuration that is asked for. -/
def InitArguments.config (a : InitArguments) : Config := ⟨.default, a.outDir⟩

/-- The write at the end, with its report. -/
theorem write_configured (cwd : Place) (path : Path) (text : String) (t : FileTree) :
    ((host cwd).write path text >>= fun
      | .ok () => pure .configured
      | .error e => pure (.fileError e) : StateM FileTree Report) t
      = match t.write cwd path text with
        | .ok written => (.configured, written)
        | .error e => (.fileError e, t) := by
  have hrun : (host cwd).write path text t = writing cwd path text t := rfl
  rw [bind_apply, hrun, writing]
  cases t.write cwd path text <;> rfl

theorem writeConfig_host (cwd : Place) (a : InitArguments) (t : FileTree) :
    writeConfig (host cwd) a t =
      if t.exists? cwd (configPath (host cwd)) && !a.force then (.configuredBefore, t)
      else match t.write cwd (configPath (host cwd)) a.config.writeIndented with
        | .ok written => (.configured, written)
        | .error e => (.fileError e, t) := by
  rw [writeConfig, bind_apply]
  show (if t.exists? cwd (configPath (host cwd)) && !a.force then _ else _ : StateM FileTree _) t
    = _
  split
  · rfl
  · exact write_configured cwd (configPath (host cwd)) a.config.writeIndented t

/-! ## A run over descriptor files -/

/-- The directory that generated files go to, if there is one: the one that is asked for, or the
one that is configured. -/
def GenerateArguments.outputDirectory? (a : GenerateArguments) (cwd : Path) (config : Config) :
    Option Path :=
  (a.outDir.map fun dir => cwd.join ⟨dir⟩) <|> config.outputDirectory? cwd

/-- A run over the descriptor files that are found in a tree, with the configuration that is found
there. -/
structure GenerateRun (cwd : Place) (a : GenerateArguments) (t t' : FileTree) where
  /-- The configuration. -/
  config : Config
  /-- What becomes of each descriptor file. -/
  steps : List FileStep
  configured : t.configuration cwd = .ok config
  found : steps.map (·.found) = t.descriptorFiles cwd ((host cwd).cwd.join ⟨a.path⟩)
  trace : Trace cwd (a.options config.emit) (a.outputDirectory? (host cwd).cwd config) t steps t'

namespace GenerateRun

variable {cwd : Place} {a : GenerateArguments} {t t' : FileTree}

/-- The options that the run works with. -/
def options (run : GenerateRun cwd a t t') : Options := a.options run.config.emit

/-- The directory that the files go to, if there is one. -/
def outDir (run : GenerateRun cwd a t t') : Option Path :=
  a.outputDirectory? (host cwd).cwd run.config

theorem taken_of_mem (run : GenerateRun cwd a t t') {step : FileStep} (hstep : step ∈ run.steps) :
    step.Taken cwd run.options run.outDir := run.trace.taken_of_mem hstep

end GenerateRun

/-- **A run with a configuration and something to look at** works through all files that it
finds. -/
theorem generateAll_of_found {σ : Type} {h : Host (StateM σ)} {a : GenerateArguments}
    {config : Config} {files : List Found} {s : σ}
    (hconfig : loadConfig h s = (.ok config, s))
    (hpresent : h.exists? (h.cwd.join ⟨a.path⟩) s = (true, s))
    (hfiles : findDescriptorFiles h (h.cwd.join ⟨a.path⟩) s = (files, s)) :
    generateAll h a s
      = (files.mapM (generateFile h a.stdout (a.options config.emit)
          (a.outputDirectory? h.cwd config)) s).map (.generated a.stdout) id := by
  rw [generateAll, bind_apply, hconfig]
  simp only [bind_apply, hpresent]
  rw [if_pos trivial, bind_apply, hfiles, bind_apply]
  rfl

theorem runIn_generate {cwd : Place} {arguments : List String} {a : GenerateArguments}
    {t t' : FileTree} {config : Config} {input : Path} {reports : List FileReport}
    (harguments : Request.ofArguments arguments = .generate a) (hprinting : a.stdout = false)
    (hconfig : t.configuration cwd = .ok config) (hinput : (host cwd).cwd.join ⟨a.path⟩ = input)
    (hexists : t.exists? cwd input = true)
    (hfiles : (t.descriptorFiles cwd input).mapM
      (generateFile (host cwd) false (a.options config.emit)
        (a.outputDirectory? (host cwd).cwd config)) t = (reports, t')) :
    runIn cwd arguments t = (.generated false reports, t') := by
  have hpresent : (host cwd).exists? input t = (true, t) := by
    rw [← hexists]
    rfl
  have hloaded : loadConfig (host cwd) t = (.ok config, t) := by rw [loadConfig_host, hconfig]
  have hrun : runIn cwd arguments t = generateAll (host cwd) a t := by
    rw [runIn, harguments]
    rfl
  subst hinput
  rw [hrun, generateAll_of_found hloaded hpresent (findDescriptorFiles_host cwd _ t), hprinting,
    hfiles]
  rfl

theorem exists_generateRun_of_generateAll {cwd : Place} {a : GenerateArguments} {t t' : FileTree}
    {reports : List FileReport}
    (h : generateAll (host cwd) a t = (.generated false reports, t')) :
    a.stdout = false ∧ ∃ run : GenerateRun cwd a t t', run.steps.map (·.report) = reports := by
  rw [generateAll, bind_apply, loadConfig_host] at h
  cases hconfig : t.configuration cwd with
  | error e =>
      simp only [hconfig] at h
      cases e <;> cases h
  | ok config =>
      simp only [hconfig, bind_apply] at h
      split at h
      · rw [bind_apply, findDescriptorFiles_host, bind_apply] at h
        have hprinting : a.stdout = false := by
          injection h with hreport
          injection hreport
        rw [hprinting] at h
        cases h
        obtain ⟨steps, htrace, hfound, hreports⟩ := Trace.exists_of_mapM rfl
        exact ⟨hprinting, ⟨config, steps, hconfig, hfound, htrace⟩, hreports⟩
      · cases h

/-- **Each run that writes files and ends with a report on them has a trace**, file by file. -/
theorem exists_generateRun {cwd : Place} {arguments : List String} {t t' : FileTree}
    {reports : List FileReport} (h : runIn cwd arguments t = (.generated false reports, t')) :
    ∃ a, Request.ofArguments arguments = .generate a ∧ a.stdout = false ∧
      ∃ run : GenerateRun cwd a t t', run.steps.map (·.report) = reports := by
  rw [runIn] at h
  cases hrequest : Request.ofArguments arguments with
  | generate a =>
      rw [hrequest] at h
      exact ⟨a, rfl, exists_generateRun_of_generateAll h⟩
  | init a =>
      -- A run that writes a configuration never reports on files.
      rw [hrequest] at h
      replace h : writeConfig (host cwd) a t = (.generated false reports, t') := h
      rw [writeConfig_host] at h
      split at h
      · cases h
      · split at h <;> cases h
  | version =>
      rw [hrequest] at h
      cases h
  | help =>
      rw [hrequest] at h
      cases h
  | invalid =>
      rw [hrequest] at h
      cases h

end Typings
