import Typings.Proofs.Command.Batch
import Typings.Proofs.Path.Order

/-!
# Printing definitions

A run that prints its definitions is there to be read by another program. So it keeps the two
outputs apart: a line is either a part of a definition file or a message, and the messages all go
to standard error, however the run ends. Such a run never changes the file tree, and so each file
is generated from the tree that the run starts in.

## Main definitions

* `Transcript.ofLines` — the lines on the two outputs.
* `Report.messages` — the messages of a run that generates definitions.
* `FileTree.askedFiles`, `FileTree.askedDefinitions` — what a run is asked for.

## Main results

* `fileSteps_printing` — the steps of a run that prints.
* `Report.filesTranscript_printing` — its transcript.
* `printing_is_pure` — a run that prints only prints.
-/

namespace Typings

open FileTree

/-! ## Lines -/

namespace Transcript

/-- Some lines, each with its end. -/
def lines (ls : List String) : String := String.join (ls.map (· ++ "\n"))

/-- The transcript with some lines on standard output and some on standard error. -/
def ofLines (out err : List String) : Transcript := ⟨lines out, lines err⟩

theorem lines_append (a b : List String) : lines (a ++ b) = lines a ++ lines b := by
  rw [lines, List.map_append, String.join_append]
  rfl

theorem ofLines_append (out out' err err' : List String) :
    ofLines out err ++ ofLines out' err' = ofLines (out ++ out') (err ++ err') := by
  show (⟨lines out ++ lines out', lines err ++ lines err'⟩ : Transcript) = _
  rw [← lines_append, ← lines_append]
  rfl

theorem outLine_eq (line : String) : outLine line = ofLines [line] [] := by
  simp [outLine, ofLines, lines]

theorem errLine_eq (line : String) : errLine line = ofLines [] [line] := by
  simp [errLine, ofLines, lines]

theorem status_printing (line : String) : status true line = ofLines [] [line] := errLine_eq line

theorem concat_map {α : Type} (out err : α → List String) (xs : List α) :
    concat (xs.map fun x => ofLines (out x) (err x))
      = ofLines (xs.flatMap out) (xs.flatMap err) := by
  induction xs with
  | nil => rfl
  | cons x rest ih =>
      show ofLines (out x) (err x) ++ concat (rest.map fun x => ofLines (out x) (err x)) = _
      rw [ih, ofLines_append, List.flatMap_cons, List.flatMap_cons]

/-- The lines about what ended a run. -/
def failureLines (message : String) : List String := ["", "Error: " ++ message, ""]

theorem failure_eq (message : String) : failure message = ofLines [] (failureLines message) := by
  rw [failure, errLine_eq, errLine_eq]
  exact concat_map (fun _ => []) (fun line => [line]) (failureLines message)

end Transcript

open Transcript hiding failure

/-! ## Messages -/

namespace FileReport

/-- The definitions that are printed. -/
def printed (r : FileReport) : List String :=
  match r.outcome with
  | .ok (.printed text) => [text]
  | _ => []

/-- The messages about one descriptor file. -/
def messages (r : FileReport) : List String :=
  r.warnings.map (fun what => "    ⚠ " ++ what.message) ++
    [match r.outcome with
      | .ok delivery => "  ✓ " ++ r.name ++ " → " ++ delivery.target
      | .error failure => "  ✗ " ++ r.name ++ " - " ++ failure.message]

/-- A report on one file prints definitions and tells messages. -/
theorem transcript_printing (r : FileReport) :
    r.transcript true = ofLines r.printed r.messages := by
  have hwarnings : concat (r.warnings.map fun what => errLine ("    ⚠ " ++ what.message))
      = ofLines [] (r.warnings.map fun what => "    ⚠ " ++ what.message) := by
    have hconcat := concat_map (fun _ => []) (fun what : Missing => ["    ⚠ " ++ what.message])
      r.warnings
    simp only [← errLine_eq] at hconcat
    rw [hconcat, List.flatMap_eq_nil_iff.mpr fun _ _ => rfl, ← List.map_eq_flatMap]
  rw [transcript, printed, messages, hwarnings]
  cases r.outcome with
  | error failure =>
      simp only [errLine_eq]
      rw [ofLines_append, List.append_nil]
  | ok delivery =>
      simp only [status_printing]
      cases delivery with
      | printed text =>
          show _ ++ (outLine text ++ _) = _
          rw [outLine_eq, ofLines_append, ofLines_append]
          rfl
      | written path =>
          show _ ++ (ofLines [] [] ++ _) = _
          rw [ofLines_append, ofLines_append]
          rfl

end FileReport

namespace Report

/-- The messages at the end. -/
def summaryMessages (files : List FileReport) : List String :=
  if failed files = 0 then
    ["✅ Generated " ++ toString (succeeded files) ++ " files successfully"]
  else failureLines (tally files)

/-- The messages about all descriptor files. -/
def filesMessages (files : List FileReport) : List String :=
  "🔨 Generating definitions..." ::
    if files.isEmpty then ["⚠️  No descriptor files found"]
    else
      ("Found " ++ toString files.length ++ " files") ::
        (files.flatMap FileReport.messages ++ "" :: summaryMessages files)

/-- The messages of a run that generates definitions. The other reports are not about such a
run. -/
def messages : Report → List String
  | .fileError error => failureLines error.message
  | .invalidConfig => failureLines invalidConfigMessage
  | .noInput path => failureLines ("Input path does not exist: " ++ path.text)
  | .generated _ files => filesMessages files
  | .version | .help | .misuse | .configured | .configuredBefore => []

theorem summary_printing (files : List FileReport) :
    summary true files = ofLines [] (summaryMessages files) := by
  rw [summary, summaryMessages]
  split
  · exact status_printing _
  · exact failure_eq _

/-- **A run that prints** tells its messages apart from its definitions. -/
theorem filesTranscript_printing (files : List FileReport) :
    filesTranscript true files
      = ofLines (files.flatMap FileReport.printed) (filesMessages files) := by
  have hfiles : concat (files.map (FileReport.transcript true))
      = ofLines (files.flatMap FileReport.printed) (files.flatMap FileReport.messages) := by
    rw [← concat_map]
    exact congrArg concat (List.map_congr_left fun r _ => r.transcript_printing)
  rw [filesTranscript, filesMessages, status_printing]
  cases files with
  | nil =>
      rw [List.isEmpty_nil, if_pos rfl, if_pos rfl, status_printing, ofLines_append]
      rfl
  | cons first rest =>
      rw [if_neg (by simp), if_neg (by simp), status_printing, hfiles, status_printing,
        summary_printing]
      simp only [ofLines_append, List.nil_append, List.append_nil]
      simp

end Report

/-! ## Steps -/

section

variable {cwd : Place} {o : Options} {outDir : Option Path}

/-- A step of a run that prints leaves the tree as it is. -/
theorem fileStep_printing (found : Found) (t : FileTree) :
    fileStep cwd true o outDir found t
      = ⟨found, t, (handOver cwd true o outDir found t (t.generated cwd o found)).1, t⟩ := by
  rw [fileStep, generateFile_eq_handOver]
  cases t.generated cwd o found <;> rfl

/-- **The steps of a run that prints** all start in the tree that the run starts in. -/
theorem fileSteps_printing (files : List Found) (t : FileTree) :
    fileSteps cwd true o outDir files t
      = files.map fun found => fileStep cwd true o outDir found t := by
  induction files with
  | nil => rfl
  | cons found rest ih =>
      have hafter : (fileStep cwd true o outDir found t).after = t := by rw [fileStep_printing]
      rw [fileSteps, List.map_cons, ← ih, hafter]

theorem behind_printing (files : List Found) (t : FileTree) :
    behind t (fileSteps cwd true o outDir files t) = t := by
  induction files with
  | nil => rfl
  | cons found rest ih =>
      have hafter : (fileStep cwd true o outDir found t).after = t := by rw [fileStep_printing]
      rw [fileSteps, behind, hafter, ih]

/-- What is printed for a descriptor file is what is generated for it. -/
theorem printed_fileStep (found : Found) (t : FileTree) :
    (fileStep cwd true o outDir found t).report.printed
      = ((t.generated cwd o found).toOption.map (·.2.text)).toList := by
  rw [fileStep_printing]
  cases t.generated cwd o found <;> rfl

end

/-! ## Runs -/

namespace FileTree

/-- The descriptor files that are asked for: none without a configuration or without anything to
look at. -/
def askedFiles (cwd : Place) (a : GenerateArguments) (t : FileTree) : List Found :=
  match t.configuration cwd with
  | .error _ => []
  | .ok _ => if t.exists? cwd (a.input cwd) then t.descriptorFiles cwd (a.input cwd) else []

/-- The definitions that are asked for, from the files from which they can be generated. -/
def askedDefinitions (cwd : Place) (a : GenerateArguments) (t : FileTree) : List Definitions :=
  match t.configuration cwd with
  | .error _ => []
  | .ok config => (t.askedFiles cwd a).filterMap fun found =>
      (t.generated cwd (a.options config.emit) found).toOption.map (·.2)

/-- The files are asked for in the order of their paths. -/
theorem pairwise_askedFiles (cwd : Place) (a : GenerateArguments) (t : FileTree) :
    (t.askedFiles cwd a).Pairwise fun x y => y.path.precedes x.path = false := by
  unfold askedFiles
  split
  · exact .nil
  · split
    · rw [descriptorFiles]
      split
      · exact List.pairwise_singleton _ _
      · exact Path.pairwise_mergeSort_precedes Found.path _
    · exact .nil

end FileTree

/-- What a run that prints leaves behind: the tree as it was, the definitions on standard output,
and the messages on standard error. -/
structure PrintsOnly (cwd : Place) (a : GenerateArguments) (t : FileTree) (r : Report × FileTree) :
    Prop where
  unchanged : r.2 = t
  told : r.1.transcript = ofLines ((t.askedDefinitions cwd a).map (·.text)) r.1.messages
  sorted : (t.askedFiles cwd a).Pairwise fun x y => y.path.precedes x.path = false

theorem printsOnly_batch {cwd : Place} {arguments : List String} {t : FileTree}
    (b : Batch cwd arguments t) (hprinting : b.request.stdout = true) :
    PrintsOnly cwd b.request t (runIn cwd arguments t) := by
  have hsteps : b.steps
      = b.files.map fun found => fileStep cwd true b.options b.outDir found t := by
    rw [Batch.steps, Batch.printing, hprinting, fileSteps_printing]
  have hlast : b.last = t := by
    rw [Batch.last, Batch.steps, Batch.printing, hprinting, behind_printing]
  have htranscript : (Report.generated b.printing b.reports).transcript
      = ofLines (b.reports.flatMap FileReport.printed) (Report.filesMessages b.reports) := by
    rw [Batch.printing, hprinting]
    exact Report.filesTranscript_printing b.reports
  have hfiles : t.askedFiles cwd b.request = b.files := by
    unfold askedFiles
    rw [b.configured]
    exact if_pos b.present
  have hprinted : b.reports.flatMap FileReport.printed
      = (t.askedDefinitions cwd b.request).map (·.text) := by
    unfold askedDefinitions
    rw [b.configured, hfiles, Batch.reports, hsteps, List.map_map, List.flatMap_map]
    simp only [List.map_filterMap, Function.comp_apply, printed_fileStep]
    rw [List.filterMap_eq_flatMap_toList]
    simp [Batch.options, Option.map_map, Function.comp_def]
  rw [b.run_eq]
  refine ⟨hlast, ?_, pairwise_askedFiles cwd b.request t⟩
  rw [← hprinted]
  exact htranscript

theorem transcript_configError (e : ConfigError) :
    e.report.transcript = ofLines [] e.report.messages := by
  cases e with
  | file error => exact failure_eq _
  | invalid => exact failure_eq _

/-- **A run that prints only prints**, however it ends. -/
theorem printing_is_pure {arguments : List String} {a : GenerateArguments}
    (harguments : Request.ofArguments arguments = .generate a) (hprinting : a.stdout = true)
    (cwd : Place) (t : FileTree) : PrintsOnly cwd a t (runIn cwd arguments t) := by
  rcases Batch.runIn_cases harguments cwd t with ⟨e, hconfig, hrun⟩ | ⟨hexists, hrun⟩ |
    ⟨b, rfl⟩
  · have hnothing : t.askedDefinitions cwd a = [] := by
      unfold askedDefinitions
      rw [hconfig]
    rw [hrun]
    refine ⟨rfl, ?_, pairwise_askedFiles cwd a t⟩
    rw [hnothing]
    exact transcript_configError e
  · have hnothing : t.askedDefinitions cwd a = [] := by
      unfold askedDefinitions
      split
      · rfl
      · rename_i config hconfig
        unfold askedFiles
        rw [hconfig]
        simp [hexists]
    rw [hrun]
    refine ⟨rfl, ?_, pairwise_askedFiles cwd a t⟩
    rw [hnothing]
    exact failure_eq _
  · exact printsOnly_batch b hprinting

/-- What is asked for when definitions are to be printed. -/
def printingRequest : GenerateArguments := { stdout := true }

/-- One file fails, and the definitions from the other one are all that is printed. -/
theorem printing_halfTree :
    ∃ definitions, halfTree.generated [] .default wholeFound = .ok (⟨"/B.cs"⟩, definitions) ∧
      (runIn [] ["generate", "--stdout"] halfTree).2 = halfTree ∧
      (runIn [] ["generate", "--stdout"] halfTree).1.transcript.out = lines [definitions.text] := by
  have harguments : Request.ofArguments ["generate", "--stdout"] = .generate printingRequest := by
    decide +kernel
  obtain ⟨hunchanged, htold, -⟩ := printing_is_pure harguments rfl [] halfTree
  obtain ⟨definitions, hgenerate⟩ := exists_generate_eq_ok (o := .default) rfl [] ⟨"/B.cs"⟩
    (halfTree.isFile [])
  have hread : halfTree.read [] wholeFound.path = .ok "\x7b\"sourcePath\":\"/B.cs\"\x7d" := rfl
  have hparsed : DescriptorFile.parse? "\x7b\"sourcePath\":\"/B.cs\"\x7d"
      = some ⟨⟨"/B.cs"⟩, []⟩ := rfl
  have hgenerated : halfTree.generated [] .default wholeFound = .ok (⟨"/B.cs"⟩, definitions) := by
    rw [generated, hread]
    simp only [hparsed, hgenerate]
  have hbroken : halfTree.generated [] .default brokenFound
      = .error (.invalid brokenFound.path) := rfl
  have hinput : printingRequest.input [] = ⟨"/."⟩ := by decide +kernel
  have hconfig : halfTree.configuration [] = .ok .default := rfl
  have hoptions : printingRequest.options Config.default.emit = .default := rfl
  have hasked : halfTree.askedDefinitions [] printingRequest = [definitions] := by
    unfold askedDefinitions askedFiles
    rw [hconfig]
    simp only [hinput, hoptions]
    rw [if_pos (by decide +kernel), descriptorFiles_halfTree]
    simp [hgenerated, hbroken, Except.toOption]
  refine ⟨definitions, hgenerated, hunchanged, ?_⟩
  rw [htold, hasked]
  rfl

end Typings
