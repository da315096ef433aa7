import Typings.FileTree.Basic
import Typings.Import.Missing
import Typings.Version

/-!
# What a run tells

A run ends with a report. The report says what is written to standard output and to
standard error, and the exit code.

## Main definitions

* `Transcript` — the two outputs.
* `Failure`, `Delivery`, `FileReport` — what became of one descriptor file.
* `Report` — what became of a run, with `Report.transcript` and `Report.exitCode`.
-/

namespace Typings

/-! ## Transcripts -/

/-- What is written to the two outputs. -/
structure Transcript where
  /-- Standard output. -/
  out : String
  /-- Standard error. -/
  err : String
  deriving DecidableEq, Repr, Inhabited

namespace Transcript

/-- Nothing. -/
def empty : Transcript := ⟨"", ""⟩

/-- One transcript after the other. -/
def append (a b : Transcript) : Transcript := ⟨a.out ++ b.out, a.err ++ b.err⟩

instance : Append Transcript := ⟨append⟩

/-- Some transcripts, one after the other. -/
def concat (parts : List Transcript) : Transcript := parts.foldr (· ++ ·) empty

/-- A line on standard output. -/
def outLine (line : String) : Transcript := ⟨line ++ "\n", ""⟩

/-- A line on standard error. -/
def errLine (line : String) : Transcript := ⟨"", line ++ "\n"⟩

/-- A line about the progress. It goes to standard error when definitions are printed. -/
def status (printing : Bool) (line : String) : Transcript :=
  if printing then errLine line else outLine line

/-- The lines about what ended a run. -/
def failure (message : String) : Transcript :=
  concat [errLine "", errLine ("Error: " ++ message), errLine ""]

end Transcript

/-! ## One descriptor file -/

/-- Why there is no definition file for a descriptor file. -/
inductive Failure where
  /-- A file cannot be read or written. -/
  | file (error : FileError)
  /-- The descriptor file is not formed as it should be. -/
  | invalid (path : Path)
  /-- A reference leads nowhere, and that is a failure. -/
  | missing (what : Missing)
  deriving DecidableEq, Repr

/-- How a failure is told. -/
def Failure.message : Failure → String
  | .file error => error.message
  | .invalid path => "Invalid descriptor file " ++ path.text
  | .missing what => what.message

/-- Where a definition file went. -/
inductive Delivery where
  /-- It is printed. -/
  | printed (text : String)
  /-- It is written to a file. -/
  | written (path : Path)
  deriving DecidableEq, Repr

/-- How it is told where a definition file went. -/
def Delivery.target : Delivery → String
  | .printed _ => "stdout"
  | .written path => path.text

/-- What is printed. -/
def Delivery.transcript : Delivery → Transcript
  | .printed text => .outLine text
  | .written _ => .empty

/-- What became of one descriptor file. -/
structure FileReport where
  /-- The descriptor file, as seen from where the search began. -/
  name : String
  /-- What is missing in the definition file. -/
  warnings : List Missing
  /-- Where the definition file went, or why there is none. -/
  outcome : Except Failure Delivery

namespace FileReport

/-- Whether there is a definition file. -/
def succeeded (r : FileReport) : Bool := r.outcome.isOk

/-- What is told about one descriptor file. -/
def transcript (printing : Bool) (r : FileReport) : Transcript :=
  let warnings := r.warnings.map fun what => Transcript.errLine ("    ⚠ " ++ what.message)
  Transcript.concat warnings ++
    match r.outcome with
    | .ok delivery =>
      delivery.transcript ++
        .status printing ("  ✓ " ++ r.name ++ " → " ++ delivery.target)
    | .error failure => .errLine ("  ✗ " ++ r.name ++ " - " ++ failure.message)

end FileReport

/-! ## A run -/

/-- What became of a run. -/
inductive Report where
  /-- The version was asked for. -/
  | version
  /-- Help was asked for. -/
  | help
  /-- The arguments make no sense. -/
  | misuse
  /-- A configuration file was written. -/
  | configured
  /-- There was a configuration file already. -/
  | configuredBefore
  /-- A file cannot be read or written. -/
  | fileError (error : FileError)
  /-- The configuration file is not formed as it should be. -/
  | invalidConfig
  /-- There is nothing at the path that was asked for. -/
  | noInput (path : Path)
  /-- What became of each descriptor file, and whether definitions were to be printed. -/
  | generated (printing : Bool) (files : List FileReport)

namespace Report

/-- How the command is used. -/
def usage : String :=
  "Usage: tsdefgen <COMMAND>\n\nCommands:\n"
    ++ "  init      Write a default tsdefgen.config.json\n"
    ++ "  generate  Generate definition files from descriptor files\n"
    ++ "  help      Print this message"

/-- How it is told that the configuration file is not formed as it should be. -/
def invalidConfigMessage : String := "tsdefgen.config.json is not a valid configuration"

/-- The number of descriptor files with a definition file. -/
def succeeded (files : List FileReport) : Nat := files.countP FileReport.succeeded

/-- The number of descriptor files without a definition file. -/
def failed (files : List FileReport) : Nat := files.countP (!·.succeeded)

/-- How many files were generated and how many were not. -/
def tally (files : List FileReport) : String :=
  "Generated " ++ toString (succeeded files) ++ " files, " ++ toString (failed files) ++ " failed"

/-- What is told at the end, when the progress has been told. -/
def summary (printing : Bool) (files : List FileReport) : Transcript :=
  if failed files = 0 then
    .status printing ("✅ Generated " ++ toString (succeeded files) ++ " files successfully")
  else .failure (tally files)

/-- What is told about the descriptor files of a run. -/
def filesTranscript (printing : Bool) (files : List FileReport) : Transcript :=
  .status printing "🔨 Generating definitions..." ++
    if files.isEmpty then .status printing "⚠️  No descriptor files found"
    else
      .status printing ("Found " ++ toString files.length ++ " files")
        ++ Transcript.concat (files.map (FileReport.transcript printing))
        ++ .status printing "" ++ summary printing files

/-- What is told about a new configuration file. -/
def configuredTranscript : Transcript :=
  .concat [
    .outLine "  ✓ Created tsdefgen.config.json", .outLine "", .outLine "Next steps:",
    .outLine "  1. Export descriptors as *.types.json next to your sources",
    .outLine "  2. Run: tsdefgen generate"]

/-- What is told about a run. -/
def transcript : Report → Transcript
  | .version => .outLine ("tsdefgen " ++ Typings.version)
  | .help => .outLine usage
  | .misuse => .errLine usage
  | .configured => configuredTranscript
  | .configuredBefore =>
    .outLine "⚠️ tsdefgen.config.json already exists" ++ .outLine "Use --force to overwrite"
  | .fileError error => .failure error.message
  | .invalidConfig => .failure invalidConfigMessage
  | .noInput path => .failure ("Input path does not exist: " ++ path.text)
  | .generated printing files => filesTranscript printing files

/-- The exit code of a run. -/
def exitCode : Report → Nat
  | .misuse => 2
  | .fileError _ | .invalidConfig | .noInput _ => 1
  | .generated _ files => if failed files = 0 then 0 else 1
  | _ => 0

end Report

end Typings
