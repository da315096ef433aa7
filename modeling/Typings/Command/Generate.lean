import Typings.Command.Arguments
import Typings.Command.Host
import Typings.Command.Report
import Typings.Config
import Typings.Definitions
import Typings.Descriptor.Json

/-!
# Generating definition files

Every descriptor file below a path becomes a definition file, each by itself and in the
order of their paths. A file that fails does not keep the others from being generated.

## Main definitions

* `loadConfig` — the configuration of the working directory.
* `findDescriptorFiles` — the descriptor files below a path.
* `generateFile` — one definition file.
* `generateAll` — all of them.
-/

namespace Typings

section

variable {m : Type → Type} [Monad m] (host : Host m)

/-! ## Configuration -/

/-- Where the configuration of the working directory is kept. -/
def configPath : Path := host.cwd.join ⟨Config.fileName⟩

/-- Why there is no configuration to work with. -/
inductive ConfigError where
  /-- The file cannot be read. -/
  | file (error : FileError)
  /-- The file is not formed as it should be. -/
  | invalid
  deriving DecidableEq, Repr

/-- The report on a run without a configuration. -/
def ConfigError.report : ConfigError → Report
  | .file error => .fileError error
  | .invalid => .invalidConfig

/-- The configuration of the working directory: what its file says, or the default if there is
no file. -/
def loadConfig : m (Except ConfigError Config) := do
  if ← host.exists? (configPath host) then
    match ← host.read (configPath host) with
    | .error e => return .error (.file e)
    | .ok text =>
      match Config.parse? text with
      | some config => return .ok config
      | none => return .error .invalid
  else return .ok .default

/-- The configured options, with what is asked for on the command line. -/
def GenerateArguments.options (a : GenerateArguments) (o : Options) : Options :=
  { o with
    declareModule := o.declareModule || a.declareModule
    missingReferences := if a.strict then .fail else o.missingReferences }

/-! ## The descriptor files -/

/-- A descriptor file: its path, and the names on the way to it from where the search began. -/
structure Found where
  /-- The path. -/
  path : Path
  /-- The names on the way to it. -/
  place : List String
  deriving DecidableEq, Repr

/-- How a descriptor file is called in a report. -/
def Found.name (f : Found) : String := "/".intercalate f.place

/-- The ending of the names of descriptor files. -/
def descriptorEnding : String := ".types.json"

/-- Whether a name is that of a descriptor file. -/
def isDescriptorName (name : String) : Bool :=
  descriptorEnding.toList.isSuffixOf name.toList

/-- Something below a path, by the names on the way to it. -/
def Found.below (input : Path) (place : List String) : Found := ⟨input.along place, place⟩

/-- Whether something below a path is called like a descriptor file. The path itself counts with
its own name. -/
def isDescriptorPlace (input : Path) (place : List String) : Bool :=
  isDescriptorName (place.getLast?.getD (input.fileName?.getD input.text))

/-- The descriptor files at or below a path, in the order of their paths. A path to a file is
taken as it is. -/
def findDescriptorFiles (input : Path) : m (List Found) := do
  if ← host.isFile input then return [⟨input, []⟩]
  else
    let places := [] :: (← host.placesBelow input)
    let found := (places.filter (isDescriptorPlace input)).map (Found.below input)
    return found.mergeSort fun a b => !(b.path.precedes a.path)

/-! ## One definition file -/

/-- Where the definition file for a source file goes: into a directory, or beside the source. -/
def outputPath (o : Options) (outDir : Option Path) (source : Path) : Path :=
  match outDir with
  | some dir => dir.join ⟨o.outputFileName source⟩
  | none => source.withFileName (o.outputFileName source)

/-- Where the sources of the bases in a descriptor file are expected. -/
def expectedSources (o : Options) (f : DescriptorFile) : List Path :=
  (Names.ofTypes o f.types).bases.toList.map (expectedBaseSource o f.sourcePath)

/-- Write a file and the directories on the way to it. -/
def deliver (path : Path) (text : String) : m (Except Failure Delivery) := do
  let made ← match path.parent? with
    | some dir => host.createDirectories dir
    | none => pure (.ok ())
  match made with
  | .error e => return .error (.file e)
  | .ok () =>
    match ← host.write path text with
    | .error e => return .error (.file e)
    | .ok () => return .ok (.written path)

/-- Generate the definition file for a descriptor file. -/
def generateFile (printing : Bool) (o : Options) (outDir : Option Path) (found : Found) :
    m FileReport := do
  match ← host.read found.path with
  | .error e => return ⟨found.name, [], .error (.file e)⟩
  | .ok text =>
    match DescriptorFile.parse? text with
    | none => return ⟨found.name, [], .error (.invalid found.path)⟩
    | some file =>
      let present ← (expectedSources o file).filterM host.isFile
      match generate o file.types file.sourcePath (fun p => p ∈ present) with
      | .error what => return ⟨found.name, [], .error (.missing what)⟩
      | .ok definitions =>
        let outcome ←
          if printing then pure (.ok (.printed definitions.text))
          else deliver host (outputPath o outDir file.sourcePath) definitions.text
        return ⟨found.name, definitions.warnings, outcome⟩

/-! ## All definition files -/

/-- Generate the definition files that are asked for. -/
def generateAll (a : GenerateArguments) : m Report := do
  match ← loadConfig host with
  | .error e => return e.report
  | .ok config =>
    let o := a.options config.emit
    let asked := a.outDir.map fun dir => host.cwd.join ⟨dir⟩
    let outDir := asked <|> config.outputDirectory? host.cwd
    let input := host.cwd.join ⟨a.path⟩
    if ← host.exists? input then
      let found ← findDescriptorFiles host input
      return .generated a.stdout (← found.mapM (generateFile host a.stdout o outDir))
    else return .noInput input

end

end Typings
