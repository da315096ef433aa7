import Typings.Json.Printer
import Typings.Json.Reader
import Typings.Options.Json
import Typings.Path.Basic

/-!
# Configuration

A directory may hold a configuration file, with the options for every file that is
generated and the directory that the files go to.

## Main definitions

* `Config`, `Config.fileName` — what is configured, and where.
* `Config.parse?`, `Config.write`, `Config.writeIndented` — the file as text.
* `Config.outputDirectory?` — where generated files go.
-/

namespace Typings

/-- What a configuration file says. -/
structure Config where
  /-- The options for every generated file. -/
  emit : Options
  /-- The directory for generated files. Without one they go beside their sources. -/
  outDir : Option String
  deriving DecidableEq, Repr, Inhabited

namespace Config

/-- The name of a configuration file. -/
def fileName : String := "tsdefgen.config.json"

/-- What holds without a configuration file. -/
protected def default : Config := ⟨.default, none⟩

/-- A configuration as an object. The directory is left out if there is none. -/
def toJson (c : Config) : Json :=
  .object (("emit", c.emit.toJson) ::
    match c.outDir with
    | some dir => [("outDir", .string dir)]
    | none => [])

/-- A configuration from an object, or from an array of its fields. -/
def ofJson? (v : Json) : Option Config := do
  let field ← v.fields? ["emit", "outDir"]
  let emit ← Json.withDefault Options.ofJson? .default (field "emit")
  let outDir ← Json.optional Json.string? (field "outDir")
  return ⟨emit, outDir⟩

/-- The configuration that a text spells. -/
def parse? (text : String) : Option Config := Json.parse? text >>= ofJson?

/-- The text of a configuration, without blanks. -/
def write (c : Config) : String := c.toJson.compact

/-- The text of a configuration, with one option on each line. -/
def writeIndented (c : Config) : String := c.toJson.indented

/-- The configured directory for generated files, as seen from a directory. -/
def outputDirectory? (c : Config) (cwd : Path) : Option Path :=
  c.outDir.map fun dir => cwd.join ⟨dir⟩

end Config

end Typings
