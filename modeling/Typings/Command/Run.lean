import Typings.Command.Generate

/-!
# Running a command

## Main definitions

* `writeConfig` — writing a configuration file.
* `Request.run` — doing what is asked for.
* `runIn` — a run in a file tree.
* `LinkedTree.runIn` — a run in a file tree with symbolic links.
-/

namespace Typings

section

variable {m : Type → Type} [Monad m] (host : Host m)

/-- Write a configuration file with default options. One that is there already stays, unless
it is to be replaced. -/
def writeConfig (a : InitArguments) : m Report := do
  if (← host.exists? (configPath host)) && !a.force then return .configuredBefore
  else
    let config : Config := { Config.default with outDir := a.outDir }
    match ← host.write (configPath host) config.writeIndented with
    | .ok () => return .configured
    | .error e => return .fileError e

/-- Do what is asked for. -/
def Request.run : Request → m Report
  | .version => return .version
  | .help => return .help
  | .invalid => return .misuse
  | .init a => writeConfig host a
  | .generate a => generateAll host a

end

/-- Run a command in a directory of a file tree: the report, and the tree afterwards. -/
def runIn (cwd : FileTree.Place) (arguments : List String) (t : FileTree) : Report × FileTree :=
  (Request.ofArguments arguments).run (FileTree.host cwd) t

/-- Run a command in a directory of a file tree with symbolic links. -/
def LinkedTree.runIn (cwd : FileTree.Place) (arguments : List String) (s : LinkedTree) :
    Report × LinkedTree :=
  (Request.ofArguments arguments).run (LinkedTree.host cwd) s

end Typings
