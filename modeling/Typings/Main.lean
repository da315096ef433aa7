import Typings.Command.Run

/-!
# The command line

The command, run in the working directory of the system.

## Main definitions

* `systemHost` — the file system as a host.
* `main` — the command.
-/

namespace Typings

/-- A failure told by the system. -/
def FileError.ofSystem : IO.Error → FileError
  | .noFileOrDirectory .. => .notFound
  | .alreadyExists .. => .alreadyExists
  | e => .other (toString e)

/-- Do something with files, and tell why it fails. -/
def attempt {α : Type} (action : IO α) : IO (Except FileError α) := do
  try return .ok (← action)
  catch e => return .error (.ofSystem e)

/-- Ask something about files. What cannot be answered is not so. -/
def ask (question : IO Bool) : IO Bool := do
  try question
  catch _ => return false

/-- Everything below a directory, each by the names on the way to it. A directory that leads
back to one of the directories around it is not entered. -/
partial def listBelow (native : String → IO String) (names : String → IO (List String))
    (around : List String) (dir : String) : IO (List (List String)) := do
  let real ← native dir
  if around.contains real then return []
  let mut found := []
  for name in ← names dir do
    let rest ← listBelow native names (real :: around) (dir ++ "/" ++ name)
    found := found ++ [name] :: rest.map (name :: ·)
  return found

/-- The file system as a host. Relative paths start at the working directory. -/
def systemHost : IO (Host IO) := do
  let here ← IO.currentDir
  let native := fun (text : String) => { here with toString := text }
  let isDirectory := fun (text : String) => ask (native text).isDir
  let names := fun (text : String) => do
    if ← isDirectory text then
      try return (← (native text).readDir).toList.map (·.fileName)
      catch _ => return []
    else return []
  let real := fun (text : String) => do
    try return (← IO.FS.realPath (native text)).toString
    catch _ => return text
  return {
    cwd := ⟨here.toString⟩
    exists? := fun p => ask (native p.text).pathExists
    isFile := fun p => ask do return (← (native p.text).metadata).type == .file
    read := fun p => do
      if ← isDirectory p.text then return .error .isDirectory
      attempt (IO.FS.readFile (native p.text))
    placesBelow := fun p => listBelow real names [] p.text
    createDirectories := fun p => do
      if p.text = "" then return .ok ()
      attempt (IO.FS.createDirAll (native p.text))
    write := fun p content => do
      if ← isDirectory p.text then return .error .isDirectory
      attempt (IO.FS.writeFile (native p.text) content) }

end Typings

/-- Do what the arguments ask for, and tell about it. -/
def main (arguments : List String) : IO UInt32 := do
  let report ← (Typings.Request.ofArguments arguments).run (← Typings.systemHost)
  let told := report.transcript
  IO.print told.out
  IO.eprint told.err
  return UInt32.ofNat report.exitCode
