import Typings.FileTree.Basic

/-!
# Changing file trees

Making directories and writing files. A failed operation leaves the tree as it was, except
that `createDirectories` keeps the directories that it has made on the way.

## Main definitions

* `FileTree.put` — a node at a place.
* `FileTree.makeDirectory`, `FileTree.createDirectories`, `FileTree.write`.
-/

namespace Typings.FileTree

/-! ## Nodes at places -/

/-- Some entries, with a node under a name: in place of the entry with that name, or behind
the others. -/
def putEntry (name : String) (node : FileTree) :
    List (String × FileTree) → List (String × FileTree)
  | [] => [(name, node)]
  | entry :: rest =>
    if entry.1 = name then (name, node) :: rest else entry :: putEntry name node rest

/-- A tree with a node at a place. Only the last directory on the way may lack an entry. -/
def put (node : FileTree) : Place → FileTree → FileTree
  | [], _ => node
  | _ :: _, .file content => .file content
  | [name], .directory entries => .directory (putEntry name node entries)
  | name :: rest, .directory entries =>
    match entries.lookup name with
    | some child => .directory (putEntry name (put node rest child) entries)
    | none => .directory entries

theorem lookup_putEntry (name other : String) (node : FileTree)
    (entries : List (String × FileTree)) :
    (putEntry name node entries).lookup other =
      if other = name then some node else entries.lookup other := by
  induction entries with
  | nil => grind [putEntry]
  | cons entry rest ih =>
    by_cases h : entry.1 = name <;> by_cases e : other = name <;> grind [putEntry]

/-! ## Making directories -/

/-- The directory that a new entry would stand in, some steps from a place, and the name of the
entry. Steps that end with `.` or `..` name no entry: `refusal` says what is wrong then. -/
def target (t : FileTree) (place : Place) (pieces : List String) (refusal : FileError) :
    Except FileError (Place × String) :=
  match pieces.getLast? with
  | none => .error refusal
  | some piece => do
    let dir ← t.walk place (pieces.dropLast ++ ["."])
    if Path.isIdle piece || piece = ".." then .error refusal
    else return (dir, ← entryName piece)

/-- Make a directory where there is nothing yet, some steps from a place. -/
def makeDirectoryFrom (t : FileTree) (place : Place) (pieces : List String) :
    Except FileError FileTree := do
  let (dir, name) ← t.target place pieces .alreadyExists
  match t.at? (dir ++ [name]) with
  | some _ => .error .alreadyExists
  | none => .ok (put (.directory []) (dir ++ [name]) t)

/-- Make a directory where there is nothing yet. -/
def makeDirectory (t : FileTree) (cwd : Place) (p : Path) : Except FileError FileTree := do
  t.makeDirectoryFrom (start cwd p) (Text.dropEndWhile (· = "") (← pieces p))

/-- A path and the directories above it, up to a number of steps. -/
def ancestors : Nat → Path → List Path
  | 0, p => [p]
  | steps + 1, p =>
    match p.parent? with
    | some q => p :: ancestors steps q
    | none => [p]

/-- Make the first of some directories, each of which stands in the next one, with an operation
that makes one directory. Those that are there already are left as they are. What is left is told
also after a failure. -/
def createChain {σ : Type} (make : Path → σ → Except FileError σ) (isDirectory : Path → σ → Bool) :
    List Path → σ → σ × Except FileError Unit
  | [], s => (s, .error .notFound)
  | p :: rest, s =>
    if p.text = "" then (s, .ok ())
    else
      match make p s with
      | .ok made => (made, .ok ())
      | .error .notFound =>
        match createChain make isDirectory rest s with
        | (s, .error e) => (s, .error e)
        | (s, .ok ()) =>
          match make p s with
          | .ok made => (made, .ok ())
          | .error e => (s, if isDirectory p s then .ok () else .error e)
      | .error e => (s, if isDirectory p s then .ok () else .error e)

/-- Make a directory and all directories on the way to it. -/
def createDirectories (t : FileTree) (cwd : Place) (p : Path) :
    FileTree × Except FileError Unit :=
  createChain (fun p t => t.makeDirectory cwd p) (fun p t => t.isDirectory cwd p)
    (ancestors p.segments.length p) t

/-! ## Writing files -/

/-- Write a file, some steps from a place, in place of the one that is there. -/
def writeFrom (t : FileTree) (place : Place) (pieces : List String) (content : String) :
    Except FileError FileTree := do
  let (dir, name) ← t.target place pieces .isDirectory
  match t.at? (dir ++ [name]) with
  | some (.directory _) => .error .isDirectory
  | _ => .ok (put (.file content) (dir ++ [name]) t)

/-- Write a file, in place of the one that is there. -/
def write (t : FileTree) (cwd : Place) (p : Path) (content : String) :
    Except FileError FileTree := do
  t.writeFrom (start cwd p) (← pieces p) content

end Typings.FileTree
