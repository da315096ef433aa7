import Typings.Path.Basic

/-!
# File trees

A file tree is what a file system holds: files with their contents, in directories. Paths
are resolved step by step against the tree, so `..` leaves a directory that must be there,
and a file has no entries, not even `.`.

A tree holds no symbolic links, although a command follows them where there are some: what is
said of runs in a file tree is said of places without links. `LinkedTree` is a tree that holds
links. There are no access rights either: whatever is there can be read and written.

## Main definitions

* `FileTree` — the tree.
* `FileError` — why an operation on files fails.
* `FileTree.walk`, `FileTree.locate` — resolving a path.
* `FileTree.isFile`, `FileTree.isDirectory`, `FileTree.exists?`, `FileTree.read` — what a path
  leads to.
* `FileTree.placesBelow` — everything under a directory.
-/

namespace Typings

/-- A file with its content, or a directory with its entries. There are no symbolic links. -/
inductive FileTree where
  /-- A file. -/
  | file (content : String)
  /-- A directory. -/
  | directory (entries : List (String × FileTree))
  deriving Inhabited

/-! ## Failures -/

/-- Why an operation on files fails. -/
inductive FileError where
  /-- There is nothing at the end of the path. -/
  | notFound
  /-- There is something already. -/
  | alreadyExists
  /-- The path goes through a file. -/
  | notDirectory
  /-- A directory stands where a file was expected. -/
  | isDirectory
  /-- A name is longer than 255 bytes, or the path is longer than 4095. -/
  | nameTooLong
  /-- The path holds a character that no name can hold. -/
  | nulByte
  /-- Something else, told by the system. -/
  | other (text : String)
  deriving DecidableEq, Repr, Inhabited

/-- How a failure is told. -/
def FileError.message : FileError → String
  | .notFound => "No such file or directory (os error 2)"
  | .alreadyExists => "File exists (os error 17)"
  | .notDirectory => "Not a directory (os error 20)"
  | .isDirectory => "Is a directory (os error 21)"
  | .nameTooLong => "File name too long (os error 36)"
  | .nulByte => "file name contained an unexpected NUL byte"
  | .other text => text

namespace FileTree

/-- A place in a tree: the names on the way from the root. -/
abbrev Place := List String

/-! ## Resolving paths -/

/-- The entry of a directory with a name. -/
def child? (name : String) : FileTree → Option FileTree
  | .directory entries => entries.lookup name
  | .file _ => none

/-- What stands at a place. -/
def at? (t : FileTree) : Place → Option FileTree
  | [] => some t
  | name :: rest =>
    match t.child? name with
    | some child => child.at? rest
    | none => none

/-- The name of an entry, if it is not too long. -/
def entryName (name : String) : Except FileError String :=
  if 255 < name.utf8ByteSize then .error .nameTooLong else .ok name

/-- One step from a place, which must be a directory. -/
def step (t : FileTree) (place : Place) (piece : String) : Except FileError Place :=
  match t.at? place with
  | some (.directory entries) =>
    if Path.isIdle piece then .ok place
    else if piece = ".." then .ok place.dropLast
    else do
      let name ← entryName piece
      if (entries.lookup name).isSome then .ok (place ++ [name]) else .error .notFound
  | some (.file _) => .error .notDirectory
  | none => .error .notFound

/-- Some steps from a place. -/
def walk (t : FileTree) (place : Place) : List String → Except FileError Place
  | [] => .ok place
  | piece :: rest => do t.walk (← t.step place piece) rest

/-- Where a path starts, seen from a directory. -/
def start (cwd : Place) (p : Path) : Place := if p.isAbsolute then [] else cwd

/-- Whether a path is too long to be resolved, whatever it leads to. -/
def isTooLong (p : Path) : Bool := 4095 < p.text.utf8ByteSize

/-- The pieces of a path, if it can be resolved at all. -/
def pieces (p : Path) : Except FileError (List String) :=
  if p.text.toList.contains (Char.ofNat 0) then .error .nulByte
  else if isTooLong p then .error .nameTooLong
  else if p.text = "" then .error .notFound
  else .ok p.segments

/-- The place that a path leads to, seen from a directory. -/
def locate (t : FileTree) (cwd : Place) (p : Path) : Except FileError Place := do
  t.walk (start cwd p) (← pieces p)

/-! ## Looking -/

/-- What stands at a place, if one is found. -/
def nodeAt? (t : FileTree) : Except FileError Place → Option FileTree
  | .ok place => t.at? place
  | .error _ => none

@[simp] theorem nodeAt?_ok (t : FileTree) (place : Place) :
    t.nodeAt? (.ok place) = t.at? place := rfl

@[simp] theorem nodeAt?_error (t : FileTree) (e : FileError) : t.nodeAt? (.error e) = none := rfl

/-- Whether a place is found, and a file stands there. -/
def isFileAt (t : FileTree) (found : Except FileError Place) : Bool :=
  match t.nodeAt? found with
  | some (.file _) => true
  | _ => false

/-- Whether a place is found, and a directory stands there. -/
def isDirectoryAt (t : FileTree) (found : Except FileError Place) : Bool :=
  match t.nodeAt? found with
  | some (.directory _) => true
  | _ => false

/-- The content of the file at a place, if one is found. -/
def contentAt (t : FileTree) (found : Except FileError Place) : Except FileError String := do
  match t.at? (← found) with
  | some (.file content) => .ok content
  | some (.directory _) => .error .isDirectory
  | none => .error .notFound

/-- What a path leads to, seen from a directory. -/
def find? (t : FileTree) (cwd : Place) (p : Path) : Option FileTree := t.nodeAt? (t.locate cwd p)

/-- Whether a path leads to a file. -/
def isFile (t : FileTree) (cwd : Place) (p : Path) : Bool := t.isFileAt (t.locate cwd p)

/-- Whether a path leads to a directory. -/
def isDirectory (t : FileTree) (cwd : Place) (p : Path) : Bool := t.isDirectoryAt (t.locate cwd p)

/-- Whether a path leads to anything. -/
def exists? (t : FileTree) (cwd : Place) (p : Path) : Bool := (t.find? cwd p).isSome

/-- The content of the file that a path leads to. -/
def read (t : FileTree) (cwd : Place) (p : Path) : Except FileError String :=
  t.contentAt (t.locate cwd p)

/-! ## Everything below -/

mutual

/-- The places of everything below a node, seen from the node. -/
def places : FileTree → List Place
  | .file _ => []
  | .directory entries => entryPlaces entries

/-- The places of some entries and of everything below them. -/
def entryPlaces : List (String × FileTree) → List Place
  | [] => []
  | (name, node) :: rest =>
    [name] :: node.places.map (name :: ·) ++ entryPlaces rest

end

/-- The places of everything that can be found below a path, seen from there. A directory whose
path is too long is found, but it cannot be opened. -/
def placesBelow (t : FileTree) (cwd : Place) (p : Path) : List Place :=
  match t.find? cwd p with
  | some node => node.places.filter fun place => !isTooLong (p.along place.dropLast)
  | none => []

end FileTree

end Typings
