import Typings.FileTree.Links

/-!
# Where a command runs

A command reaches files only through a host. The host may be the system, or a file tree, with or
without symbolic links, that is changed step by step.

## Main definitions

* `Host` — what a command can ask for.
* `FileTree.host`, `LinkedTree.host` — a file tree as a host.
-/

namespace Typings

/-- What a command can ask of the place that it runs in. -/
structure Host (m : Type → Type) where
  /-- The working directory. -/
  cwd : Path
  /-- Whether a path leads to anything. -/
  exists? : Path → m Bool
  /-- Whether a path leads to a file. -/
  isFile : Path → m Bool
  /-- The content of a file. -/
  read : Path → m (Except FileError String)
  /-- Everything below a directory, each by the names on the way to it. -/
  placesBelow : Path → m (List (List String))
  /-- Make a directory and all directories on the way to it. -/
  createDirectories : Path → m (Except FileError Unit)
  /-- Write a file, in place of the one that is there. -/
  write : Path → String → m (Except FileError Unit)

namespace FileTree

/-- Write a file; the tree stays as it was if that fails. -/
def writing (cwd : Place) (p : Path) (content : String) (t : FileTree) :
    Except FileError Unit × FileTree :=
  match t.write cwd p content with
  | .ok written => (.ok (), written)
  | .error e => (.error e, t)

/-- Make directories; those made before a failure stay. -/
def creating (cwd : Place) (p : Path) (t : FileTree) : Except FileError Unit × FileTree :=
  let (t, result) := t.createDirectories cwd p
  (result, t)

/-- A file tree as a host, seen from one of its directories. -/
def host (cwd : Place) : Host (StateM FileTree) where
  cwd := ⟨"/" ++ "/".intercalate cwd⟩
  exists? p := fun t => (t.exists? cwd p, t)
  isFile p := fun t => (t.isFile cwd p, t)
  read p := fun t => (t.read cwd p, t)
  placesBelow p := fun t => (t.placesBelow cwd p, t)
  createDirectories p := creating cwd p
  write p content := writing cwd p content

end FileTree

namespace LinkedTree

open FileTree

/-- A file tree with symbolic links as a host, seen from one of its directories. -/
def host (cwd : Place) : Host (StateM LinkedTree) where
  cwd := ⟨"/" ++ "/".intercalate cwd⟩
  exists? p := fun s => (s.exists? cwd p, s)
  isFile p := fun s => (s.isFile cwd p, s)
  read p := fun s => (s.read cwd p, s)
  placesBelow p := fun s => (s.placesBelow cwd p, s)
  createDirectories p := fun s => (s.createDirectories cwd p).swap
  write p content := fun s =>
    match s.write cwd p content with
    | .ok written => (.ok (), written)
    | .error e => (.error e, s)

end LinkedTree

end Typings
