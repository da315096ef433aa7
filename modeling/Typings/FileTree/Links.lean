import Typings.FileTree.Update

/-!
# Symbolic links

A directory may hold symbolic links beside its entries. A link stands for a path, which is seen
from the directory that holds the link. A link on the way of a path is followed, and so is one at
its end, whether something is looked for, read or written. So a file goes to where a link leads,
also if nothing is there yet. Only a new directory is never made through a link at the end of its
path.

`FileTree` is what is left of this without links: there each operation is the one that has the
same name here.

## Main definitions

* `LinkedTree` — a file tree with symbolic links.
* `LinkedTree.straighten` — a way without links that leads to where another way leads.
* `LinkedTree.isFile`, `LinkedTree.read`, `LinkedTree.placesBelow` — looking through links.
* `LinkedTree.createDirectories`, `LinkedTree.write` — changing a tree with links.
-/

namespace Typings

open FileTree

/-- A file tree with symbolic links in its directories. -/
structure LinkedTree where
  /-- The files and directories. -/
  tree : FileTree
  /-- The places of the links, each with the path that the link stands for. -/
  links : List (Place × Path)
  /-- There is at most one link at a place. -/
  nodup : (links.map (·.1)).Nodup

namespace LinkedTree

/-- A file tree without links. -/
def ofTree (t : FileTree) : LinkedTree := ⟨t, [], List.nodup_nil⟩

@[simp] theorem tree_ofTree (t : FileTree) : (ofTree t).tree = t := rfl

/-- The path that a name in a directory is linked to. An entry of that name goes before a link. -/
def link? (s : LinkedTree) (place : Place) (name : String) : Option Path :=
  match s.tree.at? place with
  | some (.directory entries) =>
    if (entries.lookup name).isSome then none else s.links.lookup (place ++ [name])
  | _ => none

/-! ## Following links -/

/-- The first link on some steps from a place: the directory that holds it, what it stands for,
and the steps behind it. -/
def firstLink? (s : LinkedTree) (place : Place) : List String → Option (Place × Path × List String)
  | [] => none
  | piece :: rest =>
    match s.link? place piece with
    | some target => some (place, target, rest)
    | none =>
      match s.tree.step place piece with
      | .ok next => s.firstLink? next rest
      | .error _ => none

/-- How many links a path may lead through. -/
def maxLinks : Nat := 40

/-- A path leads through more links than it may. -/
def tooManyLinks : FileError := .other "Too many levels of symbolic links (os error 40)"

/-- A way without links that leads to where some steps from a place lead, through at most so many
links: each link is replaced by the path that it stands for. -/
def straighten (s : LinkedTree) (limit : Nat) (place : Place) (pieces : List String) :
    Except FileError (Place × List String) :=
  match s.firstLink? place pieces with
  | none => .ok (place, pieces)
  | some (dir, target, rest) =>
    match limit with
    | 0 => .error tooManyLinks
    | limit + 1 => s.straighten limit (start dir target) (target.segments ++ rest)

/-- The place that a path leads to, seen from a directory. -/
def locate (s : LinkedTree) (cwd : Place) (p : Path) : Except FileError Place := do
  let (place, way) ← s.straighten maxLinks (start cwd p) (← pieces p)
  s.tree.walk place way

/-- Whether a path leads to a file. -/
def isFile (s : LinkedTree) (cwd : Place) (p : Path) : Bool := s.tree.isFileAt (s.locate cwd p)

/-- Whether a path leads to a directory. -/
def isDirectory (s : LinkedTree) (cwd : Place) (p : Path) : Bool :=
  s.tree.isDirectoryAt (s.locate cwd p)

/-- Whether a path leads to anything. A link that leads to nothing does not count. -/
def exists? (s : LinkedTree) (cwd : Place) (p : Path) : Bool :=
  (s.tree.nodeAt? (s.locate cwd p)).isSome

/-- The content of the file that a path leads to. -/
def read (s : LinkedTree) (cwd : Place) (p : Path) : Except FileError String :=
  s.tree.contentAt (s.locate cwd p)

/-! ## Everything below -/

section

variable (follow : Place → Place → List Place → List Place)

mutual

/-- Everything below a node, by the names on the way to it from where a search began. The node
stands at a place, and the search is within some directories. What the links of a directory lead
to is found by `follow`. -/
def waysBelow (names place : Place) (within : List Place) : FileTree → List Place
  | .file _ => []
  | .directory entries =>
    follow names place (place :: within) ++ waysThrough names place (place :: within) entries

/-- Some entries of a directory, and everything below them. -/
def waysThrough (names place : Place) (within : List Place) :
    List (String × FileTree) → List Place
  | [] => []
  | (name, node) :: rest =>
    (names ++ [name]) :: waysBelow (names ++ [name]) (place ++ [name]) within node
      ++ waysThrough names place within rest

end

end

/-- The names of the links in a directory. -/
def linksIn (s : LinkedTree) (place : Place) : List String :=
  s.links.filterMap fun link => link.1.getLast?.filter fun name =>
    link.1 = place ++ [name] && (s.link? place name).isSome

/-- Everything that is found through the links of a directory, seen from the path where the search
began. A link that leads to nothing is left out, and so is one that leads back to a directory that
the search is within. Hence a search never goes twice through a link, and no more links are inside
each other than there are. -/
def waysFollowed (s : LinkedTree) (cwd : Place) (p : Path) :
    Nat → Place → Place → List Place → List Place
  | 0, _, _, _ => []
  | depth + 1, names, place, within =>
    (s.linksIn place).flatMap fun name =>
      let way := names ++ [name]
      match s.locate cwd (p.along way) with
      | .error _ => []
      | .ok found =>
        match s.tree.at? found with
        | some (.directory entries) =>
          if found ∈ within then []
          else way :: waysBelow (s.waysFollowed cwd p depth) way found within (.directory entries)
        | some (.file _) => [way]
        | none => []

/-- The places of everything that can be found below a path, seen from there. A directory whose
path is too long is found, but it cannot be opened. -/
def placesBelow (s : LinkedTree) (cwd : Place) (p : Path) : List Place :=
  match s.locate cwd p with
  | .error _ => []
  | .ok place =>
    match s.tree.at? place with
    | some node =>
      (waysBelow (s.waysFollowed cwd p s.links.length) [] place [] node).filter fun way =>
        !isTooLong (p.along way.dropLast)
    | none => []

/-! ## Changes -/

/-- Make a directory where there is nothing yet, not even a link. -/
def makeDirectory (s : LinkedTree) (cwd : Place) (p : Path) : Except FileError LinkedTree := do
  let pieces := Text.dropEndWhile (· = "") (← pieces p)
  let (place, front) ← s.straighten maxLinks (start cwd p) pieces.dropLast
  let way := front ++ pieces.getLast?.toList
  -- In front of the last step there is no link any more.
  if (s.firstLink? place way).isSome then .error .alreadyExists
  else return { s with tree := ← s.tree.makeDirectoryFrom place way }

/-- Make a directory and all directories on the way to it. -/
def createDirectories (s : LinkedTree) (cwd : Place) (p : Path) :
    LinkedTree × Except FileError Unit :=
  createChain (fun p s => s.makeDirectory cwd p) (fun p s => s.isDirectory cwd p)
    (ancestors p.segments.length p) s

/-- Write a file, in place of the one that is there. -/
def write (s : LinkedTree) (cwd : Place) (p : Path) (content : String) :
    Except FileError LinkedTree := do
  let (place, way) ← s.straighten maxLinks (start cwd p) (← pieces p)
  return { s with tree := ← s.tree.writeFrom place way content }

end LinkedTree

end Typings
