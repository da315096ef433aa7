import Typings.Text.Blank
import Typings.Text.Split

/-!
# Paths

A path is the text that names a place in a file system, kept as it was spelled. Its
*components* are what it means: the separator is `/`, repeated and trailing separators
and inner `.` steps mean nothing, a leading `.` is a component of its own, and `..` is
never resolved here. Two paths are the same place when they have the same components.

## Main definitions

* `Path`, `Path.Component`, `Path.components` — the text and its meaning.
* `Path.parent?`, `Path.fileName?`, `Path.fileStem?` — taking a path apart.
* `Path.join`, `Path.along`, `Path.withFileName` — building paths.
* `Path.precedes` — the order by components.
-/

namespace Typings

/-- A path, as it is spelled. -/
structure Path where
  /-- The spelling. -/
  text : String
  deriving DecidableEq, Repr, Inhabited

namespace Path

/-! ## Components -/

/-- One step of a path. -/
inductive Component where
  /-- The root of the file system. -/
  | root
  /-- A leading `.`. -/
  | current
  /-- A step `..` to the directory above. -/
  | parent
  /-- A step to a named entry. -/
  | name (text : String)
  deriving DecidableEq, Repr, Inhabited

/-- How a component is spelled. -/
def Component.text : Component → String
  | .root => "/"
  | .current => "."
  | .parent => ".."
  | .name text => text

/-- Where a path starts from. -/
inductive Anchor where
  /-- The root: the path is absolute. -/
  | root
  /-- A leading `.`. -/
  | current
  /-- Nothing: the path goes on from whatever it is joined to. -/
  | relative
  deriving DecidableEq, Repr

/-- The component that an anchor stands for. -/
def Anchor.components : Anchor → List Component
  | .root => [.root]
  | .current => [.current]
  | .relative => []

/-- The pieces of the spelling between separators. -/
def segments (p : Path) : List String := (p.text.toList.splitOn '/').map String.ofList

/-- Nothing of the spelling is lost between the pieces. -/
theorem intercalate_segments (p : Path) : "/".intercalate p.segments = p.text := by
  rw [← String.toList_inj, String.toList_intercalate, segments, List.map_map]
  have : String.toList ∘ String.ofList = id := funext fun _ => String.toList_ofList
  rw [this, List.map_id]
  exact List.intercalate_splitOn '/'

/-- Whether the path starts at the root. -/
def isAbsolute (p : Path) : Bool := p.text.toList.head? == some '/'

/-- Where the path starts from, and the pieces behind that start. -/
def split (p : Path) : Anchor × List String :=
  match p.segments with
  | "" :: rest => if rest = [] then (.relative, []) else (.root, rest)
  | "." :: rest => (.current, rest)
  | pieces => (.relative, pieces)

/-- Whether a piece means nothing behind the start of a path. -/
def isIdle (piece : String) : Bool := piece = "" || piece = "."

/-- The component that a piece behind the start stands for. -/
def pieceComponent? (piece : String) : Option Component :=
  if isIdle piece then none else if piece = ".." then some .parent else some (.name piece)

/-- What a path means. -/
def components (p : Path) : List Component :=
  let (anchor, pieces) := p.split
  anchor.components ++ pieces.filterMap pieceComponent?

/-! ## Taking a path apart -/

/-- The spelling of an anchor and the pieces behind it. -/
def assemble : Anchor → List String → Path
  | .root, pieces => ⟨"/" ++ "/".intercalate pieces⟩
  | .current, pieces => ⟨"/".intercalate ("." :: pieces)⟩
  | .relative, pieces => ⟨"/".intercalate pieces⟩

/-- The path without its last component. What is left keeps its spelling, without idle
pieces at its end. There is none for the root and for the empty path. -/
def parent? (p : Path) : Option Path :=
  let (anchor, pieces) := p.split
  match Text.dropEndWhile isIdle pieces with
  | [] => if anchor = .current then some ⟨""⟩ else none
  | steps => some (assemble anchor (Text.dropEndWhile isIdle steps.dropLast))

/-- The last component, if it is a name. -/
def fileName? (p : Path) : Option String :=
  match p.components.getLast? with
  | some (.name text) => some text
  | _ => none

/-- The file name without its extension. A dot at the very start begins no extension. -/
def fileStem? (p : Path) : Option String :=
  p.fileName?.map fun name =>
    match Text.splitLast '.' name.toList with
    | some (c :: stem, _) => String.ofList (c :: stem)
    | _ => name

/-! ## Building paths -/

/-- Go on from a path along another one. An absolute path starts anew. -/
def join (p q : Path) : Path :=
  if q.isAbsolute then q
  else if p.text = "" || p.text.toList.getLast? == some '/' then ⟨p.text ++ q.text⟩
  else ⟨p.text ++ "/" ++ q.text⟩

/-- Go on from a path along some names. -/
def along (p : Path) (names : List String) : Path := names.foldl (fun p name => p.join ⟨name⟩) p

/-- Put another file name in place of the last component. A path that does not end with a
name goes on along the new one. -/
def withFileName (p : Path) (name : String) : Path :=
  match p.fileName?, p.parent? with
  | some _, some dir => dir.join ⟨name⟩
  | _, _ => p.join ⟨name⟩

/-! ## Order -/

/-- The place of a component among the others: the root, a leading `.`, steps up, names. -/
def Component.rank : Component → Nat
  | .root => 0
  | .current => 1
  | .parent => 2
  | .name _ => 3

/-- Whether a component comes before another one. Names are compared by code points. -/
def Component.precedes (a b : Component) : Bool :=
  a.rank < b.rank || (a.rank == b.rank && a.text < b.text)

/-- Whether a path comes before another one: the first component that differs decides. -/
def precedes (p q : Path) : Bool :=
  List.lex p.components q.components Component.precedes

/-! ## Some paths -/

example : components ⟨"./a//../b/."⟩ = [.current, .name "a", .parent, .name "b"] := by cbv

example : parent? ⟨"//a/./b/"⟩ = some ⟨"//a"⟩ ∧ parent? ⟨"a"⟩ = some ⟨""⟩ := by
  constructor <;> cbv

example : parent? ⟨"/"⟩ = none ∧ parent? ⟨""⟩ = none := by constructor <;> cbv

example : fileStem? ⟨"a/x.y.cs"⟩ = some "x.y" ∧ fileStem? ⟨".cs"⟩ = some ".cs" := by
  constructor <;> cbv

end Path

end Typings
