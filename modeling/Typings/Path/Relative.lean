import Typings.Path.Basic

/-!
# The walk from one path to another

From a directory to a target one goes up as long as the two differ, and then down. Only
components count: leading `.` steps are left aside, and `..` is a step like any other.

## Main definitions

* `Path.relative` — the walk, as a path.
-/

namespace Typings.Path

/-- Two lists without the longest prefix that they share. -/
def dropCommon {α : Type} [DecidableEq α] : List α → List α → List α × List α
  | a :: as, b :: bs => if a = b then dropCommon as bs else (a :: as, b :: bs)
  | as, bs => (as, bs)

/-- The components of a path that matter to a walk. -/
def landmarks (p : Path) : List Component := p.components.filter (· ≠ .current)

/-- The steps of the walk: up from the directory to where the two paths part, and down to
the target. -/
def walk (p q : Path) : List Component :=
  let (up, down) := dropCommon p.landmarks q.landmarks
  up.map (fun _ => .parent) ++ down

/-- The path along a list of components. The root starts anew, wherever it stands. -/
def ofComponents (steps : List Component) : Path :=
  steps.foldl (fun p step => p.join ⟨step.text⟩) ⟨""⟩

/-- The path from `p` to `q`. A path to itself is `.`. -/
def relative (p q : Path) : Path :=
  let path := ofComponents (walk p q)
  if path.text = "" then ⟨"."⟩ else path

example : relative ⟨"/src/Models"⟩ ⟨"/src/Shared/Money"⟩ = ⟨"../Shared/Money"⟩ := by
  decide +kernel

example : relative ⟨"a/./b/"⟩ ⟨"./a//b"⟩ = ⟨"."⟩ := by
  decide +kernel

end Typings.Path
