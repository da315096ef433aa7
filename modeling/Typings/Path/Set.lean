import Typings.OrderedSet
import Typings.Path.Basic

/-!
# Sets of paths

A set of paths holds places, not spellings: two paths with the same components are one
member.

## Main definitions

* `PathSet`, with `insert`, `contains` and `size`.
* `Path.distinct` — the paths of a list, each place once, in its first spelling.
-/

namespace Typings

/-- A set of places. -/
structure PathSet where
  /-- The components of each member. -/
  places : OrderedSet (List Path.Component)

namespace PathSet

/-- The set without members. -/
def empty : PathSet := ⟨.empty⟩

/-- Add the place that a path names. -/
def insert (s : PathSet) (p : Path) : PathSet := ⟨s.places.insert p.components⟩

/-- The places that some paths name. -/
def ofList (paths : List Path) : PathSet := ⟨.ofList (paths.map Path.components)⟩

/-- Whether the place that a path names is in the set. -/
def contains (s : PathSet) (p : Path) : Bool := p.components ∈ s.places

/-- The number of places. -/
def size (s : PathSet) : Nat := s.places.size

@[simp] theorem contains_insert (s : PathSet) (p q : Path) :
    (s.insert p).contains q = (s.contains q || decide (q.components = p.components)) := by
  simp [contains, insert, Bool.decide_or]

end PathSet

/-- The paths of a list, each place once, in the spelling that came first. -/
def Path.distinct (paths : List Path) : List Path := distinctBy Path.components paths

end Typings
