import Typings.Proofs.Body.Renderer
import Typings.Proofs.Extends.Registration

/-!
# The registry and the bases stay in step

A base that comes up in the pass over the descriptors is taken down twice: its clause is given to
the registry, and its name is put into the names of the body. The registry keeps what it has and
puts a new base last, and so does the set of names. If both list the same bases in the same order,
they still do so behind one more base, and so they do at any time of the pass.

## Main definitions

* `Extends.Registry.InStep` — a registry and a set of bases.
* `Renderer.InStep` — what the pass holds.

## Main results

* `Extends.Registry.InStep.register`, `Extends.Registry.InStep.registerAll` — behind one more
  base, and behind some more.
* `Renderer.InStep.ofDescriptor`, `Renderer.inStep_foldl_ofGroup` — behind one more type, and
  behind some namespaces of the pass.
* `Body.inStep_render` — the body for some descriptors.
-/

namespace Typings

/-! ## A registry and a set -/

namespace Extends.Registry

variable {r : Registry} {bases : OrderedSet String}

/-- A registry with a clause for each member of a set and for nothing else, in the same order. -/
def InStep (r : Registry) (bases : OrderedSet String) : Prop := r.bases = bases.toList

/-- A base is new to both or to none of them, and both put a new one last. -/
theorem InStep.register (h : r.InStep bases) (base clause : String) :
    (r.register base clause).InStep (bases.insert base) := by
  rw [InStep, Registry.register, OrderedSet.insert]
  by_cases hknown : base ∈ r.bases
  · rw [dif_pos hknown, dif_pos (h ▸ hknown)]
    exact h
  · rw [dif_neg hknown, dif_neg (h ▸ hknown), Registry.bases, List.map_append]
    exact congrArg (· ++ [base]) h

theorem InStep.registerAll (h : r.InStep bases) (clauses : List (String × String)) :
    (r.registerAll clauses).InStep ((clauses.map (·.1)).foldl .insert bases) := by
  induction clauses generalizing r bases with
  | nil => exact h
  | cons entry rest ih => exact ih (h.register entry.1 entry.2)

end Extends.Registry

/-! ## The pass -/

namespace Renderer

/-- A record that takes down the bases of its clauses, one for each clause. -/
def Record.InStep (a : Record) : Prop := a.bases = a.clauses.map (·.1)

/-- The registry of a pass and its bases. -/
def InStep (r : Renderer) : Prop := r.clauses.InStep r.names.bases

theorem InStep.after {r : Renderer} {a : Record} (h : r.InStep) (ha : a.InStep) :
    (r.after a).InStep := by
  show (r.clauses.registerAll a.clauses).InStep (a.bases.foldl .insert r.names.bases)
  rw [ha]
  exact Extends.Registry.InStep.registerAll h a.clauses

theorem Record.inStep_ofDescriptor (o : Options) (modifier : String) (d : Descriptor) :
    (Record.ofDescriptor o modifier d).InStep := by
  rw [Record.InStep, Record.ofDescriptor]
  cases d.extendedBase? <;> rfl

theorem Record.inStep_ofGroup (o : Options) (group : String × List Descriptor) :
    (Record.ofGroup o group).InStep := by
  show (group.2.flatMap fun d => d.extendedBase?.toList) = (group.2.flatMap fun d =>
    (d.extendedBase?.map fun base => (base, d.extendsClause o base)).toList).map (·.1)
  rw [List.map_flatMap]
  congr 1
  funext d
  exact Record.inStep_ofDescriptor o "" d

theorem inStep_empty : empty.InStep := rfl

/-- **One more type** leaves the registry and the bases in step. -/
theorem InStep.ofDescriptor {r : Renderer} (h : r.InStep) (o : Options) (modifier : String)
    (d : Descriptor) : (ofDescriptor o modifier r d).InStep := by
  rw [ofDescriptor_eq]
  exact h.after (Record.inStep_ofDescriptor o modifier d)

theorem InStep.ofGroup {r : Renderer} (h : r.InStep) (o : Options)
    (group : String × List Descriptor) : (ofGroup o r group).InStep := by
  rw [ofGroup_eq]
  exact h.after (Record.inStep_ofGroup o group)

/-- **The registry and the bases stay in step** behind any namespaces of the pass. -/
theorem inStep_foldl_ofGroup {r : Renderer} (h : r.InStep) (o : Options)
    (groups : List (String × List Descriptor)) : (groups.foldl (ofGroup o) r).InStep := by
  induction groups generalizing r with
  | nil => exact h
  | cons group rest ih => exact ih (h.ofGroup o group)

end Renderer

/-- **The registry and the bases of a body are in step.** -/
theorem Body.inStep_render (o : Options) (types : List Descriptor) :
    (render o types).clauses.InStep (render o types).names.bases := by
  rw [← Renderer.body_eq_render]
  exact Renderer.inStep_foldl_ofGroup Renderer.inStep_empty o _

end Typings
