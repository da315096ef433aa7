import Typings.Body

/-!
# Which clause a base gets

The registry keeps the first clause that is registered for a base. Clauses are registered in
the order in which types are declared, so the clause for a base is the one that the first type
that extends it asks for, whatever types follow.

## Main results

* `Registry.get?_registerAll` — the first of some registered clauses.
* `Registry.entries_registerAll` — the clauses that some registrations add.
* `get?_clauses_render` — the clause for a base in the body for some descriptors.
-/

namespace Typings

namespace Extends.Registry

/-- After registering some clauses, a base has the clause that it had, or else the first one
among them. -/
theorem get?_registerAll (r : Registry) (clauses : List (String × String)) (base : String) :
    (r.registerAll clauses).get? base = (r.get? base).or (clauses.lookup base) := by
  induction clauses generalizing r with
  | nil => simp [registerAll]
  | cons entry rest ih =>
      obtain ⟨first, clause⟩ := entry
      have hstep : r.registerAll ((first, clause) :: rest)
          = (r.register first clause).registerAll rest := rfl
      rw [hstep, ih, get?_register]
      by_cases hbase : base = first
      · subst hbase
        cases hr : r.get? base with
        | none => simp
        | some known => simp
      · have hne : (base == first) = false := by simpa using hbase
        simp [hbase, List.lookup_cons, hne]

theorem entries_register (r : Registry) (base clause : String) :
    (r.register base clause).entries
      = r.entries ++ if r.lacks base then [(base, clause)] else [] := by
  by_cases h : base ∈ r.bases
  · simp [register, lacks, h]
  · simp [register, lacks, h]

theorem lacks_register (r : Registry) (base clause other : String) :
    (r.register base clause).lacks other = (r.lacks other && decide (other ≠ base)) := by
  by_cases h : base ∈ r.bases
  · rw [register, dif_pos h]
    by_cases hsame : other = base
    · simp [lacks, hsame, h]
    · simp [hsame]
  · have hbases : (r.register base clause).bases = r.bases ++ [base] := by
      rw [register, dif_neg h, bases, bases, List.map_append]
      rfl
    rw [lacks, hbases, lacks]
    simp [Bool.decide_and]

/-- Registering some clauses adds, in their order, those for bases that had none: the first one
for each base. -/
theorem entries_registerAll (r : Registry) (clauses : List (String × String)) :
    (r.registerAll clauses).entries
      = r.entries ++ (distinctBy (·.1) clauses).filter (fun entry => r.lacks entry.1) := by
  induction clauses generalizing r with
  | nil => simp [registerAll]
  | cons entry rest ih =>
      obtain ⟨base, clause⟩ := entry
      have hstep : r.registerAll ((base, clause) :: rest)
          = (r.register base clause).registerAll rest := rfl
      rw [hstep, ih, entries_register, distinctBy, List.filter_cons, List.filter_filter,
        List.append_assoc]
      simp only [lacks_register]
      split <;> rfl

end Extends.Registry

namespace Descriptor

/-- The first type, in the order of declaration, that extends a base of some name. -/
def firstExtending? (types : List Descriptor) (base : String) : Option Descriptor :=
  (renderOrder types).find? fun d => d.extendedBase? = some base

end Descriptor

/-- Looking up a base in a list of clauses is looking for the first type that extends it. -/
private theorem lookup_clauses (o : Options) (order : List Descriptor) (base : String) :
    (order.filterMap fun d => d.extendedBase?.map fun b => (b, d.extendsClause o b)).lookup base
      = (order.find? fun d => d.extendedBase? = some base).map (·.extendsClause o base) := by
  induction order with
  | nil => rfl
  | cons d rest ih =>
      cases hd : d.extendedBase? with
      | none => simp [hd, ih]
      | some b =>
          by_cases hb : b = base
          · subst hb
            simp [hd]
          · have hne : (base == b) = false := by simpa using Ne.symm hb
            simp [hd, hb, List.lookup_cons, hne, ih]

/-- The clause for a base is the one that the first type that extends it asks for. -/
theorem get?_clauses_render (o : Options) (types : List Descriptor) (base : String) :
    (Body.render o types).clauses.get? base
      = (Descriptor.firstExtending? types base).map (·.extendsClause o base) := by
  have hempty : Extends.Registry.empty.get? base = none := rfl
  rw [Body.render, Extends.Registry.get?_registerAll, hempty, Option.none_or, Body.clauseList,
    lookup_clauses]
  rfl

end Typings
