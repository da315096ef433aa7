import Typings.Text.Replace
import Typings.Text.Split

/-!
# Extends clauses that are written later

Whether a clause may stand in the header of a declaration is known only when the imports
have been found. Until then the header holds a *token* that names the base, and a registry
holds the clause for each base. Reconciling puts the clauses in place of the tokens.

## Main definitions

* `Extends.token` — the token for a base.
* `Extends.Registry` — the clause for each base, in the order of registration; the first
  clause that is registered for a base stays.
* `Extends.Registry.reconcile` — a text with each token replaced.

## Main results

* `Registry.get?_register` — what a registration changes.
-/

namespace Typings.Extends

/-! ## Tokens -/

/-- The start of a token. -/
def tokenStart : String := "#\x7bExtendsPlaceholder_"

/-- The character that ends a token. -/
def tokenEnd : Char := '\x7d'

/-- The token for a base. -/
def token (base : String) : String := tokenStart ++ base ++ String.singleton tokenEnd

/-- The name in the token at the front of a text. -/
def tokenAt? (text : List Char) : Option (List Char) :=
  match tokenStart.toList.isPrefixOf? text with
  | some behind => (Text.splitFirst tokenEnd behind).map (·.1)
  | none => none

/-- The rule that puts another text in place of each token. A token for which there is none
stays, and nothing inside it is looked at again. -/
def tokenRule (meaning : String → Option String) : Text.Rule := fun text =>
  match tokenAt? text with
  | some base =>
    let spelled := (token (String.ofList base)).toList
    match meaning (String.ofList base) with
    | some clause => some (clause.toList, spelled.length)
    | none => some (spelled, spelled.length)
  | none => none

/-! ## The registry -/

/-- The clause for each base. -/
structure Registry where
  /-- The bases with their clauses, oldest first. -/
  entries : List (String × String)
  /-- No base has two clauses. -/
  nodup : (entries.map (·.1)).Nodup

namespace Registry

/-- The registry without clauses. -/
def empty : Registry := ⟨[], List.nodup_nil⟩

instance : Inhabited Registry := ⟨empty⟩

/-- The clause for a base. -/
def get? (r : Registry) (base : String) : Option String := r.entries.lookup base

/-- The bases that have a clause, oldest first. -/
def bases (r : Registry) : List String := r.entries.map (·.1)

/-- The number of bases that have a clause. -/
def size (r : Registry) : Nat := r.entries.length

/-- Whether there is no clause for a base yet. -/
def lacks (r : Registry) (base : String) : Bool := base ∉ r.bases

/-- Register the clause for a base that has none yet. -/
def register (r : Registry) (base clause : String) : Registry :=
  if h : base ∈ r.bases then r
  else ⟨r.entries ++ [(base, clause)], by
    rw [List.map_append]
    refine List.nodup_append.2 ⟨r.nodup, by simp, ?_⟩
    rintro a ha b hb rfl
    exact h ((List.mem_singleton.1 hb : a = base) ▸ ha)⟩

/-- Register some clauses, in order. -/
def registerAll (r : Registry) (clauses : List (String × String)) : Registry :=
  clauses.foldl (fun r (base, clause) => r.register base clause) r

theorem get?_eq_none_iff {r : Registry} {base : String} : r.get? base = none ↔ base ∉ r.bases := by
  simp only [get?, bases, List.mem_map]
  induction r.entries with
  | nil => simp
  | cons e rest ih => grind

theorem get?_register (r : Registry) (base clause other : String) :
    (r.register base clause).get? other =
      if other = base ∧ r.get? base = none then some clause else r.get? other := by
  by_cases h : base ∈ r.bases
  · have : r.get? base ≠ none := fun e => get?_eq_none_iff.1 e h
    simp [register, h, this]
  · have hb := get?_eq_none_iff.2 h
    by_cases e : other = base
    · subst e
      simp only [get?] at hb
      simp [register, h, get?, List.lookup_append, hb]
    · have : (other == base) = false := by simpa using e
      simp [register, h, get?, List.lookup_append, e, List.lookup_cons, this]

/-- What becomes of the token for a base: nothing if the base is among those that have not
been found, its clause if it has one. -/
def meaning (r : Registry) (unresolved : List String) (base : String) : Option String :=
  (r.get? base).map fun clause => if base ∈ unresolved then "" else clause

/-- A text with each token replaced by what becomes of it. -/
def reconcile (r : Registry) (unresolved : List String) (body : String) : String :=
  String.ofList (Text.substitute (tokenRule (r.meaning unresolved)) body.toList)

end Registry

end Typings.Extends
