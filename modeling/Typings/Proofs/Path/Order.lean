import Mathlib.Data.List.Lex
import Mathlib.Data.Prod.Lex
import Mathlib.Data.String.Basic
import Typings.Path.Basic
import Typings.Proofs.Text.ByteOrder

/-!
# The order of paths

Paths are compared component by component, and components by their kind first. That is the order of
lists of pairs, so it is linear on what paths mean, and sorting by it leaves every path behind
those that come before it. Names are compared by their characters or by their bytes, which comes to
the same.

## Main definitions

* `Path.key` — what the order looks at.
* `Path.byteKey` — the same with bytes for texts.

## Main results

* `precedes_iff`, `key_lt_iff_byteKey` — the order of paths is the order of their keys.
* `pairwise_mergeSort_precedes` — sorting by paths.
-/

namespace Typings.Path

/-- What the order of components looks at. -/
def Component.key (c : Component) : ℕ ×ₗ String := toLex (c.rank, c.text)

/-- What the order of paths looks at. -/
def key (p : Path) : List (ℕ ×ₗ String) := p.components.map Component.key

/-- A component by its kind and the bytes of its spelling. -/
def Component.byteKey (c : Component) : ℕ ×ₗ List UInt8 := toLex (c.rank, Text.bytes c.text)

/-- A path by the kinds and the bytes of its components. -/
def byteKey (p : Path) : List (ℕ ×ₗ List UInt8) := p.components.map Component.byteKey

theorem Component.eq_of_rank_of_text {a b : Component} (hrank : a.rank = b.rank)
    (htext : a.text = b.text) : a = b := by
  cases a <;> cases b <;> simp_all [Component.rank, Component.text]

theorem Component.key_injective : Function.Injective Component.key := by
  intro a b h
  exact eq_of_rank_of_text (congrArg (fun k => (ofLex k).1) h) (congrArg (fun k => (ofLex k).2) h)

theorem Component.byteKey_injective : Function.Injective Component.byteKey := by
  intro a b h
  exact eq_of_rank_of_text (congrArg (fun k => (ofLex k).1) h)
    (Text.bytes_injective (congrArg (fun k => (ofLex k).2) h))

theorem Component.precedes_iff {a b : Component} : a.precedes b = true ↔ a.key < b.key := by
  rw [Component.precedes, Component.key, Component.key, Prod.Lex.lt_iff]
  simp

theorem Component.precedes_iff_byteKey {a b : Component} :
    a.precedes b = true ↔ a.byteKey < b.byteKey := by
  rw [Component.precedes, Component.byteKey, Component.byteKey, Prod.Lex.lt_iff]
  simp [Text.bytes_lt_iff]

/-- Any keys that order components as they are ordered give the order of paths. -/
theorem lex_precedes_iff {β : Type} [LT β] {k : Component → β} (hk : Function.Injective k)
    (hprecedes : ∀ {a b : Component}, a.precedes b = true ↔ k a < k b) {as bs : List Component} :
    List.lex as bs Component.precedes = true ↔ as.map k < bs.map k := by
  induction as generalizing bs with
  | nil => cases bs <;> simp [List.lex]
  | cons a as ih =>
      cases bs with
      | nil => simp [List.lex]
      | cons b bs =>
          rw [List.lex, List.map_cons, List.map_cons, List.cons_lt_cons_iff, Bool.or_eq_true,
            Bool.and_eq_true, hprecedes, ih, beq_iff_eq, hk.eq_iff]

/-- **The order of paths is the order of their keys.** -/
theorem precedes_iff {p q : Path} : p.precedes q = true ↔ p.key < q.key :=
  lex_precedes_iff Component.key_injective Component.precedes_iff

/-- **The order of paths is the order of bytes**, component by component. -/
theorem key_lt_iff_byteKey {p q : Path} : p.key < q.key ↔ p.byteKey < q.byteKey :=
  precedes_iff.symm.trans
    (lex_precedes_iff Component.byteKey_injective Component.precedes_iff_byteKey)

theorem not_precedes_iff {p q : Path} : (!(q.precedes p)) = true ↔ p.key ≤ q.key := by
  rw [Bool.not_eq_true', ← Bool.not_eq_true, precedes_iff, not_lt]

/-- **Sorting by paths** leaves none behind a later one. -/
theorem pairwise_mergeSort_precedes {α : Type} (path : α → Path) (xs : List α) :
    (xs.mergeSort fun a b => !((path b).precedes (path a))).Pairwise
      fun a b => (path b).precedes (path a) = false := by
  have htrans (a b c : α) (hab : (!((path b).precedes (path a))) = true)
      (hbc : (!((path c).precedes (path b))) = true) : (!((path c).precedes (path a))) = true := by
    rw [not_precedes_iff] at hab hbc ⊢
    exact hab.trans hbc
  have htotal (a b : α) :
      (!((path b).precedes (path a)) || !((path a).precedes (path b))) = true := by
    rw [Bool.or_eq_true, not_precedes_iff, not_precedes_iff]
    exact le_total _ _
  exact (List.pairwise_mergeSort htrans htotal xs).imp fun h => by simpa using h

end Typings.Path
