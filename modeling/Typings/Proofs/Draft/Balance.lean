import Typings.Proofs.Draft.Written

/-!
# Drafts that keep the level

Every draft behind another one starts at the level of indentation that the first one leaves. A
draft is balanced if it leaves every level as it was. Balanced drafts are written one behind the
other as each is written alone, so that the text of a file is put together from the texts of its
parts.

## Main results

* `Balanced.append`, `balanced_flatMap`, `Balanced.enclosed` — how such drafts are put together.
* `Balanced.text_append` — the text of a draft behind a balanced one.
-/

namespace Typings.Draft

/-- A draft that leaves every level as it was. -/
def Balanced (draft : Draft) : Prop := ∀ level, levelAfter level draft = level

variable {a b : Draft}

theorem balanced_nil : Balanced [] := fun _ => rfl

theorem Balanced.append (ha : a.Balanced) (hb : b.Balanced) : (a ++ b).Balanced := by
  intro level
  rw [levelAfter_append, ha, hb]

theorem balanced_flatMap {α : Type} {f : α → Draft} {xs : List α}
    (h : ∀ x ∈ xs, (f x).Balanced) : Balanced (xs.flatMap f) := by
  induction xs with
  | nil => exact balanced_nil
  | cons x rest ih =>
      rw [List.flatMap_cons]
      exact (h x List.mem_cons_self).append (ih fun y hy => h y (List.mem_cons_of_mem _ hy))

/-- What stands between a draft that indents and one that takes the indentation back. -/
theorem Balanced.enclosed (ha : a.Balanced) {front behind : Draft}
    (hfront : ∀ level, levelAfter level front = level + 1)
    (hbehind : ∀ level, levelAfter (level + 1) behind = level) :
    (front ++ a ++ behind).Balanced := by
  intro level
  rw [levelAfter_append, levelAfter_append, hfront, ha, hbehind]

/-- The text of a draft behind a balanced one is its text alone. -/
theorem Balanced.text_append (ha : a.Balanced) (slot : String → String) (b : Draft) :
    (a ++ b).text slot = a.text slot ++ b.text slot := by
  rw [← String.toList_inj, String.toList_append, toList_text, toList_text, toList_text,
    written_append, ha]

end Typings.Draft
