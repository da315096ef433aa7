import Mathlib.Data.List.Infix
import Mathlib.Data.List.TakeWhile
import Typings.Proofs.Text.LineBreaks

/-!
# Braces in a text

Braces open and close. Read from left to right, a text leads from a depth to another one, and its
braces match if it never closes one that it has not opened and in the end leaves none open. Texts
with matching braces can be put one behind the other and between braces, and what has no braces at
all does not matter.

## Main definitions

* `depth` — how many more braces a text opens than it closes.
* `Above` — a text that stays above the ground, read from a depth.
* `Matched` — a text with matching braces.
* `Inline` — such a text without line breaks and tabs.

## Main results

* `above_append` — one text behind the other.
* `Matched.append`, `Matched.braced` — how such texts are put together.
* `Matched.dropWhile`, `Matched.dropEndWhile` — what is left when something is dropped.
-/

namespace Typings.Text

/-! ## Depth -/

/-- How many more braces a text opens than it closes. -/
def depth (text : List Char) : Int := (text.count '\x7b' : Int) - text.count '\x7d'

@[simp] theorem depth_nil : depth [] = 0 := rfl

@[simp] theorem depth_append (a b : List Char) : depth (a ++ b) = depth a + depth b := by
  simp only [depth, List.count_append]
  omega

theorem depth_cons (c : Char) (rest : List Char) : depth (c :: rest) = depth [c] + depth rest :=
  depth_append [c] rest

/-- A text without braces. -/
def Unbraced (text : List Char) : Prop := '\x7b' ∉ text ∧ '\x7d' ∉ text

instance (text : List Char) : Decidable (Unbraced text) := inferInstanceAs (Decidable (_ ∧ _))

theorem Unbraced.depth_eq {text : List Char} (h : Unbraced text) : depth text = 0 := by
  rw [depth, List.count_eq_zero_of_not_mem h.1, List.count_eq_zero_of_not_mem h.2]
  rfl

theorem Unbraced.mono {text part : List Char} (h : Unbraced text) (hpart : part ⊆ text) :
    Unbraced part := ⟨fun hm => h.1 (hpart hm), fun hm => h.2 (hpart hm)⟩

/-! ## Texts that stay above the ground -/

/-- A text that closes no more braces than it opens and were open before, up to no place. -/
def Above (d : Int) (text : List Char) : Prop := ∀ front ∈ text.inits, 0 ≤ d + depth front

instance (d : Int) (text : List Char) : Decidable (Above d text) :=
  inferInstanceAs (Decidable (∀ front ∈ text.inits, 0 ≤ d + depth front))

theorem above_iff {d : Int} {text : List Char} :
    Above d text ↔ ∀ front, front <+: text → 0 ≤ d + depth front := by
  simp only [Above, List.mem_inits]

@[simp] theorem above_nil {d : Int} : Above d [] ↔ 0 ≤ d := by simp [Above]

theorem above_cons {d : Int} {c : Char} {rest : List Char} :
    Above d (c :: rest) ↔ 0 ≤ d ∧ Above (d + depth [c]) rest := by
  have hfront (front : List Char) : d + depth (c :: front) = d + depth [c] + depth front := by
    rw [depth_cons]
    omega
  simp only [above_iff, List.prefix_cons_iff]
  constructor
  · intro h
    refine ⟨by simpa using h [] (Or.inl rfl), fun front hprefix => ?_⟩
    rw [← hfront]
    exact h _ (Or.inr ⟨front, rfl, hprefix⟩)
  · rintro ⟨hd, h⟩ front (rfl | ⟨front, rfl, hprefix⟩)
    · simpa using hd
    · rw [hfront]
      exact h front hprefix

/-- **One text behind the other** starts at the depth that the first one leaves. -/
theorem above_append {d : Int} {a b : List Char} :
    Above d (a ++ b) ↔ Above d a ∧ Above (d + depth a) b := by
  induction a generalizing d with
  | nil =>
      simp only [List.nil_append, above_nil, depth_nil, Int.add_zero]
      exact ⟨fun h => ⟨by simpa using above_iff.mp h [] List.nil_prefix, h⟩, fun h => h.2⟩
  | cons c rest ih =>
      rw [List.cons_append, above_cons, above_cons, ih, depth_cons c rest, Int.add_assoc, and_assoc]

theorem Above.mono {d d' : Int} {text : List Char} (h : Above d text) (hd : d ≤ d') :
    Above d' text := by
  intro front hfront
  have hstart : 0 ≤ d + depth front := h front hfront
  omega

theorem Unbraced.above {d : Int} {text : List Char} (h : Unbraced text) (hd : 0 ≤ d) :
    Above d text := by
  intro front hfront
  rw [(h.mono ((List.mem_inits _ _).mp hfront).subset).depth_eq]
  omega

/-! ## Matching braces -/

/-- A text with matching braces. -/
def Matched (text : List Char) : Prop := Above 0 text ∧ depth text = 0

instance (text : List Char) : Decidable (Matched text) := inferInstanceAs (Decidable (_ ∧ _))

theorem Unbraced.matched {text : List Char} (h : Unbraced text) : Matched text :=
  ⟨h.above (by omega), h.depth_eq⟩

theorem Matched.above {d : Int} {text : List Char} (h : Matched text) (hd : 0 ≤ d) :
    Above d text := h.1.mono hd

theorem Matched.append {a b : List Char} (ha : Matched a) (hb : Matched b) : Matched (a ++ b) := by
  refine ⟨above_append.mpr ⟨ha.1, ?_⟩, ?_⟩
  · rw [ha.2]
    exact hb.1
  · rw [depth_append, ha.2, hb.2]
    rfl

theorem matched_append_iff_right {a b : List Char} (ha : Unbraced a) :
    Matched (a ++ b) ↔ Matched b := by
  have hfront : Above 0 a := ha.above (by omega)
  simp only [Matched, above_append, depth_append, ha.depth_eq, Int.zero_add, hfront, true_and]

theorem matched_append_iff_left {a b : List Char} (hb : Unbraced b) :
    Matched (a ++ b) ↔ Matched a := by
  rw [Matched, above_append, depth_append, hb.depth_eq, Int.add_zero, Matched]
  exact ⟨fun h => ⟨h.1.1, h.2⟩, fun h => ⟨⟨h.1, hb.above (by rw [h.2]; omega)⟩, h.2⟩⟩

theorem unbraced_takeWhile {p : Char → Bool} (hopen : p '\x7b' = false) (hclose : p '\x7d' = false)
    (text : List Char) : Unbraced (text.takeWhile p) :=
  ⟨fun hm => Bool.false_ne_true (hopen.symm.trans (List.mem_takeWhile_imp hm)),
    fun hm => Bool.false_ne_true (hclose.symm.trans (List.mem_takeWhile_imp hm))⟩

/-- What is dropped in front of a text does not matter if it has no braces. -/
theorem Matched.dropWhile {p : Char → Bool} (hopen : p '\x7b' = false) (hclose : p '\x7d' = false)
    {text : List Char} (h : Matched text) : Matched (text.dropWhile p) := by
  rw [← List.takeWhile_append_dropWhile (p := p) (l := text)] at h
  exact (matched_append_iff_right (unbraced_takeWhile hopen hclose text)).mp h

/-- What is dropped behind a text does not matter if it has no braces. -/
theorem Matched.dropEndWhile {p : Char → Bool} (hopen : p '\x7b' = false)
    (hclose : p '\x7d' = false) {text : List Char} (h : Matched text) :
    Matched (Text.dropEndWhile p text) := by
  have hdropped : Unbraced (text.reverse.takeWhile p).reverse :=
    (unbraced_takeWhile hopen hclose text.reverse).mono fun c hc => List.mem_reverse.mp hc
  have htext : Text.dropEndWhile p text ++ (text.reverse.takeWhile p).reverse = text := by
    rw [Text.dropEndWhile, ← List.reverse_append, List.takeWhile_append_dropWhile,
      List.reverse_reverse]
  rw [← htext] at h
  exact (matched_append_iff_left hdropped).mp h

/-- What stands between braces. -/
theorem Matched.braced {text : List Char} (h : Matched text) :
    Matched ('\x7b' :: (text ++ ['\x7d'])) := by
  have hopen : depth ['\x7b'] = 1 := rfl
  have hclose : depth ['\x7d'] = -1 := rfl
  constructor
  · rw [above_cons, above_append, above_cons, above_nil, hopen, hclose, h.2]
    exact ⟨by omega, h.above (by omega), by omega, by omega⟩
  · rw [depth_cons, depth_append, hopen, hclose, h.2]
    rfl

/-- A text with matching braces does not start with one that closes. -/
theorem Matched.head_ne {c : Char} {rest : List Char} (h : Matched (c :: rest)) : c ≠ '\x7d' := by
  rintro rfl
  have hclose : depth ['\x7d'] = -1 := rfl
  have hrest := above_iff.mp (above_cons.mp h.1).2 [] List.nil_prefix
  rw [hclose, depth_nil] at hrest
  omega

/-! ## Texts inside of a line -/

/-- A text without line breaks and tabs, with matching braces. -/
structure Inline (text : List Char) : Prop where
  /-- It has no line breaks. -/
  oneLine : OneLine text
  /-- It has no tabs. -/
  untabbed : '\t' ∉ text
  /-- Its braces match. -/
  matched : Matched text

instance (text : List Char) : Decidable (Inline text) :=
  decidable_of_iff (OneLine text ∧ '\t' ∉ text ∧ Matched text)
    ⟨fun h => ⟨h.1, h.2.1, h.2.2⟩, fun h => ⟨h.oneLine, h.untabbed, h.matched⟩⟩

theorem Inline.append {a b : String} (ha : Inline a.toList) (hb : Inline b.toList) :
    Inline (a ++ b).toList where
  oneLine := ha.oneLine.append hb.oneLine
  untabbed := by
    rw [String.toList_append, List.mem_append, not_or]
    exact ⟨ha.untabbed, hb.untabbed⟩
  matched := by
    rw [String.toList_append]
    exact ha.matched.append hb.matched

end Typings.Text
