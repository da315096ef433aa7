import Typings.Proofs.Layout

/-!
# Two replacements in either order

One replacement drops the first of two characters where the second one follows it. Another one
writes some text in place of a third character. If that text holds neither of the two, no pair is
completed by it, and none is broken: the replacements can be done in either order.

The text may also be empty. Then the two of a pair come together that have nothing but the third
character between them. The pass over the pairs finds them if the other pass is already done, and
does not find them if it comes first. So exactly in a text that holds such a pair the order
matters.

## Main definitions

* `HoldsApart` — a text with a pair that has a third character between its two.

## Main results

* `replace_exchange` — the two replacements in either order.
* `sublist_replace_dropped` — with the characters dropped first, no more is left.
* `replace_exchange_iff` — when the order does not matter.
-/

namespace Typings.Text

variable {x y t : Char} {written : List Char}

/-- The two of a pair stand in a text with a third character between them, once or more often, and
nothing else. -/
def HoldsApart (x y t : Char) (text : List Char) : Prop :=
  ∃ k, x :: (List.replicate (k + 1) t ++ [y]) <:+: text

theorem HoldsApart.cons {text : List Char} (h : HoldsApart x y t text) (c : Char) :
    HoldsApart x y t (c :: text) := by
  obtain ⟨k, hk⟩ := h
  exact ⟨k, List.infix_cons hk⟩

/-- Such a pair stands at the front, or behind it. -/
theorem holdsApart_cons {c : Char} {rest : List Char} (h : HoldsApart x y t (c :: rest)) :
    (c = x ∧ ∃ k, List.replicate (k + 1) t ++ [y] <+: rest) ∨ HoldsApart x y t rest := by
  obtain ⟨k, hk⟩ := h
  rcases List.infix_cons_iff.mp hk with hp | hi
  · obtain ⟨rfl, hrest⟩ := List.cons_prefix_cons.mp hp
    exact .inl ⟨rfl, k, hrest⟩
  · exact .inr ⟨k, hi⟩

theorem HoldsApart.tail {c : Char} {rest : List Char} (hc : c ≠ x)
    (h : HoldsApart x y t (c :: rest)) : HoldsApart x y t rest :=
  (holdsApart_cons h).resolve_left fun hfront => hc hfront.1

/-! ## The steps of both replacements -/

theorem replace_singleton_cons_self (c : Char) (written rest : List Char) :
    replace [c] written (c :: rest) = written ++ replace [c] written rest :=
  replace_append (List.cons_ne_nil c []) rest

theorem replace_singleton_cons_of_ne {c d : Char} (h : d ≠ c) (written rest : List Char) :
    replace [c] written (d :: rest) = d :: replace [c] written rest :=
  replace_cons fun hp => h (List.cons_prefix_cons.mp hp).1.symm

theorem replace_pair_cons_of_ne {c : Char} (h : c ≠ x) (written rest : List Char) :
    replace [x, y] written (c :: rest) = c :: replace [x, y] written rest :=
  replace_cons fun hp => h (List.cons_prefix_cons.mp hp).1.symm

/-- A replacement of another character keeps a pair. -/
theorem replace_singleton_pair (hxt : x ≠ t) (hyt : y ≠ t) (written rest : List Char) :
    replace [t] written ([x, y] ++ rest) = [x, y] ++ replace [t] written rest := by
  show replace [t] written (x :: y :: rest) = _
  rw [replace_singleton_cons_of_ne hxt, replace_singleton_cons_of_ne hyt]
  rfl

/-- Characters that start no pair are kept. -/
theorem replace_pair_append_left {front : List Char} (h : x ∉ front) (written rest : List Char) :
    replace [x, y] written (front ++ rest) = front ++ replace [x, y] written rest := by
  induction front with
  | nil => rfl
  | cons c front ih =>
      rw [List.mem_cons, not_or] at h
      obtain ⟨hc, hfront⟩ := h
      rw [List.cons_append, replace_pair_cons_of_ne (Ne.symm hc), ih hfront, List.cons_append]

/-- Where characters vanish in front of the second of a pair, the first one stands in the text with
the pair apart, or with nothing between. -/
theorem prefix_or_apart {rest : List Char} (hy : y ∉ written) (h : [y] <+: replace [t] written rest) :
    [y] <+: rest ∨ written = [] ∧ HoldsApart x y t (x :: rest) := by
  obtain ⟨k, hk, hnone⟩ := exists_prefix_of_prefix_replaced hy h
  cases k with
  | zero => exact .inl hk
  | succ k =>
      refine .inr ⟨by_contra fun hne => absurd (hnone hne) (Nat.succ_ne_zero k), k, ?_⟩
      exact (List.cons_prefix_cons.mpr ⟨rfl, hk⟩).isInfix

/-! ## Either order -/

/-- **The two replacements in either order.** What is written for the third character holds neither
of the two, and it is not empty or the text holds no pair apart. -/
theorem replace_exchange (hxt : x ≠ t) (hyt : y ≠ t) (hx : x ∉ written) (hy : y ∉ written)
    {text : List Char} (hapart : written = [] → ¬ HoldsApart x y t text) :
    replace [t] written (replace [x, y] [y] text)
      = replace [x, y] [y] (replace [t] written text) := by
  have hpair : [x, y] ≠ [] := List.cons_ne_nil x [y]
  induction text using replace_induction hpair with
  | nil => rfl
  | taken rest ih =>
      have hrest : written = [] → ¬ HoldsApart x y t rest := fun hnil h =>
        hapart hnil ((h.cons y).cons x)
      rw [replace_append hpair, replace_singleton_pair hxt hyt, replace_append hpair, ← ih hrest]
      exact replace_singleton_cons_of_ne hyt written _
  | kept c rest hkept ih =>
      have hrest : written = [] → ¬ HoldsApart x y t rest := fun hnil h => hapart hnil (h.cons c)
      rw [replace_cons hkept]
      by_cases hc : c = t
      · rw [hc, replace_singleton_cons_self, replace_singleton_cons_self,
          replace_pair_append_left hx, ih hrest]
      · -- No pair is completed at the front.
        have hstart : ¬ [x, y] <+: c :: replace [t] written rest := by
          intro hp
          obtain ⟨rfl, hfollows⟩ := List.cons_prefix_cons.mp hp
          rcases prefix_or_apart hy hfollows with hown | ⟨hnil, happart⟩
          · exact hkept (List.cons_prefix_cons.mpr ⟨rfl, hown⟩)
          · exact hapart hnil happart
        rw [replace_singleton_cons_of_ne hc, replace_singleton_cons_of_ne hc,
          replace_cons hstart, ih hrest]

/-! ## Characters that vanish -/

/-- With the pairs taken last, the pair that dropping completes is taken too. -/
theorem replace_dropped_cons (hxy : x ≠ y) {rest : List Char}
    (h : [y] <+: replace [t] [] rest) :
    replace [x, y] [y] (x :: replace [t] [] rest) = replace [x, y] [y] (replace [t] [] rest) := by
  obtain ⟨behind, hbehind⟩ := h
  rw [← hbehind]
  show replace [x, y] [y] ([x, y] ++ behind) = replace [x, y] [y] (y :: behind)
  rw [replace_append (List.cons_ne_nil x [y]), replace_pair_cons_of_ne (Ne.symm hxy)]
  rfl

/-- **With the characters dropped first, no more is left**: the pairs that dropping completes are
taken too. -/
theorem sublist_replace_dropped (hxy : x ≠ y) (hxt : x ≠ t) (hyt : y ≠ t) (text : List Char) :
    (replace [x, y] [y] (replace [t] [] text)).Sublist
      (replace [t] [] (replace [x, y] [y] text)) := by
  have hpair : [x, y] ≠ [] := List.cons_ne_nil x [y]
  induction text using replace_induction hpair with
  | nil => exact List.Sublist.refl _
  | taken rest ih =>
      rw [replace_append hpair, replace_singleton_pair hxt hyt, replace_append hpair]
      show (y :: replace [x, y] [y] (replace [t] [] rest)).Sublist
        (replace [t] [] (y :: replace [x, y] [y] rest))
      rw [replace_singleton_cons_of_ne hyt]
      exact ih.cons_cons y
  | kept c rest hkept ih =>
      rw [replace_cons hkept]
      by_cases hc : c = t
      · rw [hc, replace_singleton_cons_self, replace_singleton_cons_self]
        exact ih
      · rw [replace_singleton_cons_of_ne hc, replace_singleton_cons_of_ne hc]
        by_cases hp : [x, y] <+: c :: replace [t] [] rest
        · obtain ⟨rfl, hfollows⟩ := List.cons_prefix_cons.mp hp
          rw [replace_dropped_cons hxy hfollows]
          exact ih.cons x
        · rw [replace_cons hp]
          exact ih.cons_cons c

/-- A run of characters that vanish uncovers what is behind it. -/
theorem prefix_replace_dropped (hyt : y ≠ t) {k : Nat} {rest : List Char}
    (h : List.replicate k t ++ [y] <+: rest) : [y] <+: replace [t] [] rest := by
  obtain ⟨behind, rfl⟩ := h
  induction k with
  | zero =>
      show [y] <+: replace [t] [] (y :: behind)
      rw [replace_singleton_cons_of_ne hyt]
      exact List.cons_prefix_cons.mpr ⟨rfl, List.nil_prefix⟩
  | succ k ih =>
      rw [List.replicate_succ, List.cons_append, List.cons_append, replace_singleton_cons_self]
      exact ih

/-- Where a pair stands apart, the order matters. -/
theorem replace_dropped_ne (hxy : x ≠ y) (hxt : x ≠ t) (hyt : y ≠ t) {text : List Char}
    (h : HoldsApart x y t text) :
    replace [t] [] (replace [x, y] [y] text) ≠ replace [x, y] [y] (replace [t] [] text) := by
  have hpair : [x, y] ≠ [] := List.cons_ne_nil x [y]
  induction text using replace_induction hpair with
  | nil =>
      obtain ⟨k, hk⟩ := h
      simp [List.infix_nil] at hk
  | taken rest ih =>
      have hrest : HoldsApart x y t rest := by
        rcases holdsApart_cons h with ⟨-, k, hk⟩ | h
        · exact absurd (List.cons_prefix_cons.mp hk).1.symm hyt
        · exact h.tail (Ne.symm hxy)
      rw [replace_append hpair, replace_singleton_pair hxt hyt, replace_append hpair]
      show replace [t] [] (y :: replace [x, y] [y] rest)
        ≠ y :: replace [x, y] [y] (replace [t] [] rest)
      rw [replace_singleton_cons_of_ne hyt]
      exact fun he => ih hrest (List.cons_inj_right y |>.mp he)
  | kept c rest hkept ih =>
      rw [replace_cons hkept]
      by_cases hc : c = t
      · rw [hc, replace_singleton_cons_self, replace_singleton_cons_self]
        exact ih (h.tail fun hcx => hxt (hcx.symm.trans hc))
      · rw [replace_singleton_cons_of_ne hc, replace_singleton_cons_of_ne hc]
        by_cases hp : [x, y] <+: c :: replace [t] [] rest
        · -- The first of the pair is taken on one side only.
          obtain ⟨rfl, hfollows⟩ := List.cons_prefix_cons.mp hp
          rw [replace_dropped_cons hxy hfollows]
          intro he
          have hlength := (sublist_replace_dropped hxy hxt hyt rest).length_le
          rw [← he, List.length_cons] at hlength
          omega
        · have hrest : HoldsApart x y t rest := by
            rcases holdsApart_cons h with ⟨rfl, k, hk⟩ | hrest
            · exact absurd (List.cons_prefix_cons.mpr ⟨rfl, prefix_replace_dropped hyt hk⟩) hp
            · exact hrest
          rw [replace_cons hp]
          exact fun he => ih hrest (List.cons_inj_right c |>.mp he)

/-- **When the order does not matter**: something is written for the third character, or the text
holds no pair apart. -/
theorem replace_exchange_iff (hxy : x ≠ y) (hxt : x ≠ t) (hyt : y ≠ t) (hx : x ∉ written)
    (hy : y ∉ written) {text : List Char} :
    replace [t] written (replace [x, y] [y] text) = replace [x, y] [y] (replace [t] written text)
      ↔ (written = [] → ¬ HoldsApart x y t text) := by
  refine ⟨fun hsame hnil happart => ?_, replace_exchange hxt hyt hx hy⟩
  rw [hnil] at hsame
  exact replace_dropped_ne hxy hxt hyt happart hsame

end Typings.Text
