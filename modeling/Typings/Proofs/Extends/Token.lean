import Mathlib.Data.List.Basic
import Typings.Extends
import Typings.Proofs.Text.Replacement

/-!
# Tokens in a text

A text is *plain* when no token starts in it. Plain texts put one behind the other need not be
plain: the start of a token may lie across the place where they meet. A text is *sealed* when
no token starts in it whatever is written behind it. Sealed texts may be put one behind the
other, and the pass that replaces tokens goes through them without a change.

What is written by the library itself is sealed because it is fixed, and a given text becomes
sealed by the first character behind it that tokens do not hold.

## Main results

* `sealed_append`, `Plain.append_fixed` — how sealed texts arise.
* `substitute_sealed` — the pass keeps a sealed text.
* `substitute_token` — the pass replaces the token for a base.
* `token_induction` — induction along the steps of the pass.
-/

namespace Typings.Extends

/-! ## Plain texts -/

/-- No token starts in a text. -/
def Plain (text : List Char) : Prop := ¬ tokenStart.toList <:+: text

instance (text : List Char) : Decidable (Plain text) := inferInstanceAs (Decidable (¬ _))

theorem tokenStart_eq : tokenStart.toList = '#' :: "\x7bExtendsPlaceholder_".toList := by decide

theorem plain_nil : Plain [] := by decide

theorem Plain.mono {text part : List Char} (h : Plain text) (hpart : part <:+: text) :
    Plain part := fun hi => h (hi.trans hpart)

/-- Around a character that tokens do not hold, a text is plain when both sides are. -/
theorem plain_append_cons_iff {a b : List Char} {c : Char} (hc : c ∉ tokenStart.toList) :
    Plain (a ++ c :: b) ↔ Plain a ∧ Plain b := by
  rw [Plain, Text.infix_append_cons_iff hc, not_or]
  exact Iff.rfl

/-- In front of a plain text there may stand whatever does not hold the first character of a
token. -/
theorem Plain.append_left {a b : List Char} (ha : '#' ∉ a) (hb : Plain b) : Plain (a ++ b) := by
  intro h
  rw [tokenStart_eq] at h
  have hi := Text.infix_of_infix_append ha h
  rw [← tokenStart_eq] at hi
  exact hb hi

/-! ## Sealed texts -/

/-- No token starts in a text, whatever stands behind it. -/
def Sealed : List Char → Prop
  | [] => True
  | c :: rest =>
    (¬ tokenStart.toList <+: c :: rest ∧ ¬ c :: rest <+: tokenStart.toList) ∧ Sealed rest

instance decidableSealed : (text : List Char) → Decidable (Sealed text)
  | [] => inferInstanceAs (Decidable True)
  | _ :: rest =>
    have := decidableSealed rest
    inferInstanceAs (Decidable (_ ∧ Sealed rest))

theorem not_prefix_of_sealed {c : Char} {rest behind : List Char} (h : Sealed (c :: rest)) :
    ¬ tokenStart.toList <+: c :: rest ++ behind := by
  intro hp
  rcases List.prefix_or_prefix_of_prefix hp (List.prefix_append (c :: rest) behind) with hs | hs
  · exact h.1.1 hs
  · exact h.1.2 hs

theorem sealed_append {a b : List Char} (ha : Sealed a) (hb : Sealed b) : Sealed (a ++ b) := by
  induction a with
  | nil => exact hb
  | cons c rest ih =>
      refine ⟨⟨not_prefix_of_sealed ha, fun hp => ?_⟩, ih ha.2⟩
      exact ha.1.2 ((List.prefix_append (c :: rest) b).trans hp)

/-- A character that tokens do not hold seals a plain text. -/
theorem Plain.concat {a : List Char} {c : Char} (ha : Plain a) (hc : c ∉ tokenStart.toList) :
    Sealed (a ++ [c]) := by
  induction a with
  | nil =>
      refine ⟨⟨fun hp => ?_, fun hp => hc (hp.subset (by simp))⟩, trivial⟩
      exact absurd (Text.eq_nil_of_prefix_cons hc hp) (by decide)
  | cons x a ih =>
      refine ⟨⟨fun hp => ?_, fun hp => hc (hp.subset (by simp))⟩,
        ih (ha.mono (List.suffix_cons x a).isInfix)⟩
      have hi : tokenStart.toList <:+: x :: a ++ c :: [] := hp.isInfix
      rcases (Text.infix_append_cons_iff hc).mp hi with h | h
      · exact ha h
      · exact absurd (List.infix_nil.mp h) (by decide)

/-- A fixed text that starts with a character foreign to tokens seals a plain text. -/
theorem Plain.append_fixed {a fixed : List Char} {c : Char} (ha : Plain a)
    (hc : c ∉ tokenStart.toList) (hfixed : Sealed fixed) : Sealed (a ++ c :: fixed) := by
  rw [List.append_cons]
  exact sealed_append (ha.concat hc) hfixed

theorem Sealed.append_plain {a b : List Char} (ha : Sealed a) (hb : Plain b) :
    Plain (a ++ b) := by
  induction a with
  | nil => exact hb
  | cons c rest ih =>
      intro h
      rcases List.infix_cons_iff.mp h with hp | hi
      · exact not_prefix_of_sealed ha hp
      · exact ih ha.2 hi

theorem Sealed.plain {a : List Char} (ha : Sealed a) : Plain a := by
  have h := ha.append_plain plain_nil
  rwa [List.append_nil] at h

/-- A plain text between fixed ones, of which the second starts with a blank and need not be
sealed. -/
theorem Sealed.append_fixed_plain {a b fixed : List Char} (ha : Sealed a) (hb : Plain b)
    (hfixed : Plain fixed ∧ fixed.head? = some ' ') : Plain (a ++ b ++ fixed) := by
  obtain ⟨hplain, hhead⟩ := hfixed
  cases fixed with
  | nil => simp at hhead
  | cons c fixed =>
      have hc : c = ' ' := by simpa using hhead
      subst hc
      have hrest := hplain.mono (List.suffix_cons ' ' fixed).isInfix
      exact (plain_append_cons_iff (by decide)).mpr ⟨ha.append_plain hb, hrest⟩

/-! ## The pass over a text with tokens -/

/-- The pass keeps a character at which no token starts. -/
theorem substitute_kept (meaning : String → Option String) {c : Char} {rest : List Char}
    (h : tokenAt? (c :: rest) = none) :
    Text.substitute (tokenRule meaning) (c :: rest)
      = c :: Text.substitute (tokenRule meaning) rest := by
  refine Text.substitute_cons_of_none ?_
  simp only [tokenRule, h]

theorem tokenAt?_of_not_prefix {text : List Char} (h : ¬ tokenStart.toList <+: text) :
    tokenAt? text = none := by
  have hstart : tokenStart.toList.isPrefixOf? text = none := by
    rw [Option.eq_none_iff_forall_ne_some]
    intro found hfound
    rw [List.isPrefixOf?_eq_some_iff_append_eq] at hfound
    exact h ⟨found, hfound⟩
  simp only [tokenAt?, hstart]

/-- The pass keeps a sealed text, whatever stands behind it. -/
theorem substitute_sealed (meaning : String → Option String) {a : List Char} (ha : Sealed a)
    (behind : List Char) :
    Text.substitute (tokenRule meaning) (a ++ behind)
      = a ++ Text.substitute (tokenRule meaning) behind := by
  induction a with
  | nil => rfl
  | cons c rest ih =>
      have hstart : tokenAt? (c :: (rest ++ behind)) = none :=
        tokenAt?_of_not_prefix (not_prefix_of_sealed ha)
      rw [List.cons_append, substitute_kept meaning hstart, ih ha.2, List.cons_append]

/-- Cutting a text at the first of a character that stands behind a part without it. -/
theorem splitFirst_append {sep : Char} {before : List Char} (h : sep ∉ before)
    (behind : List Char) :
    Text.splitFirst sep (before ++ sep :: behind) = some (before, behind) := by
  induction before with
  | nil => simp [Text.splitFirst]
  | cons c rest ih =>
      have hc : c ≠ sep := fun e => h (by simp [e])
      have hrest : sep ∉ rest := fun hm => h (by simp [hm])
      simp [Text.splitFirst, hc, ih hrest]

/-- The characters of a token. -/
theorem token_toList (base : String) :
    (token base).toList = tokenStart.toList ++ (base.toList ++ [tokenEnd]) := by
  simp [token]

/-- At the token for a base, that base is read. -/
theorem tokenAt?_token {base : String} (h : tokenEnd ∉ base.toList) (behind : List Char) :
    tokenAt? ((token base).toList ++ behind) = some base.toList := by
  have hstart : tokenStart.toList.isPrefixOf? ((token base).toList ++ behind)
      = some (base.toList ++ tokenEnd :: behind) := by
    rw [List.isPrefixOf?_eq_some_iff_append_eq, token_toList]
    simp
  simp only [tokenAt?, hstart, splitFirst_append h, Option.map_some]

/-- The pass replaces the token for a base by its meaning, and goes on behind it. -/
theorem substitute_token (meaning : String → Option String) {base : String}
    (h : tokenEnd ∉ base.toList) (behind : List Char) :
    Text.substitute (tokenRule meaning) ((token base).toList ++ behind)
      = ((meaning base).getD (token base)).toList
        ++ Text.substitute (tokenRule meaning) behind := by
  have hne : (token base).toList ++ behind ≠ [] := by simp [token_toList]
  obtain ⟨k, hk⟩ : ∃ k, (token base).toList.length = k + 1 :=
    Nat.exists_eq_add_one.mpr (List.length_pos_iff.mpr (by simp [token_toList]))
  have hrule : tokenRule meaning ((token base).toList ++ behind)
      = some (((meaning base).getD (token base)).toList, k + 1) := by
    simp only [tokenRule, tokenAt?_token h, String.ofList_toList]
    cases meaning base with
    | none => simp [hk]
    | some clause => simp [hk]
  rw [Text.substitute_of_some hrule hne, ← hk, List.drop_left]

/-- What is read at the front of a text is the base of a token there. -/
theorem exists_token_of_tokenAt? {text base : List Char} (h : tokenAt? text = some base) :
    tokenEnd ∉ base ∧ ∃ behind, text = (token (String.ofList base)).toList ++ behind := by
  rw [tokenAt?] at h
  split at h
  · rename_i found hfound
    obtain ⟨⟨before, behind⟩, hsplit, rfl⟩ := Option.map_eq_some_iff.mp h
    refine ⟨Text.not_mem_of_splitFirst hsplit, behind, ?_⟩
    rw [List.isPrefixOf?_eq_some_iff_append_eq] at hfound
    rw [← hfound, Text.append_of_splitFirst hsplit, token_toList]
    simp
  · cases h

/-- Induction along the steps of the pass: a text is empty, or it starts with a token, or it starts
with a character that is kept. -/
theorem token_induction {motive : List Char → Prop} (nil : motive [])
    (taken : ∀ base rest, tokenEnd ∉ base.toList → motive rest →
      motive ((token base).toList ++ rest))
    (kept : ∀ c rest, tokenAt? (c :: rest) = none → motive rest → motive (c :: rest))
    (text : List Char) : motive text := by
  induction hn : text.length using Nat.strongRecOn generalizing text with
  | ind n ih =>
      cases text with
      | nil => exact nil
      | cons c rest =>
          cases htoken : tokenAt? (c :: rest) with
          | none =>
              have hlen : rest.length < n := by
                rw [← hn, List.length_cons]
                omega
              exact kept c rest htoken (ih _ hlen rest rfl)
          | some base =>
              obtain ⟨hend, behind, hbehind⟩ := exists_token_of_tokenAt? htoken
              have hlen : behind.length < n := by
                rw [← hn, hbehind, List.length_append, token_toList, List.length_append,
                  List.length_append, List.length_singleton]
                omega
              rw [hbehind]
              exact taken _ behind (by rwa [String.toList_ofList]) (ih _ hlen behind rfl)

end Typings.Extends
