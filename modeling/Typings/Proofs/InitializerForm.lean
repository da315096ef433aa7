import Mathlib.Data.List.DropRight
import Typings.Proofs.Initializer

/-!
# The form of a value

Any text can be found as the value of a constant, not only a literal. What is left of it has a form
of its own: there is something left, no letter of a suffix stands at the end, and no zero in front,
unless it is the zero of a hexadecimal mark or all that is left.

Letters go at the end, and then zeros go in front. That zeros go cannot bring a letter to the end,
since the last character is the same as before or a zero. It cannot bring a hexadecimal mark to the
front either, for a mark starts with a zero. So one pass is enough, and the texts of this form are
those that stay as they are.

## Main definitions

* `IsMarked`, `IsUnsuffixed` — what a text starts and ends with.
* `Cleaned` — a text and what is left of it.
* `IsCanonical` — the form of what is left.

## Main results

* `cleaned_iff` — what is left is determined by the text.
* `cleanChars_eq_self_iff` — the texts that stay as they are.
* `clean_canonical` — the value of a constant as it is written.
-/

namespace Typings.Initializer

/-- A text that starts with the mark of hexadecimal digits. -/
def IsMarked (text : List Char) : Prop := ['0', 'x'] <+: text ∨ ['0', 'X'] <+: text

/-- A text with no letter of a suffix at its end. -/
def IsUnsuffixed (text : List Char) : Prop := ∀ c ∈ text.getLast?, isSuffixLetter c = false

/-- A text and what is left of it: letters at the end are taken away as far as there are any, and
so are zeros in front of what remains, unless it starts with a hexadecimal mark. If nothing
remains, it is a zero. -/
inductive Cleaned : List Char → List Char → Prop where
  /-- A hexadecimal mark keeps what follows it. -/
  | marked {stem letters : List Char} (hletters : ∀ c ∈ letters, isSuffixLetter c = true)
    (hstem : IsUnsuffixed stem) (hmark : IsMarked stem) : Cleaned (stem ++ letters) stem
  /-- Something else than zeros remains. -/
  | digits {zeros rest letters : List Char} (hletters : ∀ c ∈ letters, isSuffixLetter c = true)
    (hstem : IsUnsuffixed (zeros ++ rest)) (hmark : ¬ IsMarked (zeros ++ rest))
    (hzeros : ∀ c ∈ zeros, c = '0') (hrest : rest ≠ []) (hhead : rest.head? ≠ some '0') :
    Cleaned (zeros ++ rest ++ letters) rest
  /-- Zeros and letters only. -/
  | zero {zeros letters : List Char} (hletters : ∀ c ∈ letters, isSuffixLetter c = true)
    (hzeros : ∀ c ∈ zeros, c = '0') : Cleaned (zeros ++ letters) ['0']

/-- The form of what is left of a text. -/
structure IsCanonical (text : List Char) : Prop where
  nonempty : text ≠ []
  unsuffixed : IsUnsuffixed text
  unpadded : IsMarked text ∨ text = ['0'] ∨ text.head? ≠ some '0'

/-! ## The two ends of a text -/

theorem isHexadecimal_iff {text : List Char} : isHexadecimal text = true ↔ IsMarked text := by
  rw [isHexadecimal.eq_def, IsMarked]
  split
  · rename_i c rest
    simp [@eq_comm _ c]
  · rename_i hno
    refine iff_of_false (by simp) ?_
    rintro (⟨rest, rfl⟩ | ⟨rest, rfl⟩) <;> exact hno _ rest rfl

theorem isUnsuffixed_iff {text : List Char} :
    IsUnsuffixed text ↔ Text.dropEndWhile isSuffixLetter text = text := by
  show _ ↔ text.rdropWhile isSuffixLetter = text
  rw [List.rdropWhile_eq_self_iff, IsUnsuffixed]
  constructor
  · intro h hne
    rw [h _ (List.getLast?_eq_getLast_of_ne_nil hne)]
    simp
  · intro h c hc
    obtain ⟨hne, rfl⟩ := List.mem_getLast?_eq_getLast hc
    simpa using h hne

/-- Zeros hold no letter of a suffix. -/
theorem isUnsuffixed_of_zeros {zeros : List Char} (h : ∀ c ∈ zeros, c = '0') :
    IsUnsuffixed zeros := by
  intro c hc
  rw [h c (List.mem_of_getLast? hc)]
  rfl

theorem not_isMarked_of_zeros {zeros : List Char} (h : ∀ c ∈ zeros, c = '0') :
    ¬ IsMarked zeros := by
  rintro (⟨rest, rfl⟩ | ⟨rest, rfl⟩)
  · exact absurd (h 'x' (by simp)) (by decide)
  · exact absurd (h 'X' (by simp)) (by decide)

/-- Zeros go in front of anything else. -/
theorem dropZeros_append {zeros rest : List Char} (hzeros : ∀ c ∈ zeros, c = '0')
    (hrest : rest ≠ []) (hhead : rest.head? ≠ some '0') : dropZeros (zeros ++ rest) = rest := by
  obtain ⟨first, others, rfl⟩ := List.exists_cons_of_ne_nil hrest
  have hfirst : first ≠ '0' := fun h => hhead (by rw [h]; rfl)
  rw [dropZeros, List.dropWhile_append_of_pos fun c hc => by simpa using hzeros c hc,
    List.dropWhile_cons_of_neg (by simpa using hfirst)]

theorem dropZeros_of_zeros {zeros : List Char} (h : ∀ c ∈ zeros, c = '0') :
    dropZeros zeros = ['0'] := by
  rw [dropZeros, List.dropWhile_eq_nil_iff.mpr fun c hc => by simpa using h c hc]

/-! ## What is left -/

variable {text rest : List Char}

theorem cleanChars_of_isMarked {stem letters : List Char}
    (hletters : ∀ c ∈ letters, isSuffixLetter c = true) (hstem : IsUnsuffixed stem)
    (hmark : IsMarked stem) : cleanChars (stem ++ letters) = stem := by
  rw [cleanChars, Text.dropEndWhile_append_of_forall hletters, isUnsuffixed_iff.mp hstem,
    if_pos (isHexadecimal_iff.mpr hmark)]

theorem cleanChars_of_not_isMarked {stem letters : List Char}
    (hletters : ∀ c ∈ letters, isSuffixLetter c = true) (hstem : IsUnsuffixed stem)
    (hmark : ¬ IsMarked stem) : cleanChars (stem ++ letters) = dropZeros stem := by
  rw [cleanChars, Text.dropEndWhile_append_of_forall hletters, isUnsuffixed_iff.mp hstem,
    if_neg (isHexadecimal_iff.not.mpr hmark)]

theorem Cleaned.cleanChars_eq (h : Cleaned text rest) : cleanChars text = rest := by
  cases h with
  | marked hletters hstem hmark => exact cleanChars_of_isMarked hletters hstem hmark
  | digits hletters hstem hmark hzeros hrest hhead =>
      rw [cleanChars_of_not_isMarked hletters hstem hmark, dropZeros_append hzeros hrest hhead]
  | zero hletters hzeros =>
      rw [cleanChars_of_not_isMarked hletters (isUnsuffixed_of_zeros hzeros)
        (not_isMarked_of_zeros hzeros), dropZeros_of_zeros hzeros]

/-- Without letters at its end, a text is a run of zeros with the rest behind it. -/
theorem cleaned_cleanChars (text : List Char) : Cleaned text (cleanChars text) := by
  have hletters : ∀ c ∈ text.rtakeWhile isSuffixLetter, isSuffixLetter c = true :=
    fun c hc => List.mem_rtakeWhile_imp hc
  have hsplit : Text.dropEndWhile isSuffixLetter text ++ text.rtakeWhile isSuffixLetter = text :=
    List.rdropWhile_append_rtakeWhile
  have hstem : IsUnsuffixed (Text.dropEndWhile isSuffixLetter text) :=
    isUnsuffixed_iff.mpr (List.rdropWhile_idempotent isSuffixLetter text)
  generalize Text.dropEndWhile isSuffixLetter text = stem at hsplit hstem
  generalize text.rtakeWhile isSuffixLetter = letters at hsplit hletters
  subst hsplit
  by_cases hmark : IsMarked stem
  · rw [cleanChars_of_isMarked hletters hstem hmark]
    exact .marked hletters hstem hmark
  · rw [cleanChars_of_not_isMarked hletters hstem hmark]
    have hzeros : ∀ c ∈ stem.takeWhile (· = '0'), c = '0' :=
      fun c hc => by simpa using List.mem_takeWhile_imp hc
    have hhead : (stem.dropWhile (· = '0')).head? ≠ some '0' := fun h => by
      simpa [h] using List.head?_dropWhile_not (fun c => decide (c = '0')) stem
    have hcut : stem.takeWhile (· = '0') ++ stem.dropWhile (· = '0') = stem :=
      List.takeWhile_append_dropWhile
    generalize stem.takeWhile (· = '0') = zeros at hzeros hcut
    generalize stem.dropWhile (· = '0') = behind at hhead hcut
    subst hcut
    by_cases hbehind : behind = []
    · rw [hbehind, List.append_nil, dropZeros_of_zeros hzeros]
      exact .zero hletters hzeros
    · rw [dropZeros_append hzeros hbehind hhead]
      exact .digits hletters hstem hmark hzeros hbehind hhead

/-- **What is left of a text** is determined by it. -/
theorem cleaned_iff : Cleaned text rest ↔ rest = cleanChars text :=
  ⟨fun h => h.cleanChars_eq.symm, fun h => h ▸ cleaned_cleanChars text⟩

/-! ## The form of what is left -/

/-- What is left ends as the text without its letters does, and starts with a mark or without a
zero that has something behind it. -/
theorem Cleaned.isCanonical (h : Cleaned text rest) : IsCanonical rest := by
  cases h with
  | marked _ hstem hmark =>
      refine ⟨?_, hstem, Or.inl hmark⟩
      rintro rfl
      simp [IsMarked] at hmark
  | digits _ hstem _ _ hrest hhead =>
      refine ⟨hrest, fun c hc => hstem c ?_, Or.inr (Or.inr hhead)⟩
      rwa [List.getLast?_append_of_ne_nil _ hrest]
  | zero => exact ⟨by simp, isUnsuffixed_of_zeros (by simp), Or.inr (Or.inl rfl)⟩

/-- **The texts that stay as they are.** -/
theorem cleanChars_eq_self_iff : cleanChars text = text ↔ IsCanonical text := by
  constructor
  · intro h
    exact (cleaned_iff.mpr h.symm).isCanonical
  · rintro ⟨hne, hend, hfront⟩
    have hnone : ∀ c ∈ ([] : List Char), isSuffixLetter c = true := by simp
    by_cases hmark : IsMarked text
    · simpa using cleanChars_of_isMarked hnone hend hmark
    · have hzeros := cleanChars_of_not_isMarked hnone hend hmark
      rw [List.append_nil] at hzeros
      rw [hzeros]
      rcases hfront with h | rfl | hhead
      · exact absurd h hmark
      · rfl
      · exact dropZeros_append (List.forall_mem_nil _) hne hhead

/-- **The value of a constant as it is written**, for any text. It is what is left of the text and
nothing else, it has the form of what is left, and cleaning it once more changes nothing. The texts
of this form are those that cleaning leaves as they are. -/
theorem clean_canonical (value : String) :
    IsCanonical (clean value).toList ∧
      (∀ rest, Cleaned value.toList rest ↔ rest = (clean value).toList) ∧
      clean (clean value) = clean value ∧
      (clean value = value ↔ IsCanonical value.toList) := by
  have hchars : (clean value).toList = cleanChars value.toList := String.toList_ofList
  have hform : IsCanonical (clean value).toList := by
    rw [hchars]
    exact (cleaned_cleanChars _).isCanonical
  have hself (text : String) : clean text = text ↔ IsCanonical text.toList := by
    rw [← cleanChars_eq_self_iff, ← String.toList_inj, clean, String.toList_ofList]
  refine ⟨hform, fun rest => ?_, (hself _).mpr hform, hself value⟩
  rw [hchars]
  exact cleaned_iff

example : clean "00x1UL" = "x1" ∧ clean "0xul" = "0x" ∧ clean "0é" = "é" := by
  refine ⟨?_, ?_, ?_⟩ <;> cbv

end Typings.Initializer
