import Mathlib.Data.Nat.Digits.Defs
import Typings.Initializer

/-!
# What the value of a constant means

The literal of a constant denotes an integer: there may be a sign in front, then comes the mark of
a base, then digits, and behind them the letters of a width suffix. Written again it must denote
the same integer, without the letters, and a decimal literal must not start with a zero in front of
other digits, for it would be read as an octal one.

Most literals come through. But zeros are dropped at the front of the text and not at the front of
the digits. Behind a sign they are out of reach. And the zero of a binary mark is the first
character of a text like those that go, so that a word is left there and no number.

## Main definitions

* `Radix`, `Literal` — literals of integers.
* `Literal.text`, `Literal.value` — how a literal is written, and the integer that it denotes.
* `Literal.IsUnpadded` — a literal that is not read as an octal one.
* `Literal.trim` — the literal without zeros in front of its digits.

## Main results

* `Literal.text_injective` — a text denotes one integer at most.
* `Literal.value_trim`, `Literal.isUnpadded_trim` — zeros in front of digits count for nothing.
* `clean_text_of_negative`, `clean_text_of_decimal`, `clean_text_of_hexadecimal`,
  `clean_text_of_binary` — what becomes of a literal.
* `clean_keeps_value` — the literals that come through.
* `clean_loses_value` — a binary literal, and a zero behind a sign.
-/

namespace Typings.Initializer

/-! ## Digits -/

/-- What a character counts as a digit, small or capital; `16` if it is none. -/
def digitValue (c : Char) : Nat := "0123456789abcdef".toList.idxOf c.toLower

/-- The integer that digits denote in a base. -/
def magnitude (base : Nat) (digits : List Char) : Nat :=
  Nat.ofDigits base (digits.map digitValue).reverse

/-- No digit is a letter of a suffix. -/
theorem isSuffixLetter_of_digit {c : Char} (h : digitValue c < 16) : isSuffixLetter c = false := by
  by_contra hletter
  rw [Bool.not_eq_false] at hletter
  simp only [isSuffixLetter, Bool.or_eq_true, decide_eq_true_eq] at hletter
  rcases hletter with ((rfl | rfl) | rfl) | rfl <;> exact absurd h (by decide)

/-- Digits alone make no hexadecimal literal. -/
theorem isHexadecimal_of_digits {cs : List Char} (h : ∀ c ∈ cs, digitValue c < 16) :
    isHexadecimal cs = false := by
  rw [isHexadecimal.eq_def]
  split
  · rename_i c rest
    have hc := h c (by simp)
    by_contra hmark
    rw [Bool.not_eq_false, Bool.or_eq_true, decide_eq_true_eq, decide_eq_true_eq] at hmark
    rcases hmark with rfl | rfl <;> exact absurd hc (by decide)
  · rfl

/-! ## Zeros in front -/

theorem dropZeros_ne_nil (digits : List Char) : dropZeros digits ≠ [] := by
  rw [dropZeros]
  split
  · exact List.cons_ne_nil _ _
  · assumption

theorem mem_dropZeros {digits : List Char} {c : Char} (h : c ∈ dropZeros digits) :
    c = '0' ∨ c ∈ digits := by
  rw [dropZeros] at h
  split at h
  · exact Or.inl (List.mem_singleton.mp h)
  · exact Or.inr ((List.dropWhile_suffix _).subset h)

/-- A zero in front is left only if nothing else is. -/
theorem dropZeros_eq_zero_or (digits : List Char) :
    dropZeros digits = ['0'] ∨ (dropZeros digits).head? ≠ some '0' := by
  rw [dropZeros]
  split
  · exact Or.inl rfl
  · right
    have hhead := List.head?_dropWhile_not (fun c => decide (c = '0')) digits
    intro hzero
    rw [hzero] at hhead
    exact absurd hhead (by decide)

/-- Zeros in front of digits count for nothing. -/
theorem magnitude_dropZeros (base : Nat) (digits : List Char) :
    magnitude base (dropZeros digits) = magnitude base digits := by
  have hdrop : magnitude base (digits.dropWhile (· = '0')) = magnitude base digits := by
    induction digits with
    | nil => rfl
    | cons c rest ih =>
        by_cases hc : c = '0'
        · rw [List.dropWhile_cons_of_pos (by simpa using hc), ih, hc, magnitude, magnitude,
            List.map_cons, List.reverse_cons]
          exact (Nat.ofDigits_append_zero _).symm
        · rw [List.dropWhile_cons_of_neg (by simpa using hc)]
  rw [← hdrop, dropZeros]
  split
  · rename_i hnil
    rw [hnil]
    simp [magnitude, digitValue]
  · rfl

/-! ## Literals -/

/-- How the digits of a literal are counted. The letter of a mark is small or a capital. -/
inductive Radix
  | decimal
  | hexadecimal (capital : Bool)
  | binary (capital : Bool)
  deriving DecidableEq, Repr

namespace Radix

def base : Radix → Nat
  | decimal => 10
  | hexadecimal _ => 16
  | binary _ => 2

/-- The letter of the mark. -/
def letter? : Radix → Option Char
  | decimal => none
  | hexadecimal capital => some (if capital then 'X' else 'x')
  | binary capital => some (if capital then 'B' else 'b')

/-- What stands in front of the digits. -/
def mark (r : Radix) : List Char :=
  match r.letter? with
  | none => []
  | some letter => ['0', letter]

theorem base_pos (r : Radix) : 0 < r.base := by
  cases r <;> simp [base]

theorem base_le (r : Radix) : r.base ≤ 16 := by
  cases r <;> simp [base]

theorem base_of_letter?_eq_none {r : Radix} (h : r.letter? = none) : r.base = 10 := by
  cases r with
  | decimal => rfl
  | hexadecimal => cases h
  | binary => cases h

/-- The letter of a mark is no decimal digit. -/
theorem le_digitValue_of_letter? {r : Radix} {letter : Char} (h : r.letter? = some letter) :
    10 ≤ digitValue letter := by
  rcases r with _ | (_ | _) | (_ | _) <;> cases h <;> decide

theorem letter?_injective : Function.Injective letter? := by
  intro r r' h
  rcases r with _ | (_ | _) | (_ | _) <;> rcases r' with _ | (_ | _) | (_ | _) <;>
    first
    | rfl
    | exact absurd h (by decide)

end Radix

/-- A literal of an integer. -/
@[ext]
structure Literal where
  /-- Whether there is a sign in front. -/
  negative : Bool
  radix : Radix
  digits : List Char
  nonempty : digits ≠ []
  valid : digits.all fun c => digitValue c < radix.base

namespace Literal

theorem digitValue_lt (l : Literal) {c : Char} (hc : c ∈ l.digits) :
    digitValue c < l.radix.base :=
  of_decide_eq_true (List.all_eq_true.mp l.valid c hc)

/-- The literal without its sign. -/
def unsigned (l : Literal) : List Char := l.radix.mark ++ l.digits

def chars (l : Literal) : List Char := (if l.negative then ['-'] else []) ++ l.unsigned

/-- How a literal is written. -/
def text (l : Literal) : String := String.ofList l.chars

/-- The integer that a literal denotes. -/
def value (l : Literal) : Int :=
  if l.negative then -(magnitude l.radix.base l.digits : Int) else magnitude l.radix.base l.digits

/-- A literal that is not read as an octal one: no decimal digits with a zero in front. -/
def IsUnpadded (l : Literal) : Prop :=
  l.radix = .decimal → l.digits = ['0'] ∨ l.digits.head? ≠ some '0'

instance (l : Literal) : Decidable l.IsUnpadded :=
  inferInstanceAs (Decidable (_ → _))

/-- The literal without zeros in front of its digits. -/
def trim (l : Literal) : Literal where
  negative := l.negative
  radix := l.radix
  digits := dropZeros l.digits
  nonempty := dropZeros_ne_nil l.digits
  valid := by
    refine List.all_eq_true.mpr fun c hc => decide_eq_true ?_
    rcases mem_dropZeros hc with rfl | hc
    · exact l.radix.base_pos
    · exact l.digitValue_lt hc

variable {l l' : Literal}

theorem value_trim (l : Literal) : l.trim.value = l.value := by
  rw [value, value, trim, magnitude_dropZeros]

theorem isUnpadded_trim (l : Literal) : l.trim.IsUnpadded :=
  fun _ => dropZeros_eq_zero_or l.digits

theorem chars_of_negative (h : l.negative = true) : l.chars = '-' :: l.unsigned := by
  rw [chars, if_pos h]
  rfl

theorem chars_of_nonnegative (h : l.negative = false) : l.chars = l.unsigned := by
  rw [chars, if_neg (by simp [h])]
  rfl

/-- Without a sign a literal starts with a decimal digit, be it the zero of a mark. -/
theorem exists_unsigned_cons (l : Literal) :
    ∃ c rest, l.unsigned = c :: rest ∧ digitValue c < 10 := by
  cases hletter : l.radix.letter? with
  | none =>
      obtain ⟨c, rest, hdigits⟩ := List.exists_cons_of_ne_nil l.nonempty
      refine ⟨c, rest, by rw [unsigned, Radix.mark, hletter, hdigits]; rfl, ?_⟩
      have hc := l.digitValue_lt (c := c) (by simp [hdigits])
      rwa [Radix.base_of_letter?_eq_none hletter] at hc
  | some letter =>
      exact ⟨'0', letter :: l.digits, by rw [unsigned, Radix.mark, hletter]; rfl, by decide⟩

/-- A literal starts with a sign or with a decimal digit. -/
theorem exists_chars_cons (l : Literal) :
    ∃ c rest, l.chars = c :: rest ∧ (c = '-' ∨ digitValue c < 10) := by
  cases hneg : l.negative with
  | true => exact ⟨'-', l.unsigned, chars_of_negative hneg, Or.inl rfl⟩
  | false =>
      obtain ⟨c, rest, hcons, hc⟩ := l.exists_unsigned_cons
      exact ⟨c, rest, (chars_of_nonnegative hneg).trans hcons, Or.inr hc⟩

/-! ## Reading a literal back -/

/-- The letter of a mark does not stand among decimal digits. -/
theorem unsigned_ne_of_letter? {letter : Char} (h : l.radix.letter? = none)
    (h' : l'.radix.letter? = some letter) : l.unsigned ≠ l'.unsigned := by
  rw [unsigned, unsigned, Radix.mark, Radix.mark, h, h']
  intro hsame
  have hmem : letter ∈ l.digits := by
    rw [List.nil_append] at hsame
    simp [hsame]
  have hdigit := l.digitValue_lt hmem
  have hletter := Radix.le_digitValue_of_letter? h'
  rw [Radix.base_of_letter?_eq_none h] at hdigit
  omega

theorem unsigned_injective (h : l.unsigned = l'.unsigned) :
    l.radix = l'.radix ∧ l.digits = l'.digits := by
  cases hletter : l.radix.letter? with
  | none =>
      cases hletter' : l'.radix.letter? with
      | none =>
          rw [unsigned, unsigned, Radix.mark, Radix.mark, hletter, hletter'] at h
          exact ⟨Radix.letter?_injective (hletter.trans hletter'.symm), h⟩
      | some letter' => exact absurd h (unsigned_ne_of_letter? hletter hletter')
  | some letter =>
      cases hletter' : l'.radix.letter? with
      | none => exact absurd h.symm (unsigned_ne_of_letter? hletter' hletter)
      | some letter' =>
          rw [unsigned, unsigned, Radix.mark, Radix.mark, hletter, hletter'] at h
          obtain ⟨hsame, hdigits⟩ : letter = letter' ∧ l.digits = l'.digits := by simpa using h
          exact ⟨Radix.letter?_injective (by rw [hletter, hletter', hsame]), hdigits⟩

/-- No literal without a sign is one with a sign. -/
theorem unsigned_ne_sign_cons (l : Literal) (rest : List Char) : l.unsigned ≠ '-' :: rest := by
  obtain ⟨c, others, hcons, hc⟩ := l.exists_unsigned_cons
  rw [hcons]
  intro hsame
  rw [(List.cons.inj hsame).1] at hc
  exact absurd hc (by decide)

/-- Whether there is a sign can be read off a literal. -/
theorem sign_of_chars (h : l.chars = l'.chars) :
    l.negative = l'.negative ∧ l.unsigned = l'.unsigned := by
  cases hneg : l.negative with
  | true =>
      rw [chars_of_negative hneg] at h
      cases hneg' : l'.negative with
      | true =>
          rw [chars_of_negative hneg', List.cons.injEq] at h
          exact ⟨rfl, h.2⟩
      | false =>
          rw [chars_of_nonnegative hneg'] at h
          exact absurd h.symm (l'.unsigned_ne_sign_cons _)
  | false =>
      rw [chars_of_nonnegative hneg] at h
      cases hneg' : l'.negative with
      | true =>
          rw [chars_of_negative hneg'] at h
          exact absurd h (l.unsigned_ne_sign_cons _)
      | false =>
          rw [chars_of_nonnegative hneg'] at h
          exact ⟨rfl, h⟩

/-- **A text denotes one integer at most.** -/
theorem text_injective (h : l.text = l'.text) : l = l' := by
  obtain ⟨hnegative, hunsigned⟩ := sign_of_chars (String.ofList_injective h)
  obtain ⟨hradix, hdigits⟩ := unsigned_injective hunsigned
  exact Literal.ext hnegative hradix hdigits

end Literal

/-! ## Cleaning a literal -/

section

variable {l : Literal} {suffix : String}

/-- The letters of the suffix go, and no digit goes with them. -/
theorem dropEndWhile_literal (l : Literal) {letters : List Char}
    (h : ∀ c ∈ letters, isSuffixLetter c = true) :
    Text.dropEndWhile isSuffixLetter (l.chars ++ letters) = l.chars := by
  rcases List.eq_nil_or_concat l.digits with hnil | ⟨front, last, hdigits⟩
  · exact absurd hnil l.nonempty
  · rw [List.concat_eq_append] at hdigits
    have hlast : isSuffixLetter last = false :=
      isSuffixLetter_of_digit ((l.digitValue_lt (by simp [hdigits])).trans_le l.radix.base_le)
    obtain ⟨start, hchars⟩ : ∃ start, l.chars = start ++ [last] :=
      ⟨_, by rw [Literal.chars, Literal.unsigned, hdigits, ← List.append_assoc,
        ← List.append_assoc]⟩
    rw [Text.dropEndWhile_append_of_forall h, hchars, Text.dropEndWhile_append_singleton, hlast]
    rfl

theorem clean_text (l : Literal) (h : ∀ c ∈ suffix.toList, isSuffixLetter c = true) :
    clean (l.text ++ suffix)
      = String.ofList (if isHexadecimal l.chars then l.chars else dropZeros l.chars) := by
  rw [clean, cleanChars, String.toList_append, Literal.text, String.toList_ofList,
    dropEndWhile_literal l h]

theorem clean_text_of_negative (h : ∀ c ∈ suffix.toList, isSuffixLetter c = true)
    (hneg : l.negative = true) : clean (l.text ++ suffix) = l.text := by
  have hmark : isHexadecimal ('-' :: l.unsigned) = false := by simp [isHexadecimal]
  have hzeros : dropZeros ('-' :: l.unsigned) = '-' :: l.unsigned := by simp [dropZeros]
  rw [clean_text l h, Literal.text, Literal.chars_of_negative hneg, hmark, hzeros]
  rfl

theorem clean_text_of_decimal (h : ∀ c ∈ suffix.toList, isSuffixLetter c = true)
    (hneg : l.negative = false) (hradix : l.radix = .decimal) :
    clean (l.text ++ suffix) = l.trim.text := by
  have hchars : ∀ l : Literal, l.negative = false → l.radix = .decimal → l.chars = l.digits := by
    intro l hneg hradix
    rw [Literal.chars_of_nonnegative hneg, Literal.unsigned, hradix]
    rfl
  have hmark : isHexadecimal l.digits = false :=
    isHexadecimal_of_digits fun c hc => (l.digitValue_lt hc).trans_le l.radix.base_le
  rw [clean_text l h, Literal.text, hchars l hneg hradix, hchars l.trim hneg hradix, hmark]
  rfl

theorem clean_text_of_hexadecimal (h : ∀ c ∈ suffix.toList, isSuffixLetter c = true)
    (hneg : l.negative = false) {capital : Bool} (hradix : l.radix = .hexadecimal capital) :
    clean (l.text ++ suffix) = l.text := by
  have hmark : isHexadecimal l.unsigned = true := by
    rw [Literal.unsigned, hradix]
    cases capital <;> rfl
  rw [clean_text l h, Literal.text, Literal.chars_of_nonnegative hneg, hmark]
  rfl

theorem clean_text_of_binary (h : ∀ c ∈ suffix.toList, isSuffixLetter c = true)
    (hneg : l.negative = false) {capital : Bool} (hradix : l.radix = .binary capital) :
    clean (l.text ++ suffix) = String.ofList ((if capital then 'B' else 'b') :: l.digits) := by
  rw [clean_text l h, Literal.chars_of_nonnegative hneg, Literal.unsigned, hradix]
  cases capital <;> rfl

/-- No literal starts with the letter of a binary mark. -/
theorem text_ne_letter_cons (l : Literal) (capital : Bool) (digits : List Char) :
    String.ofList ((if capital then 'B' else 'b') :: digits) ≠ l.text := by
  obtain ⟨c, rest, hcons, hc⟩ := l.exists_chars_cons
  intro htext
  have hchars := String.ofList_injective htext
  rw [hcons, List.cons.injEq] at hchars
  rw [← hchars.1] at hc
  cases capital <;> exact absurd hc (by decide)

/-- **The literals that come through.** What is left of a literal and its suffix denotes the same
integer in the same base and is not read as an octal literal, unless zeros stand between a sign and
decimal digits, or the literal is a binary one without a sign. -/
theorem clean_keeps_value (l : Literal) (hsuffix : ∀ c ∈ suffix.toList, isSuffixLetter c = true) :
    (∃ l' : Literal, clean (l.text ++ suffix) = l'.text ∧ l'.radix = l.radix ∧ l'.IsUnpadded ∧
        l'.value = l.value)
      ↔ (l.negative = true → l.IsUnpadded) ∧ (l.negative = false → l.radix.base ≠ 2) := by
  cases hneg : l.negative with
  | true =>
      rw [clean_text_of_negative hsuffix hneg]
      constructor
      · rintro ⟨l', htext, -, hunpadded, -⟩
        rw [← Literal.text_injective htext] at hunpadded
        exact ⟨fun _ => hunpadded, fun h => by cases h⟩
      · rintro ⟨hunpadded, -⟩
        exact ⟨l, rfl, rfl, hunpadded rfl, rfl⟩
  | false =>
      have hsign : (false = true → l.IsUnpadded) := fun h => by cases h
      cases hradix : l.radix with
      | decimal =>
          rw [clean_text_of_decimal hsuffix hneg hradix]
          exact iff_of_true ⟨l.trim, rfl, hradix, l.isUnpadded_trim, l.value_trim⟩
            ⟨hsign, fun _ => by decide⟩
      | hexadecimal capital =>
          rw [clean_text_of_hexadecimal hsuffix hneg hradix]
          have hunpadded : l.IsUnpadded := fun hdecimal => by
            rw [hradix] at hdecimal
            cases hdecimal
          exact iff_of_true ⟨l, rfl, hradix, hunpadded, rfl⟩ ⟨hsign, fun _ => by simp [Radix.base]⟩
      | binary capital =>
          rw [clean_text_of_binary hsuffix hneg hradix]
          refine iff_of_false ?_ fun h => h.2 rfl rfl
          rintro ⟨l', htext, -⟩
          exact text_ne_letter_cons l' capital l.digits htext

end

/-- Zeros in front and a suffix behind. -/
theorem clean_keeps_value_seven :
    (∀ c ∈ "UL".toList, isSuffixLetter c = true) ∧
      ∃ l : Literal, clean "007UL" = l.text ∧ l.radix = .decimal ∧ l.IsUnpadded ∧ l.value = 7 := by
  have hsuffix : ∀ c ∈ "UL".toList, isSuffixLetter c = true := List.all_eq_true.mp (by decide)
  have hvalue := (clean_keeps_value ⟨false, .decimal, ['0', '0', '7'], by decide, by decide⟩
    hsuffix).mpr (by decide)
  exact ⟨hsuffix, hvalue⟩

/-- A binary literal of which a word is left, and a literal with a zero behind its sign. -/
theorem clean_loses_value :
    (∃ l : Literal, l.text = "0b101" ∧ l.value = 5 ∧ ∀ l' : Literal, clean "0b101" ≠ l'.text) ∧
      ∃ l : Literal, l.text = "-010" ∧ l.value = -10 ∧
        ∀ l' : Literal, clean "-010" = l'.text → ¬ l'.IsUnpadded := by
  constructor
  · refine ⟨⟨false, .binary false, ['1', '0', '1'], by decide, by decide⟩, by decide, by decide, ?_⟩
    have hclean : clean "0b101" = String.ofList ['b', '1', '0', '1'] := by decide +kernel
    rw [hclean]
    exact fun l' => text_ne_letter_cons l' false ['1', '0', '1']
  · refine ⟨⟨true, .decimal, ['0', '1', '0'], by decide, by decide⟩, by decide, by decide,
      fun l' htext => ?_⟩
    have hclean : clean "-010"
        = Literal.text ⟨true, .decimal, ['0', '1', '0'], by decide, by decide⟩ := by
      decide +kernel
    rw [← Literal.text_injective (hclean.symm.trans htext)]
    decide

end Typings.Initializer
