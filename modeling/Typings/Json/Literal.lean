/-!
# String literals

How a text stands between the quotes of a JSON string. Writing escapes the quote, the
backslash and the control characters below a blank, and nothing else. Reading accepts
every escape, also characters spelled as one or two UTF-16 units.

## Main definitions

* `Literal.encode` — a text as it stands between the quotes.
* `Literal.pieces?` — the characters that a literal spells, as far as escapes go.
* `Literal.join?` — pieces put together to a text, unless half of a surrogate pair is left.

## Main results

* `pieces?_encode`, `join?_chars` — what is written reads back.
-/

namespace Typings.Json.Literal

/-! ## Writing -/

/-- The hexadecimal digit for a number below sixteen, in lower case. -/
def hexDigit (n : Nat) : Char :=
  if n < 10 then Char.ofNat ('0'.toNat + n) else Char.ofNat ('a'.toNat + (n - 10))

/-- The letter that stands for a character behind a backslash, for those that are written so. -/
def shortEscape? : Char → Option Char
  | '"' => some '"'
  | '\\' => some '\\'
  | '\x08' => some 'b'
  | '\x0c' => some 'f'
  | '\n' => some 'n'
  | '\r' => some 'r'
  | '\t' => some 't'
  | _ => none

/-- A character as it stands between quotes. -/
def encodeChar (c : Char) : List Char :=
  match shortEscape? c with
  | some letter => ['\\', letter]
  | none =>
    if c.toNat < 0x20 then
      ['\\', 'u', '0', '0', hexDigit (c.toNat / 16), hexDigit (c.toNat % 16)]
    else [c]

/-- A text as it stands between quotes. -/
def encode (text : List Char) : List Char := text.flatMap encodeChar

/-! ## Reading -/

/-- What one character or one escape of a literal stands for. -/
inductive Piece where
  /-- A character. -/
  | char (c : Char)
  /-- Half of a surrogate pair: a UTF-16 unit that is no character by itself. -/
  | half (unit : Nat)
  deriving DecidableEq, Repr

/-- The value of a hexadecimal digit. -/
def hexValue? (c : Char) : Option Nat :=
  if '0' ≤ c ∧ c ≤ '9' then some (c.toNat - '0'.toNat)
  else if 'a' ≤ c ∧ c ≤ 'f' then some (c.toNat - 'a'.toNat + 10)
  else if 'A' ≤ c ∧ c ≤ 'F' then some (c.toNat - 'A'.toNat + 10)
  else none

/-- The value of four hexadecimal digits. -/
def unit? (a b c d : Char) : Option Nat := do
  return (((← hexValue? a) * 16 + (← hexValue? b)) * 16 + (← hexValue? c)) * 16 + (← hexValue? d)

/-- The piece that a UTF-16 unit stands for. -/
def Piece.ofUnit (unit : Nat) : Piece :=
  if 0xD800 ≤ unit ∧ unit < 0xE000 then .half unit else .char (Char.ofNat unit)

/-- The character that a letter stands for behind a backslash. -/
def escaped? : Char → Option Char
  | '"' => some '"'
  | '\\' => some '\\'
  | '/' => some '/'
  | 'b' => some '\x08'
  | 'f' => some '\x0c'
  | 'n' => some '\n'
  | 'r' => some '\r'
  | 't' => some '\t'
  | _ => none

/-- The pieces of a literal. `none` if an escape is unknown or cut short, or if a quote or a
control character below a blank stands there by itself. -/
def pieces? : List Char → Option (List Piece)
  | [] => some []
  | '\\' :: 'u' :: a :: b :: c :: d :: rest =>
    (unit? a b c d).bind fun unit => (pieces? rest).map (Piece.ofUnit unit :: ·)
  | '\\' :: letter :: rest =>
    (escaped? letter).bind fun c => (pieces? rest).map (Piece.char c :: ·)
  | c :: rest =>
    if c = '"' ∨ c = '\\' ∨ c.toNat < 0x20 then none
    else (pieces? rest).map (Piece.char c :: ·)

/-- The character that a pair of surrogates stands for. -/
def pair? (high low : Nat) : Option Char :=
  if high < 0xDC00 ∧ 0xDC00 ≤ low then
    some (Char.ofNat (0x10000 + (high - 0xD800) * 0x400 + (low - 0xDC00)))
  else none

/-- The text that some pieces make up. `none` if half of a surrogate pair is left alone. -/
def join? : List Piece → Option (List Char)
  | [] => some []
  | .char c :: rest => (join? rest).map (c :: ·)
  | .half high :: .half low :: rest =>
    (pair? high low).bind fun c => (join? rest).map (c :: ·)
  | .half _ :: _ => none

/-! ## Reading what was written -/

private theorem unit?_control :
    ∀ n, n < 0x20 → unit? '0' '0' (hexDigit (n / 16)) (hexDigit (n % 16)) = some n := by
  decide

/-- A letter behind a backslash is read as the character that it was written for. -/
private theorem escaped?_shortEscape {c letter : Char} (h : shortEscape? c = some letter) :
    escaped? letter = some c ∧ letter ≠ 'u' := by
  unfold shortEscape? at h
  split at h <;> cases h <;> decide

private theorem pieces?_escape {letter c : Char} (rest : List Char)
    (h : escaped? letter = some c) (hu : letter ≠ 'u') :
    pieces? ('\\' :: letter :: rest) = (pieces? rest).map (Piece.char c :: ·) := by
  rw [pieces?]
  · simp [h]
  · intro _ _ _ _ _ e; exact absurd e hu

private theorem pieces?_control {c : Char} (rest : List Char) (h : c.toNat < 0x20) :
    pieces? ('\\' :: 'u' :: '0' :: '0' :: hexDigit (c.toNat / 16) :: hexDigit (c.toNat % 16) ::
      rest) = (pieces? rest).map (Piece.char c :: ·) := by
  have small : ¬(0xD800 ≤ c.toNat ∧ c.toNat < 0xE000) := by omega
  have piece : Piece.ofUnit c.toNat = .char c := by
    rw [Piece.ofUnit, if_neg small, Char.ofNat_toNat]
  simp [pieces?, unit?_control _ h, piece]

private theorem pieces?_plain {c : Char} (rest : List Char) (h : shortEscape? c = none)
    (hc : ¬c.toNat < 0x20) :
    pieces? (c :: rest) = (pieces? rest).map (Piece.char c :: ·) := by
  have hq : c ≠ '"' ∧ c ≠ '\\' := by constructor <;> rintro rfl <;> cases h
  rw [pieces?]
  · simp [hq, hc]
  · intro _ _ _ _ _ e; exact absurd e hq.2
  · intro _ _ e; exact absurd e hq.2

/-- A written character reads back, whatever follows it. -/
theorem pieces?_encodeChar (c : Char) (rest : List Char) :
    pieces? (encodeChar c ++ rest) = (pieces? rest).map (Piece.char c :: ·) := by
  unfold encodeChar
  split
  next letter h =>
    have ⟨hc, hu⟩ := escaped?_shortEscape h
    exact pieces?_escape rest hc hu
  next h =>
    split
    next hc => exact pieces?_control rest hc
    next hc => exact pieces?_plain rest h hc

/-- A written text reads back as its characters. -/
theorem pieces?_encode (text : List Char) :
    pieces? (encode text) = some (text.map Piece.char) := by
  induction text with
  | nil => rfl
  | cons c rest ih =>
    have : encode (c :: rest) = encodeChar c ++ encode rest := by simp [encode]
    simp [this, pieces?_encodeChar, ih]

/-- Characters are put together to the text that they came from. -/
theorem join?_chars (text : List Char) : join? (text.map Piece.char) = some text := by
  induction text with
  | nil => rfl
  | cons c rest ih => simp [join?, ih]

end Typings.Json.Literal
