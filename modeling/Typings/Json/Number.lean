import Typings.Json.Double

/-!
# Number literals

The grammar of JSON numbers: an optional minus sign, digits without a leading zero, an
optional fraction and an optional exponent.

## Main definitions

* `Number.Decimal`, `Number.parse?` — a literal taken apart.
* `Number.gather`, `Number.Decimal.scaled` — the significant digits of a literal.
* `Number.inRange` — whether the value is within the range of a double.
* `Number.natural?` — the value of a literal that consists of digits alone.
-/

namespace Typings.Json.Number

/-- A literal taken apart: the digits before and behind the point, and the exponent. -/
structure Decimal where
  /-- Whether a minus sign stands in front. -/
  negative : Bool
  /-- The digits before the point. -/
  whole : List Char
  /-- The digits behind the point. -/
  fraction : List Char
  /-- The power of ten that the digits are multiplied by. -/
  exponent : Int
  deriving Repr

/-- The number that a decimal digit stands for. -/
def digitValue (digit : Char) : Nat := digit.toNat - '0'.toNat

/-- The number that some decimal digits spell. -/
def digitsValue (digits : List Char) : Nat :=
  digits.foldl (fun n c => 10 * n + digitValue c) 0

/-- The digits at the front of a text, and what stands behind them. -/
def takeDigits (text : List Char) : List Char × List Char :=
  (text.takeWhile Char.isDigit, text.dropWhile Char.isDigit)

/-- The fraction at the front of a text, empty without a point, and what stands behind it. A
point without a digit behind it is refused. -/
def fraction? : List Char → Option (List Char × List Char)
  | '.' :: rest =>
    let (digits, behind) := takeDigits rest
    if digits = [] then none else some (digits, behind)
  | text => some ([], text)

/-- The exponent that a whole text spells, behind its letter. -/
def exponentDigits? (text : List Char) : Option Nat :=
  if text ≠ [] ∧ text.all Char.isDigit then some (digitsValue text) else none

/-- The exponent that a whole text spells; zero for the empty text. -/
def exponent? : List Char → Option Int
  | [] => some 0
  | c :: rest =>
    if c = 'e' ∨ c = 'E' then
      match rest with
      | '-' :: digits => (exponentDigits? digits).map fun n => -(n : Int)
      | '+' :: digits => (exponentDigits? digits).map fun n => (n : Int)
      | digits => (exponentDigits? digits).map fun n => (n : Int)
    else none

/-- A literal without its sign, taken apart. -/
def unsigned? (negative : Bool) (text : List Char) : Option Decimal := do
  let (whole, behind) := takeDigits text
  if whole = [] ∨ (whole.head? = some '0' ∧ whole ≠ ['0']) then none
  let (fraction, behind) ← fraction? behind
  let exponent ← exponent? behind
  return ⟨negative, whole, fraction, exponent⟩

/-- Take a literal apart; `none` if the text is no number. -/
def parse? : List Char → Option Decimal
  | '-' :: rest => unsigned? true rest
  | text => unsigned? false text

/-! ## The range of a double -/

/-- A number that some more digits are written behind, as many of them as it can take and stay
within 64 bits; and the digits that are left. -/
def gather (n : Nat) : List Char → Nat × List Char
  | [] => (n, [])
  | c :: rest =>
    if 10 * n + digitValue c < 1 <<< 64 then gather (10 * n + digitValue c) rest
    else (n, c :: rest)

/-- A gathered number stays within 64 bits. -/
theorem gather_lt {n : Nat} (small : n < 1 <<< 64) (digits : List Char) :
    (gather n digits).1 < 1 <<< 64 := by
  fun_induction gather n digits with
  | case1 n => exact small
  | case2 n c rest fits ih => exact ih fits
  | case3 n c rest full => exact small

/-- The digits that are left are the last ones. -/
theorem gather_isSuffix (n : Nat) (digits : List Char) : (gather n digits).2 <:+ digits := by
  fun_induction gather n digits with
  | case1 n => exact List.suffix_rfl
  | case2 n c rest fits ih => exact ih.trans (List.suffix_cons c rest)
  | case3 n c rest full => exact List.suffix_rfl

/-- The significant digits of a literal as one number, and the power of ten that it is
multiplied by. The digits are those that fit into 64 bits; digits left of the point count
also where they are left out, those behind it only where they are taken. -/
def Decimal.scaled (d : Decimal) : Nat × Int :=
  let (whole, uncounted) := gather 0 d.whole
  let (significand, behind) := gather whole d.fraction
  (significand, d.exponent + uncounted.length - (d.fraction.length - behind.length : Nat))

/-- Whether a literal's value is a finite double. The significant digits, the power of ten and
the product of the two are rounded to doubles in turn, and the largest power of ten that is a
double is the 308th. A quotient is always finite. -/
def Decimal.inRange (d : Decimal) : Bool :=
  let (significand, exponent) := d.scaled
  if significand = 0 ∨ exponent ≤ 0 then true
  else if 308 < exponent then false
  else
    let power := Double.nearest (Nat.pow 10 exponent.toNat)
    Double.nearest (Double.nearest significand * power) < Double.bound

/-- Whether a text is a number whose value is a finite double. -/
def inRange (literal : String) : Bool :=
  match parse? literal.toList with
  | some d => d.inRange
  | none => false

/-- The value of a literal that consists of digits alone. -/
def natural? (literal : String) : Option Nat :=
  if literal.toList ≠ [] ∧ literal.toList.all Char.isDigit then
    some (digitsValue literal.toList)
  else none

end Typings.Json.Number
