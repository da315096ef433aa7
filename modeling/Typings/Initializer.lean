import Typings.Text.Blank

/-!
# Values of constants

The value of a constant is found as the literal of another language, which may carry a
suffix for its width and zeros in front of its digits. A definition file can hold neither:
a leading zero would make the literal octal.

## Main definitions

* `Initializer.clean` — the literal without suffix and leading zeros.
-/

namespace Typings.Initializer

/-- The letters of a width suffix. -/
def isSuffixLetter (c : Char) : Bool := c = 'u' || c = 'U' || c = 'l' || c = 'L'

/-- Whether a literal is hexadecimal, so that its zeros stay. -/
def isHexadecimal : List Char → Bool
  | '0' :: c :: _ => c = 'x' || c = 'X'
  | _ => false

/-- The digits of a literal without zeros in front; a single zero if nothing else is left. -/
def dropZeros (digits : List Char) : List Char :=
  match digits.dropWhile (· = '0') with
  | [] => ['0']
  | rest => rest

/-- A literal without its suffix and without zeros in front. -/
def cleanChars (literal : List Char) : List Char :=
  let digits := Text.dropEndWhile isSuffixLetter literal
  if isHexadecimal digits then digits else dropZeros digits

/-- The value of a constant as it is written. -/
def clean (literal : String) : String := String.ofList (cleanChars literal.toList)

/-! ## Some literals -/

example : clean "007UL" = "7" := by cbv

example : clean "000" = "0" ∧ clean "lul" = "0" := by constructor <;> cbv

example : clean "0x00FFu" = "0x00FF" := by cbv

example : clean "-01" = "-01" := by cbv

end Typings.Initializer
