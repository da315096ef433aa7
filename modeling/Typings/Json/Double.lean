/-!
# Doubles

A double keeps 53 binary digits of a number. A natural number with more digits is rounded
to the nearest one that ends with enough zeros, and one that lies halfway between two goes
to the neighbour whose kept digits are even.

## Main definitions

* `Double.wholes` — how often a unit goes into a number, rounded.
* `Double.nearest` — the double nearest to a natural number.
* `Double.bound` — where the doubles end.

## Main statements

* `Double.wholes_near` — rounding is off by at most half a unit.
* `Double.nearest_eq_self` — a number with at most 53 binary digits is a double.
-/

namespace Typings.Json.Double

/-- How often a unit goes into a number, rounded to the nearest whole number. A half goes to
the even neighbour. -/
def wholes (n unit : Nat) : Nat :=
  let kept := n / unit
  match compare (2 * (n % unit)) unit with
  | .lt => kept
  | .eq => kept + kept % 2
  | .gt => kept + 1

/-- The worth of the last binary digit that a double keeps of a number. -/
def lastUnit (n : Nat) : Nat := 1 <<< (n.log2 + 1 - 53)

/-- The double nearest to a natural number, were there no largest one. -/
def nearest (n : Nat) : Nat := wholes n (lastUnit n) * lastUnit n

/-- The least power of two that is greater than every double. -/
def bound : Nat := 1 <<< 1024

/-- Rounding is off by at most half a unit. -/
theorem wholes_near {unit : Nat} (positive : 0 < unit) (n : Nat) :
    2 * (wholes n unit * unit) ≤ 2 * n + unit ∧ 2 * n ≤ 2 * (wholes n unit * unit) + unit := by
  have parts := Nat.div_add_mod n unit
  have small := Nat.mod_lt n positive
  have up : (n / unit + 1) * unit = unit * (n / unit) + unit := by
    rw [Nat.add_mul, Nat.one_mul, Nat.mul_comm]
  have same : n / unit * unit = unit * (n / unit) := Nat.mul_comm ..
  simp only [wholes]
  split
  · rename_i order
    rw [Nat.compare_eq_lt] at order
    omega
  · rename_i order
    rw [Nat.compare_eq_eq] at order
    rcases Nat.mod_two_eq_zero_or_one (n / unit) with even | odd
    · rw [even, Nat.add_zero]
      omega
    · rw [odd]
      omega
  · rename_i order
    rw [Nat.compare_eq_gt] at order
    omega

/-- A unit of one loses nothing. -/
@[simp] theorem wholes_one (n : Nat) : wholes n 1 = n := by
  have near := wholes_near (show 0 < 1 by decide) n
  omega

/-- A number with at most 53 binary digits is a double. -/
theorem nearest_eq_self {n : Nat} (short : n.log2 < 53) : nearest n = n := by
  have unit : lastUnit n = 1 := by
    rw [lastUnit, show n.log2 + 1 - 53 = 0 by omega]
    rfl
  rw [nearest, unit, wholes_one, Nat.mul_one]

end Typings.Json.Double
