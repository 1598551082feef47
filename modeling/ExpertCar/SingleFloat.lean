import Mathlib.Algebra.Group.Int.Defs
import Mathlib.Algebra.Group.Nat.Defs
import Mathlib.Data.Int.Basic
import Mathlib.Data.Nat.Log

/-!
# Integers held in single-precision floating point

An integer converted to `float` is rounded to the nearest multiple of the unit
in the last place of a 24-bit significand, ties to the even multiple. The same
rounding follows an addition or subtraction of two such integers, since the
exact result is again an integer, and any operation whose exact result is an
integer multiple of a fixed power of two, in that unit. Exponent range is not an issue here: every
32-bit integer is far inside it. Below `2^24` in magnitude nothing is rounded.
-/
namespace SingleFloat

/-- Low bits that do not fit into the 24-bit significand of `m`. -/
def excess (m : ℕ) : ℕ := m.log2 - 23

def roundMagnitude (m : ℕ) : ℕ :=
  let unit := 2 ^ excess m
  let q := m / unit
  let r := m % unit
  if 2 * r < unit ∨ (2 * r = unit ∧ q % 2 = 0) then q * unit else (q + 1) * unit

/-- The value of `(float)x`, and of a float sum whose exact value is `x`. -/
def ofInt (x : ℤ) : ℤ := x.sign * roundMagnitude x.natAbs

theorem excess_eq_zero {m : ℕ} (h : m < 2 ^ 24) : excess m = 0 := by
  unfold excess
  by_cases hm : m = 0
  · simp [hm]
  · have := (Nat.log2_lt hm).mpr h
    omega

theorem roundMagnitude_exact {m : ℕ} (h : m < 2 ^ 24) : roundMagnitude m = m := by
  simp [roundMagnitude, excess_eq_zero h, Nat.mod_one]

/-- Integers of fewer than 25 bits survive the conversion. -/
theorem ofInt_exact {x : ℤ} (hlo : -(2 ^ 24) < x) (hhi : x < 2 ^ 24) : ofInt x = x := by
  have h : x.natAbs < 2 ^ 24 := by omega
  rw [ofInt, roundMagnitude_exact h, Int.sign_mul_natAbs]

example : ofInt 16777217 = 16777216 := by decide
example : ofInt (-16777219) = -16777220 := by decide

end SingleFloat
