import Mathlib.Data.Int.Log
import Mathlib.Data.Rat.Floor
import Mathlib.Tactic.Linarith

/-!
# Floating point numbers of type `double`

A `double` is the rational number it stands for, and an operation rounds its exact result to the
nearest one, of two the one with an even significand.  A significand has 53 bits; the range of the
exponents is not bounded.
-/

namespace Double

/-- The nearest integer, of two the even one. -/
def roundEven (x : ℚ) : ℤ :=
  if 2 * Int.fract x < 1 ∨ 2 * Int.fract x = 1 ∧ ⌊x⌋ % 2 = 0 then ⌊x⌋ else ⌊x⌋ + 1

/-- The weight of the last bit of the significand. -/
def ulp (x : ℚ) : ℚ := 2 ^ (Int.log 2 |x| - 52)

/-- The nearest `double`. -/
def round (x : ℚ) : ℚ := roundEven (x / ulp x) * ulp x

def add (x y : ℚ) : ℚ := round (x + y)

def sub (x y : ℚ) : ℚ := round (x - y)

def mul (x y : ℚ) : ℚ := round (x * y)

def div (x y : ℚ) : ℚ := round (x / y)

theorem abs_roundEven_sub_le (x : ℚ) : |roundEven x - x| ≤ 1 / 2 := by
  have hfloor : (⌊x⌋ : ℚ) = x - Int.fract x := (Int.self_sub_fract x).symm
  have h0 := Int.fract_nonneg x
  have h1 := Int.fract_lt_one x
  unfold roundEven
  split_ifs with h
  · have hle : 2 * Int.fract x ≤ 1 := h.elim le_of_lt fun h => h.1.le
    rw [hfloor, abs_le]
    constructor <;> linarith
  · have hge : 1 ≤ 2 * Int.fract x := not_lt.1 fun hlt => h (.inl hlt)
    rw [Int.cast_add, hfloor, Int.cast_one, abs_le]
    constructor <;> linarith

theorem ulp_pos (x : ℚ) : 0 < ulp x := zpow_pos two_pos _

/-- The significand has 53 bits. -/
theorem half_ulp_le {x : ℚ} (hx : x ≠ 0) : ulp x / 2 ≤ |x| / 2 ^ 53 := by
  have hlog : (2 : ℚ) ^ Int.log 2 |x| ≤ |x| := by
    exact_mod_cast Int.zpow_log_le_self (R := ℚ) one_lt_two (abs_pos.2 hx)
  have hulp : ulp x = 2 ^ Int.log 2 |x| / 2 ^ 52 := zpow_sub₀ two_ne_zero ..
  rw [hulp, div_div, ← pow_succ]
  gcongr

/-- The relative error of the rounding. -/
theorem abs_round_sub_le (x : ℚ) : |round x - x| ≤ |x| / 2 ^ 53 := by
  by_cases hx : x = 0
  · subst hx
    simp [round, roundEven]
  · have hulp := ulp_pos x
    have herror : round x - x = (roundEven (x / ulp x) - x / ulp x) * ulp x := by
      rw [round, sub_mul, div_mul_cancel₀ x hulp.ne']
    calc |round x - x| = |roundEven (x / ulp x) - x / ulp x| * ulp x := by
          rw [herror, abs_mul, abs_of_pos hulp]
      _ ≤ 1 / 2 * ulp x := mul_le_mul_of_nonneg_right (abs_roundEven_sub_le _) hulp.le
      _ = ulp x / 2 := by ring
      _ ≤ |x| / 2 ^ 53 := half_ulp_le hx

theorem round_nonneg {x : ℚ} (hx : 0 ≤ x) : 0 ≤ round x := by
  have herror := (abs_le.1 (abs_round_sub_le x)).1
  rw [abs_of_nonneg hx] at herror
  linarith

theorem round_le {x : ℚ} (hx : 0 ≤ x) : round x ≤ x * (1 + 1 / 2 ^ 53) := by
  have herror := (abs_le.1 (abs_round_sub_le x)).2
  rw [abs_of_nonneg hx] at herror
  linarith

end Double
