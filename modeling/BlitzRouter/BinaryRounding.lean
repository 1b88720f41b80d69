import Mathlib.Data.Int.Log
import Mathlib.Data.Rat.Floor
import Mathlib.Algebra.Order.Floor.Ring
import Mathlib.Tactic.Linarith
import Mathlib.Tactic.Positivity
import Mathlib.Tactic.NormNum
import Mathlib.Tactic.Ring

namespace BinaryRounding

-- The nearest integer, the even one of two.
def roundHalfEven (x : ℚ) : ℤ :=
  let below := ⌊x⌋
  let part := x-below
  if part < 1/2 then below
  else if 1/2 < part then below+1
  else if below%2 = 0 then below else below+1

-- The nearest rational with that many significant binary digits. Exponents are
-- not bounded: the format has to have room for the result.
def roundTo (precision : ℕ) (x : ℚ) : ℚ :=
  let ulp : ℚ := 2^(Int.log 2 |x|+1-precision)
  roundHalfEven (x/ulp)*ulp

theorem roundHalfEven_near (x : ℚ) : |(roundHalfEven x : ℚ)-x| ≤ 1/2 := by
  have below := Int.floor_le x
  have above := Int.lt_floor_add_one x
  simp only [roundHalfEven,abs_le]
  split
  · constructor <;> linarith
  · split
    · push_cast
      constructor <;> linarith
    · split
      · constructor <;> linarith
      · push_cast
        constructor <;> linarith

-- In units of any size, the rounded number is at most half a unit off.
theorem roundHalfEven_scaled {ulp : ℚ} (positive : 0 < ulp) (x : ℚ) : |(roundHalfEven (x/ulp) : ℚ)*ulp-x| ≤ ulp/2 := by
  have near := roundHalfEven_near (x/ulp)
  have scaled : (roundHalfEven (x/ulp) : ℚ)*ulp-x = ((roundHalfEven (x/ulp) : ℚ)-x/ulp)*ulp := by
    rw [sub_mul,div_mul_cancel₀ x positive.ne']
  rw [scaled,abs_mul,abs_of_pos positive]
  calc _ ≤ 1/2*ulp := mul_le_mul_of_nonneg_right near positive.le
    _ = ulp/2 := by ring

theorem roundTo_zero (precision : ℕ) : roundTo precision 0 = 0 := by
  simp [roundTo,roundHalfEven]

-- Half a unit in the last place, relative to the number.
theorem roundTo_near (precision : ℕ) (x : ℚ) : |roundTo precision x-x| ≤ |x|/2^precision := by
  by_cases zero : x = 0
  · subst zero
    simp [roundTo_zero]
  · have log : (2 : ℚ)^(Int.log 2 |x|) ≤ |x| := by
      exact_mod_cast Int.zpow_log_le_self (by norm_num) (abs_pos.mpr zero)
    have unit : (2 : ℚ)^(Int.log 2 |x|+1-precision : ℤ) = 2^(Int.log 2 |x|)*2/2^precision := by
      rw [zpow_sub₀ (by norm_num),zpow_add_one₀ (by norm_num),zpow_natCast]
    have near : |roundTo precision x-x| ≤ 2^(Int.log 2 |x|+1-precision : ℤ)/2 :=
      roundHalfEven_scaled (zpow_pos (by norm_num) _) x
    rw [unit] at near
    calc _ ≤ 2^(Int.log 2 |x|)*2/2^precision/2 := near
      _ = 2^(Int.log 2 |x|)/2^precision := by ring
      _ ≤ |x|/2^precision := by gcongr

theorem roundTo_le {x : ℚ} (precision : ℕ) (positive : 0 ≤ x) : roundTo precision x ≤ x*(1+1/2^precision) := by
  have near := (abs_le.mp (roundTo_near precision x)).2
  rw [abs_of_nonneg positive] at near
  linarith [mul_add x 1 (1/2^precision),mul_one_div x (2^precision)]

theorem le_roundTo {x : ℚ} (precision : ℕ) (positive : 0 ≤ x) : x*(1-1/2^precision) ≤ roundTo precision x := by
  have near := (abs_le.mp (roundTo_near precision x)).1
  rw [abs_of_nonneg positive] at near
  linarith [mul_sub x 1 (1/2^precision),mul_one_div x (2^precision)]

theorem roundTo_nonneg {x : ℚ} (precision : ℕ) (positive : 0 ≤ x) : 0 ≤ roundTo precision x := by
  refine le_trans (mul_nonneg positive ?_) (le_roundTo precision positive)
  have whole : (1 : ℚ) ≤ 2^precision := one_le_pow₀ (by norm_num)
  have part : 1/(2 : ℚ)^precision ≤ 1 := (div_le_one (by positivity)).mpr whole
  linarith

end BinaryRounding
