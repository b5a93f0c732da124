/-
# Rounding to a small integer

Rounding to the nearest integer with halves away from zero, truncation, and the cast to an
8-bit integer that truncates and saturates, on any ordered field with a floor.

A number within `n` times a scale that is divided by it and rounded gives an integer within
`n` (`abs_roundAway_le`), and the integer times the scale is within half a scale of the
number (`abs_roundAway_mul_sub_le`).
-/
import Mathlib.Algebra.Order.Round
import Mathlib.Tactic.Linarith
import Mathlib.Tactic.Ring

namespace SmallInt

variable {K : Type} [Field K] [LinearOrder K] [IsStrictOrderedRing K] [FloorRing K]

/-- The nearest integer, halves away from zero. -/
def roundAway (x : K) : ℤ := if x < 0 then -⌊-x + 1 / 2⌋ else ⌊x + 1 / 2⌋

/-- The integer part, towards zero. -/
def truncate (x : K) : ℤ := if x < 0 then ⌈x⌉ else ⌊x⌋

/-- The cast to an 8-bit integer: the integer part, or the nearest bound. -/
def toInt8 (x : K) : Int8 := Int8.ofInt (max (-128) (min 127 (truncate x)))

/-- Rounding away from zero is rounding of the absolute value. -/
theorem roundAway_eq (x : K) : roundAway x = if x < 0 then -round (-x) else round x := by
  rw [roundAway, round_eq, round_eq]

theorem abs_roundAway_sub_le (x : K) : |(roundAway x : K) - x| ≤ 1 / 2 := by
  rw [roundAway_eq]
  split_ifs
  · have h := abs_sub_round (-x)
    rw [Int.cast_neg, ← neg_add', abs_neg]
    rwa [← neg_add', abs_neg, add_comm] at h
  · rw [abs_sub_comm]
    exact abs_sub_round x

/-- Rounding does not leave an interval with integer bounds. -/
theorem abs_roundAway_le {x : K} {n : ℕ} (h : |x| ≤ n) : |roundAway x| ≤ n := by
  have hround := abs_roundAway_sub_le x
  rw [abs_le] at h hround ⊢
  have hupper : (roundAway x : K) < ((n + 1 : ℤ) : K) := by
    push_cast
    linarith
  have hlower : ((-(n + 1) : ℤ) : K) < (roundAway x : K) := by
    push_cast
    linarith
  have := Int.cast_lt.mp hupper
  have := Int.cast_lt.mp hlower
  omega

/-- **The error of a rounded quotient** is at most half the scale. -/
theorem abs_roundAway_mul_sub_le {scale : K} (hscale : 0 < scale) (x : K) :
    |(roundAway (x / scale) : K) * scale - x| ≤ scale / 2 := by
  have hx : (roundAway (x / scale) : K) * scale - x =
      (roundAway (x / scale) - x / scale) * scale := by
    rw [sub_mul, div_mul_cancel₀ x hscale.ne']
  calc |(roundAway (x / scale) : K) * scale - x|
      = |(roundAway (x / scale) : K) - x / scale| * scale := by
        rw [hx, abs_mul, abs_of_pos hscale]
    _ ≤ 1 / 2 * scale := mul_le_mul_of_nonneg_right (abs_roundAway_sub_le _) hscale.le
    _ = scale / 2 := by ring

theorem truncate_intCast (n : ℤ) : truncate (n : K) = n := by
  rw [truncate, Int.ceil_intCast, Int.floor_intCast, ite_self]

/-- The cast keeps an integer that fits. -/
theorem toInt_toInt8 {n : ℤ} (h : |n| ≤ 127) : (toInt8 (n : K)).toInt = n := by
  rw [abs_le] at h
  rw [toInt8, truncate_intCast, min_eq_right h.2, max_eq_right (by omega),
    Int8.toInt_ofInt_of_le (by norm_num; omega) (by norm_num; omega)]

end SmallInt
