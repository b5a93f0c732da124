/-
# Single-precision numbers beside double-precision ones

A binary32 word, compared as a number, and the binary64 numbers that it widens to.  A number
is an integer in units of `2^-149`; an infinity lies beyond all finite numbers, where the
binary64 one does.  Widening keeps comparisons (`lt_of_widens`).
-/
import Mathlib.Algebra.Order.Ring.Int
import PySpell.Lib.Binary64

structure Binary32 where
  bits : UInt32
  deriving DecidableEq, Repr, Inhabited

namespace Binary32

def isNeg (x : Binary32) : Bool := 2 ^ 31 ≤ x.bits.toNat

/-- The biased exponent. -/
def expo (x : Binary32) : ℕ := x.bits.toNat / 2 ^ 23 % 2 ^ 8

/-- The fraction field. -/
def frac (x : Binary32) : ℕ := x.bits.toNat % 2 ^ 23

def isNaN (x : Binary32) : Bool := x.expo = 0xff && x.frac ≠ 0

/-- The magnitude in units of `2^-149`; an infinity is where the one of binary64 is. -/
def mag (x : Binary32) : ℕ :=
  if x.expo = 0xff then 2 ^ 1173
  else if x.expo = 0 then x.frac else (2 ^ 23 + x.frac) * 2 ^ (x.expo - 1)

def scaled (x : Binary32) : ℤ := if x.isNeg then -(x.mag : ℤ) else x.mag

def lt (x y : Binary32) : Bool := !x.isNaN && !y.isNaN && x.scaled < y.scaled

def negInf : Binary32 := ⟨0xff800000⟩

/-- The same number in double precision. -/
structure Widens (x : Binary32) (y : Binary64) : Prop where
  left : x.isNaN = false
  right : y.isNaN = false
  scaled : y.scaled = x.scaled * 2 ^ 925

/-- **Widening keeps comparisons.** -/
theorem lt_of_widens {x x' : Binary32} {y y' : Binary64} (h : Widens x y) (h' : Widens x' y') :
    lt x x' = Binary64.lt y y' := by
  have hcompare : x.scaled < x'.scaled ↔ y.scaled < y'.scaled := by
    rw [h.scaled, h'.scaled]
    exact (mul_lt_mul_iff_of_pos_right (pow_pos two_pos 925)).symm
  rw [lt, Binary64.lt, h.left, h'.left, h.right, h'.right, decide_eq_decide.mpr hcompare]

theorem scaled_negInf : negInf.scaled = -2 ^ 1173 := by
  decide +kernel

/-- Minus infinity is below every number that is not. -/
theorem negInf_lt {x : Binary32} (hnan : x.isNaN = false) (h : -2 ^ 1173 < x.scaled) :
    lt negInf x = true := by
  have hneg : negInf.isNaN = false := by decide
  rw [lt, hnan, hneg, scaled_negInf]
  exact decide_eq_true h

end Binary32
