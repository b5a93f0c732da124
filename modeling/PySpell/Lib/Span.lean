/-
# Spans of integers

The integers from `-neg` to `pos`.  A span always has zero, so that a bound for a number
that may be missing needs no case of its own, and the sign of all its numbers is read
from one component.  The operations are those of interval arithmetic: each is a span for
the results of an operation on integers (`mem_add`, `mem_mul`, `mem_tdiv`, ...), also for
the sum of a list (`mem_sum`).

`wrap` is the operation for machine integers: a span that fits two's complement of a
width stays, any other becomes all of it.
-/
import Mathlib.Data.Int.Order.Lemmas
import Mathlib.Algebra.Order.BigOperators.Group.List
import Mathlib.Tactic.Linarith
import Mathlib.Tactic.Positivity

/-- The integers from `-neg` to `pos`. -/
structure Span where
  neg : ℕ
  pos : ℕ
  deriving DecidableEq, Repr

namespace Span

instance : Membership ℤ Span := ⟨fun s z => -(s.neg : ℤ) ≤ z ∧ z ≤ s.pos⟩

theorem mem_iff {s : Span} {z : ℤ} : z ∈ s ↔ -(s.neg : ℤ) ≤ z ∧ z ≤ s.pos := Iff.rfl

/-- A larger span. -/
instance : LE Span := ⟨fun s t => s.neg ≤ t.neg ∧ s.pos ≤ t.pos⟩

theorem mem_mono {s t : Span} {z : ℤ} (hle : s ≤ t) (h : z ∈ s) : z ∈ t := by
  obtain ⟨hneg, hpos⟩ := hle
  rw [mem_iff] at h ⊢
  omega

/-! ## Operations -/

def zero : Span := ⟨0, 0⟩

/-- The span of one number. -/
def single (z : ℤ) : Span := ⟨(-z).toNat, z.toNat⟩

def union (s t : Span) : Span := ⟨max s.neg t.neg, max s.pos t.pos⟩

def add (s t : Span) : Span := ⟨s.neg + t.neg, s.pos + t.pos⟩

def opposite (s : Span) : Span := ⟨s.pos, s.neg⟩

def mul (s t : Span) : Span :=
  ⟨max (s.neg * t.pos) (s.pos * t.neg), max (s.neg * t.neg) (s.pos * t.pos)⟩

/-- The largest magnitude. -/
def size (s : Span) : ℕ := max s.neg s.pos

/-- The sums of up to so many numbers. -/
def times (n : ℕ) (s : Span) : Span := ⟨n * s.neg, n * s.pos⟩

theorem mem_zero : (0 : ℤ) ∈ zero := ⟨le_rfl, le_rfl⟩

/-- Zero is in every span. -/
theorem zero_mem (s : Span) : (0 : ℤ) ∈ s := by
  rw [mem_iff]
  omega

theorem mem_single (z : ℤ) : z ∈ single z := by
  rw [mem_iff]
  dsimp only [single]
  omega

theorem le_union_left (s t : Span) : s ≤ s.union t := ⟨le_max_left _ _, le_max_left _ _⟩

theorem le_union_right (s t : Span) : t ≤ s.union t := ⟨le_max_right _ _, le_max_right _ _⟩

theorem mem_add {s t : Span} {x y : ℤ} (hx : x ∈ s) (hy : y ∈ t) : x + y ∈ s.add t := by
  rw [mem_iff] at hx hy ⊢
  dsimp only [add]
  omega

theorem mem_opposite {s : Span} {x : ℤ} (hx : x ∈ s) : -x ∈ s.opposite := by
  rw [mem_iff] at hx ⊢
  dsimp only [opposite]
  omega

theorem mem_sub {s t : Span} {x y : ℤ} (hx : x ∈ s) (hy : y ∈ t) : x - y ∈ s.add t.opposite := by
  rw [sub_eq_add_neg]
  exact mem_add hx (mem_opposite hy)

theorem abs_le_size {s : Span} {x : ℤ} (hx : x ∈ s) : |x| ≤ s.size := by
  rw [mem_iff] at hx
  rw [size, abs_le]
  omega

/-- The sign of a product is settled by the signs of its factors. -/
theorem mem_mul {s t : Span} {x y : ℤ} (hx : x ∈ s) (hy : y ∈ t) : x * y ∈ s.mul t := by
  rw [mem_iff] at hx hy ⊢
  obtain ⟨hx₁, hx₂⟩ := hx
  obtain ⟨hy₁, hy₂⟩ := hy
  dsimp only [mul]
  push_cast
  have hlo : -max ((s.neg : ℤ) * t.pos) (s.pos * t.neg) ≤ 0 := neg_nonpos.mpr (by positivity)
  rcases le_total 0 x with hx | hx
  · rcases le_total 0 y with hy | hy
    · have hxy : x * y ≤ s.pos * t.pos := mul_le_mul hx₂ hy₂ hy (by omega)
      exact ⟨hlo.trans (mul_nonneg hx hy), hxy.trans (le_max_right _ _)⟩
    · have hxy : x * -y ≤ s.pos * t.neg :=
        mul_le_mul hx₂ (by omega) (by omega) (by omega)
      have hnonpos := mul_nonpos_of_nonneg_of_nonpos hx hy
      rw [mul_neg] at hxy
      refine ⟨?_, hnonpos.trans (by positivity)⟩
      have := hxy.trans (le_max_right ((s.neg : ℤ) * t.pos) _)
      omega
  · rcases le_total 0 y with hy | hy
    · have hxy : -x * y ≤ s.neg * t.pos := mul_le_mul (by omega) hy₂ hy (by omega)
      have hnonpos := mul_nonpos_of_nonpos_of_nonneg hx hy
      rw [neg_mul] at hxy
      refine ⟨?_, hnonpos.trans (by positivity)⟩
      have := hxy.trans (le_max_left _ ((s.pos : ℤ) * t.neg))
      omega
    · have hxy : -x * -y ≤ s.neg * t.neg :=
        mul_le_mul (by omega) (by omega) (by omega) (by omega)
      rw [neg_mul_neg] at hxy
      exact ⟨hlo.trans (mul_nonneg_of_nonpos_of_nonpos hx hy), hxy.trans (le_max_left _ _)⟩

/-- A truncated quotient is no larger than the dividend. -/
theorem mem_tdiv {s : Span} {x : ℤ} (hx : x ∈ s) (y : ℤ) :
    x.tdiv y ∈ (⟨s.size, s.size⟩ : Span) := by
  have hsize := abs_le_size hx
  have habs : |x.tdiv y| ≤ |x| := by
    rw [Int.abs_eq_natAbs, Int.abs_eq_natAbs, Int.natAbs_tdiv]
    exact_mod_cast Nat.div_le_self _ _
  exact abs_le.mp (habs.trans hsize)

/-- By a divisor that is not negative the quotient keeps the sign. -/
theorem mem_tdiv_of_nonneg {s : Span} {x y : ℤ} (hx : x ∈ s) (hy : 0 ≤ y) : x.tdiv y ∈ s := by
  have habs : (x.tdiv y).natAbs ≤ x.natAbs := by
    rw [Int.natAbs_tdiv]
    exact Nat.div_le_self _ _
  rw [mem_iff] at hx ⊢
  rcases le_total 0 x with h | h
  · have hnonneg := Int.tdiv_nonneg h hy
    omega
  · have hnonneg := Int.tdiv_nonneg (a := -x) (by omega) hy
    rw [Int.neg_tdiv] at hnonneg
    omega

/-- A truncated remainder lies between zero and the dividend. -/
theorem mem_tmod {s : Span} {x : ℤ} (hx : x ∈ s) (y : ℤ) : x.tmod y ∈ s := by
  have habs : (x.tmod y).natAbs ≤ x.natAbs := by
    rw [Int.natAbs_tmod]
    exact Nat.mod_le _ _
  rw [mem_iff] at hx ⊢
  rcases le_total 0 x with h | h
  · have hnonneg := Int.tmod_nonneg y h
    omega
  · have hnonneg := Int.tmod_nonneg y (a := -x) (by omega)
    rw [Int.neg_tmod] at hnonneg
    omega

/-- **The sum of a list** of up to so many numbers. -/
theorem mem_sum {s : Span} {n : ℕ} {l : List ℤ} (hl : ∀ z ∈ l, z ∈ s) (hn : l.length ≤ n) :
    l.sum ∈ s.times n := by
  have hmem : l.sum ∈ s.times l.length := by
    clear hn
    induction l with
    | nil => exact zero_mem _
    | cons z l ih =>
      have hz := hl z List.mem_cons_self
      have hsum := ih fun z hz => hl z (List.mem_cons_of_mem _ hz)
      rw [mem_iff] at hz hsum ⊢
      dsimp only [times] at hsum ⊢
      rw [List.sum_cons, List.length_cons, Nat.succ_mul, Nat.succ_mul]
      push_cast at hsum ⊢
      omega
  exact mem_mono ⟨Nat.mul_le_mul_right _ hn, Nat.mul_le_mul_right _ hn⟩ hmem

/-! ## Machine integers -/

/-- All integers of two's complement. -/
def full (w : ℕ) : Span := ⟨2 ^ (w - 1), 2 ^ (w - 1) - 1⟩

/-- The span of what is left when its numbers wrap around. -/
def wrap (w : ℕ) (s : Span) : Span :=
  if s.neg ≤ 2 ^ (w - 1) ∧ s.pos < 2 ^ (w - 1) then s else full w

/-- A number that wraps around when it does not fit. -/
theorem mem_wrap {w : ℕ} {s : Span} {x z : ℤ} (hx : x ∈ s) (hz : z ∈ full w)
    (hsame : -2 ^ (w - 1) ≤ x → x < 2 ^ (w - 1) → z = x) : z ∈ s.wrap w := by
  unfold wrap
  split_ifs with hfits
  · obtain ⟨hneg, hpos⟩ := hfits
    have hneg' : (s.neg : ℤ) ≤ 2 ^ (w - 1) := by exact_mod_cast hneg
    have hpos' : (s.pos : ℤ) < 2 ^ (w - 1) := by exact_mod_cast hpos
    have hbounds := mem_iff.mp hx
    rw [hsame (by omega) (by omega)]
    exact hx
  · exact hz

end Span
