/-
# From a place outwards

The integers in the order 0, -1, 1, -2, 2, …: after the first `2 k + 1` of them, those from
`-k` to `k` have come, each once (`nth_injective`, `exists_nth_iff`).  A line that is cut into
tiles of one width is visited tile by tile in this order, without gaps and without overlaps
(`tile_eq_iff`, `exists_tile_iff`).
-/
import Mathlib.Algebra.Order.Ring.Int
import Mathlib.Order.Basic

namespace Zigzag

/-- The integer that comes after `r` others. -/
def nth (r : ℕ) : ℤ := if r % 2 = 0 then ((r / 2 : ℕ) : ℤ) else -(((r + 1) / 2 : ℕ) : ℤ)

/-- **No integer comes twice.** -/
theorem nth_injective : Function.Injective nth := by
  intro r r' h
  unfold nth at h
  split_ifs at h <;> omega

/-- **The integers that have come** after an even number of steps. -/
theorem exists_nth_iff {k : ℕ} {z : ℤ} : (∃ r ≤ 2 * k, nth r = z) ↔ -(k : ℤ) ≤ z ∧ z ≤ k := by
  constructor
  · rintro ⟨r, hr, rfl⟩
    unfold nth
    split_ifs <;> omega
  · rintro ⟨hlow, hhigh⟩
    by_cases h : 0 ≤ z
    · refine ⟨2 * z.toNat, by omega, ?_⟩
      unfold nth
      split_ifs <;> omega
    · refine ⟨2 * (-z).toNat - 1, by omega, ?_⟩
      unfold nth
      split_ifs <;> omega

/-! ## Tiles -/

/-- The tile of a point: tiles have width `w`, and tile 0 begins at `o`. -/
def tile (w : ℕ) (o x : ℤ) : ℤ := (x - o) / w

theorem le_tile_iff {w : ℕ} (hw : 0 < w) {o x z : ℤ} :
    z ≤ tile w o x ↔ o + w * z ≤ x := by
  rw [tile, Int.le_ediv_iff_mul_le (by omega), Int.mul_comm]
  omega

theorem tile_lt_iff {w : ℕ} (hw : 0 < w) {o x z : ℤ} :
    tile w o x < z ↔ x < o + w * z := by
  rw [tile, Int.ediv_lt_iff_lt_mul (by omega), Int.mul_comm]
  omega

theorem tile_eq_iff {w : ℕ} (hw : 0 < w) {o x z : ℤ} :
    tile w o x = z ↔ o + w * z ≤ x ∧ x < o + w * (z + 1) := by
  rw [← le_tile_iff hw, ← tile_lt_iff hw]
  omega

/-- **The points that have been visited** are those of the tiles from `-k` to `k`. -/
theorem exists_tile_iff {w : ℕ} (hw : 0 < w) {o x : ℤ} {k : ℕ} :
    (∃ r ≤ 2 * k, tile w o x = nth r) ↔ o - w * k ≤ x ∧ x < o + w * (k + 1) := by
  have hcome : (∃ r ≤ 2 * k, tile w o x = nth r) ↔ ∃ r ≤ 2 * k, nth r = tile w o x := by
    simp only [eq_comm]
  have hlow := le_tile_iff hw (o := o) (x := x) (z := -(k : ℤ))
  have hhigh := tile_lt_iff hw (o := o) (x := x) (z := k + 1)
  rw [Int.mul_neg] at hlow
  rw [hcome, exists_nth_iff]
  omega

end Zigzag
