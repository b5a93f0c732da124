/-
# Sequence numbers

Numbers modulo `2^32` that are compared by the sign of their difference.  The
comparison is a linear order on any window of fewer than `2^31` numbers; here it is
read relative to a base, as the offset of a number from it.
-/
import Mathlib.Algebra.Order.Ring.Int

namespace SeqNumber

/-- `as i32`. -/
def asI32 (x : UInt32) : ℤ := if x.toNat < 2 ^ 31 then (x.toNat : ℤ) else (x.toNat : ℤ) - 2 ^ 32

/-- `seq_lt`: serial comparison. -/
def lt (a b : UInt32) : Bool := asI32 (a - b) < 0

/-- How far a number is behind the base. -/
def offset (base x : UInt32) : ℕ := (x - base).toNat

theorem offset_eq_zero {base x : UInt32} : offset base x = 0 ↔ x = base := by
  have hx := x.toNat_lt
  have hb := base.toNat_lt
  rw [offset, UInt32.toNat_sub, ← UInt32.toNat_inj]
  omega

theorem asI32_of_offset_lt {base x : UInt32} (h : offset base x < 2 ^ 31) :
    asI32 (x - base) = offset base x := by
  unfold offset at h ⊢
  rw [asI32, if_pos h]

theorem lt_iff (a b : UInt32) : lt a b = true ↔ 2 ^ 31 ≤ (a - b).toNat := by
  have hlt := (a - b).toNat_lt
  unfold lt asI32
  rw [decide_eq_true_iff]
  split <;> omega

/-- A number is before the next one. -/
theorem lt_next (x : UInt32) : lt x (x + 1) = true := by
  have hx := x.toNat_lt
  have h1 : (1 : UInt32).toNat = 1 := rfl
  rw [lt_iff, UInt32.toNat_sub, UInt32.toNat_add, h1]
  omega

/-- The offset of a number that is `n` further. -/
theorem offset_add {b x : UInt32} {n : ℕ} (h : offset b x + n < 2 ^ 32) :
    offset b (x + UInt32.ofNat n) = offset b x + n := by
  have hx := x.toNat_lt
  have hb := b.toNat_lt
  unfold offset at h ⊢
  rw [UInt32.toNat_sub, UInt32.toNat_add, UInt32.toNat_ofNat']
  rw [UInt32.toNat_sub] at h ⊢
  omega

/-- **An acknowledgement that is accepted lies in the window.**  The oldest number
that is not acknowledged is in the window or the number before its base. -/
theorem offset_le_of_ack {base una nxt ack : UInt32} (hnxt : offset base nxt ≤ 2 ^ 31)
    (huna : una + 1 = base ∨ offset base una ≤ offset base nxt)
    (hlt : lt una ack = true) (hle : lt nxt ack = false) :
    offset base ack ≤ offset base nxt := by
  rw [lt_iff, UInt32.toNat_sub] at hlt
  rw [← Bool.not_eq_true, lt_iff, not_le, UInt32.toNat_sub] at hle
  have h1 := una.toNat_lt
  have h2 := nxt.toNat_lt
  have h3 := ack.toNat_lt
  have h4 := base.toNat_lt
  unfold offset at *
  rw [UInt32.toNat_sub] at hnxt ⊢
  rcases huna with hbase | huna
  · -- `una` is one before the base
    have hone : base.toNat = (una.toNat + 1) % 2 ^ 32 := by
      rw [← hbase, UInt32.toNat_add]
      rfl
    rw [UInt32.toNat_sub]
    omega
  · rw [UInt32.toNat_sub, UInt32.toNat_sub] at huna
    rw [UInt32.toNat_sub]
    omega

/-! ## Signed positions

The position of a number relative to a base, negative when it is before it.  As long as
two positions differ by less than `2^31`, the numbers compare as their positions do. -/

/-- The signed distance of a number from the base. -/
def pos (b x : UInt32) : ℤ := asI32 (x - b)

theorem neg_le_pos (b x : UInt32) : -2 ^ 31 ≤ pos b x := by
  unfold pos asI32
  split <;> omega

theorem pos_lt (b x : UInt32) : pos b x < 2 ^ 31 := by
  have hlt := (x - b).toNat_lt
  unfold pos asI32
  split <;> omega

/-- The position determines the number. -/
theorem pos_inj {b x y : UInt32} (h : pos b x = pos b y) : x = y := by
  have hx := (x - b).toNat_lt
  have hy := (y - b).toNat_lt
  have hnat : (x - b).toNat = (y - b).toNat := by
    unfold pos asI32 at h
    split at h <;> split at h <;> omega
  exact (UInt32.sub_left_inj _).mp (UInt32.toNat_inj.mp hnat)

/-- The position of a number that is `n` further. -/
theorem pos_add {b x : UInt32} {n : ℕ} (h : pos b x + n < 2 ^ 31) :
    pos b (x + UInt32.ofNat n) = pos b x + n := by
  have hx := x.toNat_lt
  have hb := b.toNat_lt
  have hlow := neg_le_pos b x
  unfold pos asI32 at h hlow ⊢
  rw [UInt32.toNat_sub, UInt32.toNat_add, UInt32.toNat_ofNat']
  rw [UInt32.toNat_sub] at h hlow ⊢
  split at h <;> split <;> omega

theorem lt_eq_true_of_pos {b x y : UInt32} (h : pos b x < pos b y)
    (hwin : pos b y - pos b x ≤ 2 ^ 31) : lt x y = true := by
  have hx := x.toNat_lt
  have hy := y.toNat_lt
  have hb := b.toNat_lt
  rw [lt_iff]
  unfold pos asI32 at h hwin
  rw [UInt32.toNat_sub, UInt32.toNat_sub] at h hwin
  rw [UInt32.toNat_sub]
  split at h <;> split at h <;> omega

theorem lt_eq_false_of_pos {b x y : UInt32} (h : pos b y ≤ pos b x)
    (hwin : pos b x - pos b y < 2 ^ 31) : lt x y = false := by
  have hx := x.toNat_lt
  have hy := y.toNat_lt
  have hb := b.toNat_lt
  rw [← Bool.not_eq_true, lt_iff, not_le]
  unfold pos asI32 at h hwin
  rw [UInt32.toNat_sub, UInt32.toNat_sub] at h hwin
  rw [UInt32.toNat_sub]
  split at h <;> split at h <;> omega

/-- **An acknowledgement that is accepted lies between the oldest number that is not
acknowledged and the next one to send.** -/
theorem pos_of_ack {b una nxt ack : UInt32} (hle : pos b una ≤ pos b nxt)
    (hlt : lt una ack = true) (hnot : lt nxt ack = false) :
    pos b una < pos b ack ∧ pos b ack ≤ pos b nxt := by
  have h1 := una.toNat_lt
  have h2 := nxt.toNat_lt
  have h3 := ack.toNat_lt
  have h4 := b.toNat_lt
  rw [lt_iff] at hlt
  rw [← Bool.not_eq_true, lt_iff, not_le] at hnot
  unfold pos asI32 at hle ⊢
  rw [UInt32.toNat_sub] at hlt hnot
  rw [UInt32.toNat_sub, UInt32.toNat_sub] at hle
  rw [UInt32.toNat_sub, UInt32.toNat_sub, UInt32.toNat_sub]
  split at hle <;> split at hle <;> split <;> constructor <;> omega

/-- The base is at the position 0, and the number before it at -1. -/
theorem pos_self (b : UInt32) : pos b b = 0 := by
  rw [pos, UInt32.sub_self]
  decide

theorem pos_pred (b : UInt32) : pos (b + 1) b = -1 := by
  have hb := b.toNat_lt
  have h1 : (1 : UInt32).toNat = 1 := rfl
  rw [pos, asI32, UInt32.toNat_sub, UInt32.toNat_add, h1]
  split <;> omega

/-- The distance of two numbers is that of their positions. -/
theorem toNat_sub_of_pos {b x y : UInt32} (h : pos b x ≤ pos b y) :
    ((y - x).toNat : ℤ) = pos b y - pos b x := by
  have hx := x.toNat_lt
  have hy := y.toNat_lt
  have hb := b.toNat_lt
  unfold pos asI32 at h ⊢
  rw [UInt32.toNat_sub, UInt32.toNat_sub] at h ⊢
  rw [UInt32.toNat_sub]
  split at h <;> split at h <;> omega

end SeqNumber
