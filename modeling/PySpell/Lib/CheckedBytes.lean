/-
# Byte buffers whose accesses are checked

The accesses of a parser, over the computations of `Lib.Checked`: a byte, a number of two or
four bytes, a slice, a copy into a part of a buffer, a difference.  Each has the rule that
gives its value when the access is in bounds.  A buffer whose head was written is
`xs ++ ys`; the accesses to the head do not look at `ys`.
-/
import PySpell.Lib.Bytes
import PySpell.Lib.Checked

namespace Checked

variable {α : Type}

/-- `a - b`. -/
def sub (a b : ℕ) : Option ℕ := if b ≤ a then some (a - b) else none

/-- A number that has to fit in a byte. -/
def byte (n : ℕ) : Option UInt8 := if n < 2 ^ 8 then some (UInt8.ofNat n) else none

/-- `u16::from_be_bytes([l[i], l[j]])`. -/
def u16From (l : List UInt8) (i j : ℕ) : Option ℕ := do
  let a ← l[i]?
  let b ← l[j]?
  some (a.toNat * 256 + b.toNat)

/-- `u32::from_be_bytes([l[i], l[i + 1], l[i + 2], l[i + 3]])`. -/
def u32From (l : List UInt8) (i : ℕ) : Option UInt32 := do
  let hi ← u16From l i (i + 1)
  let lo ← u16From l (i + 2) (i + 3)
  some (UInt32.ofNat (hi * 65536 + lo))

/-- `xs[a..b].copy_from_slice(ys)`. -/
def copyTo (xs : List α) (a b : ℕ) (ys : List α) : Option (List α) := do
  let old ← slice xs a b
  let new ← copyFromSlice old ys
  some (splice xs a new)

/-- A checked sum that does not fit panics. -/
theorem Machine.add_eq_none {M : Machine} {a b : ℕ} (hchecks : M.checks = true)
    (h : ¬ a + b < 2 ^ M.width) : M.add a b = none := by
  rw [add, fit, if_neg h, if_pos hchecks]

/-! ## Accesses in bounds -/

theorem sub_of_le {a b : ℕ} (h : b ≤ a) : sub a b = some (a - b) := if_pos h

theorem byte_of_lt {n : ℕ} (h : n < 2 ^ 8) : byte n = some (UInt8.ofNat n) := if_pos h

theorem get_of_lt {l : List UInt8} {i : ℕ} (h : i < l.length) : l[i]? = some (l.getD i 0) := by
  rw [List.getD_eq_getElem?_getD, List.getElem?_eq_getElem h, Option.getD_some]

theorem u16From_of_lt {l : List UInt8} {i j : ℕ} (hi : i < l.length) (hj : j < l.length) :
    u16From l i j = some ((l.getD i 0).toNat * 256 + (l.getD j 0).toNat) := by
  rw [u16From, get_of_lt hi, get_of_lt hj]
  rfl

theorem slice_of_le {xs : List α} {a b : ℕ} (hab : a ≤ b) (hb : b ≤ xs.length) :
    slice xs a b = some ((xs.drop a).take (b - a)) := if_pos ⟨hab, hb⟩

theorem slice_to_end {xs : List α} {a : ℕ} (h : a ≤ xs.length) :
    slice xs a xs.length = some (xs.drop a) := by
  rw [slice_of_le h le_rfl, List.take_of_length_le (List.length_drop ▸ le_rfl)]

theorem slice_from_start {xs : List α} {b : ℕ} (h : b ≤ xs.length) :
    slice xs 0 b = some (xs.take b) := by
  rw [slice_of_le (Nat.zero_le b) h, List.drop_zero, Nat.sub_zero]

theorem copyFromSlice_of_length {xs ys : List α} (h : xs.length = ys.length) :
    copyFromSlice xs ys = some ys := if_pos h

theorem setAt_of_lt {xs : List α} {i : ℕ} {a : α} (h : i < xs.length) :
    setAt xs i a = some (xs.set i a) := if_pos h

theorem copyTo_of_le {xs ys : List α} {a b : ℕ} (hb : b ≤ xs.length) (hlen : a + ys.length = b) :
    copyTo xs a b ys = some (splice xs a ys) := by
  have hold : ((xs.drop a).take (b - a)).length = ys.length := by
    rw [List.length_take, List.length_drop]
    omega
  rw [copyTo, slice_of_le (by omega) hb, Option.bind_eq_bind, Option.bind_some,
    copyFromSlice_of_length hold]
  rfl

/-! ## The head of a buffer -/

theorem splice_append_left {xs ys zs : List α} {a : ℕ} (h : a + zs.length ≤ xs.length) :
    splice (xs ++ ys) a zs = splice xs a zs ++ ys := by
  rw [splice, splice, List.take_append_of_le_length (by omega),
    List.drop_append_of_le_length h, List.append_assoc, List.append_assoc, List.append_assoc]

theorem setAt_append_left {xs ys : List α} {i : ℕ} {a : α} (h : i < xs.length) :
    setAt (xs ++ ys) i a = some (xs.set i a ++ ys) := by
  rw [setAt_of_lt (by rw [List.length_append]; omega), List.set_append_left _ _ h]

theorem copyTo_append_left {xs ys zs : List α} {a b : ℕ} (hb : b ≤ xs.length)
    (hlen : a + zs.length = b) : copyTo (xs ++ ys) a b zs = some (splice xs a zs ++ ys) := by
  rw [copyTo_of_le (by rw [List.length_append]; omega) hlen, splice_append_left (by omega)]

/-- What follows the head is written as a whole. -/
theorem splice_append_right (xs : List α) {ys zs : List α} (h : zs.length = ys.length) :
    splice (xs ++ ys) xs.length zs = xs ++ zs := by
  have hdrop : (xs ++ ys).drop (xs.length + zs.length) = [] :=
    List.drop_eq_nil_of_le (by rw [List.length_append]; omega)
  rw [splice, List.take_left, hdrop, List.append_nil]

/-- The front of a buffer is written. -/
theorem splice_zero (xs zs : List α) : splice xs 0 zs = zs ++ xs.drop zs.length := by
  rw [splice, List.take_zero, List.nil_append, Nat.zero_add]

/-- Two writes one after the other. -/
theorem splice_splice (buf xs ys : List α) :
    splice (splice buf 0 xs) xs.length (splice (buf.drop xs.length) 0 ys) =
      splice buf 0 (xs ++ ys) := by
  have hdrop : (xs ++ buf.drop xs.length).drop
      (xs.length + (ys ++ (buf.drop xs.length).drop ys.length).length) = [] := by
    apply List.drop_eq_nil_of_le
    simp only [List.length_append, List.length_drop]
    omega
  rw [splice_zero buf xs, splice_zero (buf.drop xs.length), splice_zero buf, splice, List.take_left,
    hdrop, List.append_nil, List.drop_drop, List.length_append, List.append_assoc]

end Checked
