/-
# Sums in one's complement

A number of `m + 1` values per digit is reduced by adding its carries to its last digit.
`fold m` is what is left when no carry is: zero for zero, and for every other number the
one of `1 … m` that is congruent to it modulo `m`.  A sum is folded at any time with the
same result (`fold_fold_add`), and what is missing from a folded sum to `m`, added to it,
makes `m` (`fold_add_complement`).  Bytes are added as words of two, the last one padded.
-/
import Mathlib.Algebra.Order.Ring.Nat

namespace OnesComplement

variable {m a b n : ℕ}

/-! ## Folding -/

/-- The number that is left when the carries are folded in. -/
def fold (m n : ℕ) : ℕ := if n = 0 then 0 else (n - 1) % m + 1

theorem fold_zero (m : ℕ) : fold m 0 = 0 := rfl

theorem fold_of_pos (hn : 0 < n) : fold m n = (n - 1) % m + 1 := if_neg (by omega)

/-- A number that has no carry is left as it is. -/
theorem fold_of_le (h : n ≤ m) : fold m n = n := by
  by_cases hn : n = 0
  · rw [hn, fold_zero]
  · rw [fold_of_pos (by omega), Nat.mod_eq_of_lt (by omega)]
    omega

theorem fold_le (hm : 0 < m) (n : ℕ) : fold m n ≤ m := by
  by_cases hn : n = 0
  · rw [hn, fold_zero]
    exact Nat.zero_le m
  · have hmod := Nat.mod_lt (n - 1) hm
    rw [fold_of_pos (by omega)]
    omega

theorem fold_pos (hn : 0 < n) : 0 < fold m n := by
  rw [fold_of_pos hn]
  exact Nat.succ_pos _

/-- Multiples of `m` go when something else stays. -/
theorem fold_add_mul (hn : 0 < n) (k : ℕ) : fold m (n + m * k) = fold m n := by
  rw [fold_of_pos (by omega), fold_of_pos hn, show n + m * k - 1 = n - 1 + m * k by omega,
    Nat.add_mul_mod_self_left]

/-- The number is its fold and a multiple of `m`. -/
theorem exists_eq_fold_add (m n : ℕ) : ∃ k, n = fold m n + m * k := by
  by_cases hn : n = 0
  · exact ⟨0, by rw [hn, fold_zero, Nat.mul_zero]⟩
  · refine ⟨(n - 1) / m, ?_⟩
    have hdiv := Nat.mod_add_div (n - 1) m
    have hpos : 0 < n := by omega
    rw [fold_of_pos hpos]
    omega

/-- **One round of folding** adds the carries to the last digit and changes nothing. -/
theorem fold_round (m n : ℕ) : fold m (n % (m + 1) + n / (m + 1)) = fold m n := by
  have hdiv := Nat.mod_add_div n (m + 1)
  have hsplit : n = n % (m + 1) + n / (m + 1) + m * (n / (m + 1)) := by
    rw [Nat.add_mul, Nat.one_mul] at hdiv
    omega
  by_cases hn : n % (m + 1) + n / (m + 1) = 0
  · have hzero : n = 0 := by
      obtain ⟨hmod, hquot⟩ := Nat.add_eq_zero_iff.mp hn
      rw [hmod, hquot, Nat.mul_zero] at hdiv
      exact hdiv.symm
    rw [hn, hzero]
  · conv_rhs => rw [hsplit]
    exact (fold_add_mul (Nat.pos_of_ne_zero hn) _).symm

/-- **A sum may be folded at any time.** -/
theorem fold_fold_add (m a b : ℕ) : fold m (fold m a + b) = fold m (a + b) := by
  by_cases ha : a = 0
  · rw [ha, fold_zero]
  · obtain ⟨k, hk⟩ := exists_eq_fold_add m a
    have hpos : 0 < fold m a := fold_pos (by omega)
    conv_rhs => rw [hk, show fold m a + m * k + b = fold m a + b + m * k by omega]
    exact (fold_add_mul (by omega) k).symm

/-- **The complement**: what is missing from a folded sum, added to it, makes `m`. -/
theorem fold_add_complement (hm : 0 < m) (n : ℕ) : fold m (n + (m - fold m n)) = m := by
  have hle := fold_le hm n
  rw [← fold_fold_add, show fold m n + (m - fold m n) = m by omega]
  exact fold_of_le le_rfl

/-! ## Words of two bytes -/

/-- The sum of the words, the last one padded with a zero. -/
def wordSum : List UInt8 → ℕ
  | a :: b :: l => a.toNat * 256 + b.toNat + wordSum l
  | [a] => a.toNat * 256
  | [] => 0

/-- Whole words are added in any grouping. -/
theorem wordSum_append {pre : List UInt8} (post : List UInt8) (heven : pre.length % 2 = 0) :
    wordSum (pre ++ post) = wordSum pre + wordSum post := by
  induction pre using wordSum.induct with
  | case1 a b pre ih =>
    have htail : pre.length % 2 = 0 := by
      simp only [List.length_cons] at heven
      omega
    have hcons : a :: b :: pre ++ post = a :: b :: (pre ++ post) := rfl
    rw [hcons, wordSum, wordSum, ih htail]
    omega
  | case2 a => simp at heven
  | case3 => simp [wordSum]

theorem wordSum_le (l : List UInt8) : wordSum l ≤ 65535 * ((l.length + 1) / 2) := by
  induction l using wordSum.induct with
  | case1 a b l ih =>
    have ha := a.toNat_lt
    have hb := b.toNat_lt
    simp only [wordSum, List.length_cons]
    omega
  | case2 a =>
    have ha := a.toNat_lt
    simp only [wordSum, List.length_cons, List.length_nil]
    omega
  | case3 => exact Nat.zero_le _

/-- **A word that complements the sum of the others** makes the whole sum all ones. -/
theorem fold_wordSum_middle {pre : List UInt8} (post : List UInt8) {hi lo : UInt8}
    (heven : pre.length % 2 = 0)
    (h : hi.toNat * 256 + lo.toNat = 65535 - fold 65535 (wordSum (pre ++ ([0, 0] ++ post)))) :
    fold 65535 (wordSum (pre ++ ([hi, lo] ++ post))) = 65535 := by
  have hword : ∀ a b : UInt8, wordSum (pre ++ ([a, b] ++ post)) =
      wordSum pre + (a.toNat * 256 + b.toNat + wordSum post) := by
    intro a b
    rw [wordSum_append _ heven]
    rfl
  have hzero : wordSum (pre ++ ([0, 0] ++ post)) = wordSum pre + wordSum post := by
    rw [hword]
    simp
  rw [hword, h, hzero, show wordSum pre + (65535 - fold 65535 (wordSum pre + wordSum post) +
    wordSum post) = wordSum pre + wordSum post + (65535 - fold 65535 (wordSum pre +
      wordSum post)) by omega]
  exact fold_add_complement (by omega) _

end OnesComplement
