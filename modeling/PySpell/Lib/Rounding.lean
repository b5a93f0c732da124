/-
# Rounding to 53 bits

`rnd` rounds a natural number to the nearest one of 53 bits, ties to even, and
`nearest` rounds an integer.  A binary64 operation with an exact result that is a
multiple of `2^-1074` gives the rounding of it (`scaled_roundRat`), so the conversion of
an integer is its `nearest` (`scaled_ofInt`).
-/
import Mathlib.Data.Int.Order.Basic
import Mathlib.Data.Nat.Log
import Mathlib.Tactic.Ring
import PySpell.Lib.Binary64

namespace Binary64

/-! ## Rounding quotients -/

theorem roundDiv_one (n : ℕ) : roundDiv n 1 = n := by
  rw [roundDiv, Nat.mod_one, Nat.div_one, if_neg (by omega)]

/-- A common factor does not matter. -/
theorem roundDiv_mul_right (n d : ℕ) {k : ℕ} (hk : 0 < k) :
    roundDiv (n * k) (d * k) = roundDiv n d := by
  have hlt : d * k < 2 * (n % d * k) ↔ d < 2 * (n % d) := by
    rw [← Nat.mul_assoc]
    exact Nat.mul_lt_mul_right hk
  have heq : 2 * (n % d * k) = d * k ↔ 2 * (n % d) = d := by
    rw [← Nat.mul_assoc]
    exact Nat.mul_right_cancel_iff hk
  rw [roundDiv, roundDiv, Nat.mul_div_mul_right _ _ hk, Nat.mul_mod_mul_right]
  simp only [hlt, heq]

theorem roundDiv_of_mod_eq_zero {n d : ℕ} (hd : 0 < d) (h : n % d = 0) :
    roundDiv n d = n / d := by
  rw [roundDiv, h, if_neg (by omega)]

theorem div_le_roundDiv (n d : ℕ) : n / d ≤ roundDiv n d := by
  unfold roundDiv
  split_ifs
  · exact Nat.le_succ _
  · exact le_rfl

theorem roundDiv_le (n d : ℕ) : roundDiv n d ≤ n / d + 1 := by
  unfold roundDiv
  split_ifs
  · exact le_rfl
  · exact Nat.le_succ _

theorem roundDiv_mono {n m : ℕ} (d : ℕ) (h : n ≤ m) : roundDiv n d ≤ roundDiv m d := by
  rcases Nat.lt_or_eq_of_le (Nat.div_le_div_right (c := d) h) with hlt | heq
  · exact (roundDiv_le n d).trans ((Nat.succ_le_of_lt hlt).trans (div_le_roundDiv m d))
  · -- the same quotient, and a larger remainder
    have hn := Nat.div_add_mod n d
    have hm := Nat.div_add_mod m d
    rw [← heq] at hm
    rw [roundDiv, roundDiv, ← heq]
    split_ifs
    · exact le_rfl
    · omega
    · exact Nat.le_succ _
    · exact le_rfl

/-! ## Rounding numbers -/

/-- The number of 53 bits that is nearest, the even one of two. -/
def rnd (n : ℕ) : ℕ := roundDiv n (2 ^ (n.log2 - 52)) * 2 ^ (n.log2 - 52)

theorem log2_bounds {n : ℕ} (h : n ≠ 0) : 2 ^ n.log2 ≤ n ∧ n < 2 ^ (n.log2 + 1) :=
  ⟨Nat.log2_self_le h, Nat.lt_log2_self⟩

theorem log2_eq {n k : ℕ} (h : 2 ^ k ≤ n) (h' : n < 2 ^ (k + 1)) : n.log2 = k := by
  have hne : n ≠ 0 := by
    have := Nat.two_pow_pos k
    omega
  obtain ⟨hle, hlt⟩ := log2_bounds hne
  have h1 : k < n.log2 + 1 := (Nat.pow_lt_pow_iff_right (by decide)).mp (h.trans_lt hlt)
  have h2 : n.log2 < k + 1 := (Nat.pow_lt_pow_iff_right (by decide)).mp (hle.trans_lt h')
  omega

/-! ### Rounding one number -/

/-- A number of 53 bits is its own rounding. -/
theorem rnd_of_lt {n : ℕ} (h : n < 2 ^ 53) : rnd n = n := by
  have hlog : n.log2 - 52 = 0 := by
    rcases Nat.eq_zero_or_pos n with rfl | hpos
    · rfl
    · have := (Nat.log2_lt (by omega)).mpr h
      omega
  rw [rnd, hlog, Nat.pow_zero, roundDiv_one, Nat.mul_one]

/-- The significand of a number of more bits. -/
theorem significand_bounds {n : ℕ} (h : 2 ^ 52 ≤ n) :
    2 ^ 52 ≤ n / 2 ^ (n.log2 - 52) ∧ n / 2 ^ (n.log2 - 52) < 2 ^ 53 := by
  have hne : n ≠ 0 := by omega
  obtain ⟨hle, hlt⟩ := log2_bounds hne
  have hlog : 52 ≤ n.log2 := (Nat.le_log2 hne).mpr h
  have hpos := Nat.two_pow_pos (n.log2 - 52)
  constructor
  · rw [Nat.le_div_iff_mul_le hpos, ← Nat.pow_add]
    rwa [show 52 + (n.log2 - 52) = n.log2 by omega]
  · rw [Nat.div_lt_iff_lt_mul hpos, ← Nat.pow_add]
    rwa [show 53 + (n.log2 - 52) = n.log2 + 1 by omega]

theorem roundDiv_bounds {n : ℕ} (h : 2 ^ 52 ≤ n) :
    2 ^ 52 ≤ roundDiv n (2 ^ (n.log2 - 52)) ∧ roundDiv n (2 ^ (n.log2 - 52)) ≤ 2 ^ 53 := by
  obtain ⟨hle, hlt⟩ := significand_bounds h
  exact ⟨hle.trans (div_le_roundDiv _ _), (roundDiv_le _ _).trans hlt⟩

/-- Rounding stays between the powers of two. -/
theorem rnd_bounds {n : ℕ} (h : n ≠ 0) : 2 ^ n.log2 ≤ rnd n ∧ rnd n ≤ 2 ^ (n.log2 + 1) := by
  obtain ⟨hle, hlt⟩ := log2_bounds h
  rcases Nat.lt_or_ge n (2 ^ 52) with hsmall | hlarge
  · rw [rnd_of_lt (by omega)]
    exact ⟨hle, hlt.le⟩
  · obtain ⟨h1, h2⟩ := roundDiv_bounds hlarge
    have hlog : 52 ≤ n.log2 := (Nat.le_log2 h).mpr hlarge
    have hlow : 2 ^ n.log2 = 2 ^ 52 * 2 ^ (n.log2 - 52) := by
      rw [← Nat.pow_add]
      congr 1
      omega
    have hhigh : 2 ^ (n.log2 + 1) = 2 ^ 53 * 2 ^ (n.log2 - 52) := by
      rw [← Nat.pow_add]
      congr 1
      omega
    rw [hlow, hhigh, rnd]
    exact ⟨Nat.mul_le_mul_right _ h1, Nat.mul_le_mul_right _ h2⟩

/-! ### Order -/

/-- **Rounding is monotone.** -/
theorem rnd_mono {n m : ℕ} (h : n ≤ m) : rnd n ≤ rnd m := by
  rcases Nat.eq_zero_or_pos n with rfl | hpos
  · exact Nat.zero_le _
  have hn : n ≠ 0 := by omega
  have hm : m ≠ 0 := by omega
  have hlog : n.log2 ≤ m.log2 := by
    have h1 := (log2_bounds hn).1
    have h2 := (log2_bounds hm).2
    have h3 : n.log2 < m.log2 + 1 :=
      (Nat.pow_lt_pow_iff_right (by decide)).mp ((h1.trans h).trans_lt h2)
    omega
  rcases Nat.lt_or_eq_of_le hlog with hlt | heq
  · calc rnd n ≤ 2 ^ (n.log2 + 1) := (rnd_bounds hn).2
      _ ≤ 2 ^ m.log2 := Nat.pow_le_pow_right (by decide) hlt
      _ ≤ rnd m := (rnd_bounds hm).1
  · rw [rnd, rnd, heq]
    exact Nat.mul_le_mul_right _ (roundDiv_mono _ h)

theorem rnd_eq_zero {n : ℕ} : rnd n = 0 ↔ n = 0 := by
  constructor
  · intro h
    by_contra hne
    have h1 := (rnd_bounds hne).1
    have := Nat.two_pow_pos n.log2
    omega
  · rintro rfl
    rfl

/-- A power of two as a factor goes through. -/
theorem rnd_mul_two_pow (n k : ℕ) : rnd (n * 2 ^ k) = rnd n * 2 ^ k := by
  rcases Nat.eq_zero_or_pos n with rfl | hpos
  · rw [Nat.zero_mul, rnd_eq_zero.mpr rfl, Nat.zero_mul]
  have hn : n ≠ 0 := by omega
  obtain ⟨hle, hlt⟩ := log2_bounds hn
  have hlog : (n * 2 ^ k).log2 = n.log2 + k := by
    apply log2_eq
    · rw [Nat.pow_add]
      exact Nat.mul_le_mul_right _ hle
    · rw [show n.log2 + k + 1 = n.log2 + 1 + k by omega, Nat.pow_add]
      exact Nat.mul_lt_mul_of_pos_right hlt (Nat.two_pow_pos k)
  rcases Nat.lt_or_ge n.log2 52 with hsmall | hlarge
  · have hn53 : n < 2 ^ 53 :=
      hlt.trans_le (Nat.pow_le_pow_right (by decide) (by omega))
    rw [rnd_of_lt hn53, rnd, hlog]
    -- the factor takes all the bits that would be rounded off
    have hdvd : 2 ^ k = 2 ^ (k - (n.log2 + k - 52)) * 2 ^ (n.log2 + k - 52) := by
      rw [← Nat.pow_add]
      congr 1
      omega
    have hpow := Nat.two_pow_pos (n.log2 + k - 52)
    have hfactor : n * 2 ^ k = n * 2 ^ (k - (n.log2 + k - 52)) * 2 ^ (n.log2 + k - 52) := by
      rw [Nat.mul_assoc, ← hdvd]
    rw [hfactor, roundDiv_of_mod_eq_zero hpow (Nat.mul_mod_left _ _),
      Nat.mul_div_cancel _ hpow]
  · rw [rnd, rnd, hlog, show n.log2 + k - 52 = n.log2 - 52 + k by omega, Nat.pow_add,
      roundDiv_mul_right _ _ (Nat.two_pow_pos k), Nat.mul_assoc]

/-- A power of two is its own rounding. -/
theorem rnd_two_pow (k : ℕ) : rnd (2 ^ k) = 2 ^ k := by
  have h := rnd_mul_two_pow 1 k
  rwa [rnd_of_lt (n := 1) (by decide), Nat.one_mul] at h

/-- A significand that has carried is its own rounding as well. -/
theorem rnd_of_le {n : ℕ} (h : n ≤ 2 ^ 53) : rnd n = n := by
  rcases Nat.lt_or_eq_of_le h with hlt | rfl
  · exact rnd_of_lt hlt
  · exact rnd_two_pow 53

/-- **A rounding is its own rounding.** -/
theorem rnd_rnd (n : ℕ) : rnd (rnd n) = rnd n := by
  rcases Nat.lt_or_ge n (2 ^ 52) with hsmall | hlarge
  · rw [rnd_of_lt (n := n) (by omega), rnd_of_lt (by omega)]
  · conv_lhs => rw [rnd.eq_def n, rnd_mul_two_pow, rnd_of_le (roundDiv_bounds hlarge).2]
    rw [rnd]

/-- Half of an odd number, rounded twice: the odd numbers of 53 bits that are not of 52
are the only ones that go up. -/
theorem rnd_half {x : ℕ} (h : rnd x = x) :
    rnd (2 * x + 1) / 2 = if 2 ^ 52 < x ∧ x < 2 ^ 53 ∧ x % 2 = 1 then x + 1 else x := by
  rcases Nat.lt_or_ge x (2 ^ 52) with hsmall | hlarge
  · rw [rnd_of_lt (by omega), if_neg (by omega)]
    omega
  have hpos : x ≠ 0 := by omega
  obtain ⟨hle, hlt⟩ := log2_bounds hpos
  have hlog : (2 * x + 1).log2 = x.log2 + 1 := by
    apply log2_eq
    · rw [Nat.pow_succ]
      omega
    · rw [Nat.pow_succ]
      omega
  rcases Nat.lt_or_ge x (2 ^ 53) with hmid | hbig
  · have hexp : x.log2 = 52 := log2_eq hlarge hmid
    rw [rnd, hlog, hexp, show 52 + 1 - 52 = 1 from rfl, Nat.pow_one, roundDiv]
    split_ifs <;> omega
  · -- a whole number of units in the last place, which are at least two
    have hexp : 53 ≤ x.log2 := (Nat.le_log2 hpos).mpr hbig
    have hunit : 2 ^ (x.log2 + 1 - 52) = 2 * 2 ^ (x.log2 - 52) := by
      rw [show x.log2 + 1 - 52 = x.log2 - 52 + 1 by omega, Nat.pow_succ, Nat.mul_comm]
    have htwo : 2 ≤ 2 ^ (x.log2 - 52) := by
      rw [show x.log2 - 52 = x.log2 - 53 + 1 by omega, Nat.pow_succ]
      have := Nat.two_pow_pos (x.log2 - 53)
      omega
    have hx : x = roundDiv x (2 ^ (x.log2 - 52)) * 2 ^ (x.log2 - 52) := h.symm
    rw [rnd, hlog, hunit]
    generalize roundDiv x (2 ^ (x.log2 - 52)) = c at hx
    generalize 2 ^ (x.log2 - 52) = u at hx htwo
    have hsplit : 2 * x + 1 = 1 + 2 * u * c := by
      rw [Nat.mul_assoc, Nat.mul_comm u, ← hx, Nat.add_comm]
    have hdiv : (2 * x + 1) / (2 * u) = c := by
      rw [hsplit, Nat.add_mul_div_left _ _ (by omega), Nat.div_eq_of_lt (by omega),
        Nat.zero_add]
    have hmod : (2 * x + 1) % (2 * u) = 1 := by
      rw [hsplit, Nat.add_mul_mod_self_left, Nat.mod_eq_of_lt (by omega)]
    have hround : roundDiv (2 * x + 1) (2 * u) = c := by
      rw [roundDiv, hdiv, hmod, if_neg (by omega)]
    have htwice : c * (2 * u) = 2 * x := by
      rw [hx, Nat.mul_left_comm]
    rw [hround, htwice, if_neg (by omega), Nat.mul_div_cancel_left _ (by decide)]

/-! ### Signs -/

/-- The integer of 53 bits that is nearest. -/
def nearest (z : ℤ) : ℤ := if z < 0 then -(rnd z.natAbs : ℤ) else rnd z.natAbs

theorem nearest_mono {a b : ℤ} (h : a ≤ b) : nearest a ≤ nearest b := by
  have hpos : ∀ n : ℕ, (0 : ℤ) ≤ rnd n := fun n => Int.natCast_nonneg _
  unfold nearest
  split_ifs with ha hb hb
  · have := rnd_mono (show b.natAbs ≤ a.natAbs by omega)
    omega
  · have h1 := hpos a.natAbs
    have h2 := hpos b.natAbs
    omega
  · omega
  · have := rnd_mono (show a.natAbs ≤ b.natAbs by omega)
    omega

/-! ## Numbers with given fields -/

/-- The fields of a number of two fields. -/
theorem fields_ofFields (s : Bool) {m : ℕ} (h : m < 2 ^ 63) :
    (ofFields s m).isNeg = s ∧ (ofFields s m).expo = m / 2 ^ 52 ∧
      (ofFields s m).frac = m % 2 ^ 52 := by
  have hbits : (ofFields s m).bits.toNat = (if s then 2 ^ 63 else 0) + m := by
    rw [ofFields, UInt64.toNat_ofNat']
    cases s <;> simp only [Bool.false_eq_true, if_true, if_false] <;> omega
  refine ⟨?_, ?_, ?_⟩
  · rw [isNeg, hbits]
    cases s with
    | false => exact decide_eq_false (by simp only [Bool.false_eq_true, if_false]; omega)
    | true => exact decide_eq_true (by simp only [if_true]; omega)
  · rw [expo, hbits]
    cases s <;> simp only [Bool.false_eq_true, if_true, if_false] <;> omega
  · rw [frac, hbits]
    cases s <;> simp only [Bool.false_eq_true, if_true, if_false] <;> omega

/-- A number that is no NaN and no infinity. -/
def isFinite (x : Binary64) : Bool := !x.isNaN && !x.isInf

/-- The number `q * 2^e` in units of `2^-1074`; a significand `2^53` has carried. -/
theorem mag_ofFields (s : Bool) {e q : ℕ} (hq : q ≤ 2 ^ 53) (he : e = 0 ∨ 2 ^ 52 ≤ q)
    (h : e < 2045) :
    (ofFields s (e * 2 ^ 52 + q)).isNeg = s ∧
      (ofFields s (e * 2 ^ 52 + q)).isFinite = true ∧
      (ofFields s (e * 2 ^ 52 + q)).mag = q * 2 ^ e := by
  obtain ⟨hneg, hexpo, hfrac⟩ := fields_ofFields s (show e * 2 ^ 52 + q < 2 ^ 63 by omega)
  refine ⟨hneg, ?_, ?_⟩
  · have hne : ¬ (ofFields s (e * 2 ^ 52 + q)).expo = maxExpo := by
      rw [hexpo, maxExpo]
      omega
    rw [isFinite, isNaN, isInf]
    simp only [hne, decide_false, Bool.false_and, Bool.not_false, Bool.and_self]
  · rw [mag, hexpo, hfrac]
    rcases Nat.lt_or_ge q (2 ^ 52) with hsmall | hlarge
    · -- a subnormal number
      obtain rfl : e = 0 := by omega
      rw [if_pos (by omega), Nat.pow_zero, Nat.mul_one]
      omega
    rcases Nat.lt_or_eq_of_le hq with hlt | rfl
    · have hexpo : (e * 2 ^ 52 + q) / 2 ^ 52 = e + 1 := by omega
      have hfrac : 2 ^ 52 + (e * 2 ^ 52 + q) % 2 ^ 52 = q := by omega
      rw [hexpo, hfrac, if_neg (by omega), Nat.add_sub_cancel]
    · have hexpo : (e * 2 ^ 52 + 2 ^ 53) / 2 ^ 52 = e + 2 := by omega
      have hfrac : 2 ^ 52 + (e * 2 ^ 52 + 2 ^ 53) % 2 ^ 52 = 2 ^ 52 := by omega
      rw [hexpo, hfrac, if_neg (by omega), show e + 2 - 1 = 1 + e by omega, Nat.pow_add,
        ← Nat.mul_assoc, show 2 ^ 52 * 2 ^ 1 = 2 ^ 53 from rfl]

/-! ### Powers of two -/

theorem zero_eq (b : Bool) : (zero b).isFinite = true ∧ (zero b).scaled = 0 := by
  obtain ⟨-, hfin, hmag⟩ := mag_ofFields b (e := 0) (q := 0) (Nat.zero_le _) (.inl rfl) (by omega)
  rw [Nat.zero_mul, Nat.zero_add] at hfin hmag
  refine ⟨hfin, ?_⟩
  have hmag : (zero b).mag = 0 := hmag
  rw [scaled, hmag]
  exact ite_self _

/-- The number of one bit, above the subnormal numbers. -/
theorem ofFields_two_pow (s : Bool) {e : ℕ} (h : e < 2045) :
    (ofFields s (e * 2 ^ 52 + 2 ^ 52)).isFinite = true ∧
      (ofFields s (e * 2 ^ 52 + 2 ^ 52)).scaled = if s then -2 ^ (52 + e) else 2 ^ (52 + e) := by
  obtain ⟨hneg, hfin, hmag⟩ := mag_ofFields s (q := 2 ^ 52) (by decide) (.inr (Nat.le_refl _)) h
  refine ⟨hfin, ?_⟩
  rw [scaled, hneg, hmag, ← Nat.pow_add, Nat.cast_pow, Nat.cast_ofNat]

/-- **The rounding of a fraction** that is a multiple of `2^-1074`. -/
theorem roundRat_eq (s : Bool) {n d m : ℕ} (hd : 0 < d) (h : n * 2 ^ 1074 = m * d)
    (hm : m < 2 ^ 2000) :
    (roundRat s n d).isNeg = s ∧ (roundRat s n d).isFinite = true ∧
      (roundRat s n d).mag = rnd m := by
  have hulp : ulpExpo n d = m.log2 - 52 := by
    rw [ulpExpo, h, Nat.mul_div_cancel _ hd]
  have hdiv : roundDiv (n * 2 ^ 1074) (d * 2 ^ (m.log2 - 52)) =
      roundDiv m (2 ^ (m.log2 - 52)) := by
    rw [h, Nat.mul_comm d, roundDiv_mul_right _ _ hd]
  have hlog : m.log2 < 2000 := by
    rcases Nat.eq_zero_or_pos m with rfl | hpos
    · decide
    · exact (Nat.log2_lt (by omega)).mpr hm
  have hbounds : roundDiv m (2 ^ (m.log2 - 52)) ≤ 2 ^ 53 ∧
      (m.log2 - 52 = 0 ∨ 2 ^ 52 ≤ roundDiv m (2 ^ (m.log2 - 52))) := by
    rcases Nat.lt_or_ge m (2 ^ 52) with hsmall | hlarge
    · have hzero : m.log2 - 52 = 0 := by
        rcases Nat.eq_zero_or_pos m with rfl | hpos
        · rfl
        · have := (Nat.log2_lt (by omega)).mpr hsmall
          omega
      rw [hzero, Nat.pow_zero, roundDiv_one]
      exact ⟨by omega, .inl rfl⟩
    · obtain ⟨h1, h2⟩ := roundDiv_bounds hlarge
      exact ⟨h2, .inr h1⟩
  have hround : roundRat s n d =
      ofFields s ((m.log2 - 52) * 2 ^ 52 + roundDiv m (2 ^ (m.log2 - 52))) := by
    unfold roundRat
    simp only [hulp, hdiv]
    rw [if_neg]
    have := hbounds.1
    rw [maxExpo]
    omega
  rw [hround]
  exact mag_ofFields s hbounds.1 hbounds.2 (by omega)

theorem isNaN_of_isFinite {x : Binary64} (h : x.isFinite = true) : x.isNaN = false := by
  rw [isFinite, Bool.and_eq_true] at h
  simpa using h.1

theorem isInf_of_isFinite {x : Binary64} (h : x.isFinite = true) : x.isInf = false := by
  rw [isFinite, Bool.and_eq_true] at h
  simpa using h.2

/-! ### Integers -/

theorem mul_pow_neg_iff (z : ℤ) (k : ℕ) : z * 2 ^ k < 0 ↔ z < 0 := by
  have hpos : (0 : ℤ) < 2 ^ k := Int.pow_pos (by decide)
  rw [Int.mul_neg_iff]
  omega

/-- The rounding of an integer fraction. -/
theorem roundInt_eq {z m : ℤ} {d : ℕ} (b : Bool) (hd : 0 < d) (h : z * 2 ^ 1074 = m * d)
    (hm : m.natAbs < 2 ^ 2000) :
    (roundInt z d b).isFinite = true ∧ (roundInt z d b).scaled = nearest m := by
  have hdz : (d : ℤ) ≠ 0 := by omega
  rcases eq_or_ne z 0 with rfl | hz
  · have hm0 : m = 0 := by
      rw [Int.zero_mul] at h
      rcases Int.mul_eq_zero.mp h.symm with h | h
      · exact h
      · exact absurd h hdz
    obtain ⟨hfin, hscaled⟩ := zero_eq b
    rw [hm0, roundInt, if_pos rfl]
    exact ⟨hfin, hscaled⟩
  · have habs : z.natAbs * 2 ^ 1074 = m.natAbs * d := by
      have := congrArg Int.natAbs h
      rwa [Int.natAbs_mul, Int.natAbs_mul, Int.natAbs_pow, Int.natAbs_natCast] at this
    have hsign : z < 0 ↔ m < 0 := by
      rw [← mul_pow_neg_iff z 1074, h, Int.mul_neg_iff]
      omega
    obtain ⟨hneg, hfin, hmag⟩ := roundRat_eq (decide (z < 0)) hd habs hm
    rw [roundInt, if_neg hz]
    refine ⟨hfin, ?_⟩
    rw [scaled, hneg, hmag, nearest]
    simp only [decide_eq_true_eq, hsign]

theorem natAbs_mul_two_pow (z : ℤ) (k : ℕ) : (z * 2 ^ k).natAbs = z.natAbs * 2 ^ k := by
  rw [Int.natAbs_mul, Int.natAbs_pow]
  rfl

theorem nearest_mul_two_pow (z : ℤ) (k : ℕ) : nearest (z * 2 ^ k) = nearest z * 2 ^ k := by
  rw [nearest, nearest, natAbs_mul_two_pow, rnd_mul_two_pow]
  simp only [mul_pow_neg_iff]
  split_ifs
  · push_cast
    rw [Int.neg_mul]
  · push_cast
    rfl

/-- The powers of two are their own roundings. -/
theorem nearest_two_pow (k : ℕ) : nearest (2 ^ k) = 2 ^ k ∧ nearest (-2 ^ k) = -2 ^ k := by
  have hone : nearest 1 = 1 ∧ nearest (-1) = -1 := by decide
  have hpos := nearest_mul_two_pow 1 k
  have hneg := nearest_mul_two_pow (-1) k
  rw [hone.1, Int.one_mul] at hpos
  rw [hone.2, Int.neg_mul, Int.one_mul] at hneg
  exact ⟨hpos, hneg⟩

/-- The largest integer of 64 bits rounds up. -/
theorem nearest_maxValue : nearest (2 ^ 63 - 1) = 2 ^ 63 := by decide +kernel

/-- **The conversion of an integer** is the nearest number. -/
theorem ofInt_eq {z : ℤ} (h : z.natAbs < 2 ^ 64) :
    (ofInt z).isFinite = true ∧ (ofInt z).scaled = nearest z * 2 ^ 1074 := by
  rw [← nearest_mul_two_pow, ofInt]
  apply roundInt_eq
  · decide
  · rw [Nat.cast_one, Int.mul_one]
  · rw [natAbs_mul_two_pow]
    calc z.natAbs * 2 ^ 1074 < 2 ^ 64 * 2 ^ 1074 :=
          Nat.mul_lt_mul_of_pos_right h (Nat.two_pow_pos _)
      _ ≤ 2 ^ 2000 := by
        rw [← Nat.pow_add]
        exact Nat.pow_le_pow_right (by decide) (by decide)

/-! ## Operations on finite numbers -/

theorem add_eq {x y : Binary64} (hx : x.isFinite = true) (hy : y.isFinite = true)
    (h : (x.scaled + y.scaled).natAbs < 2 ^ 2000) :
    (add x y).isFinite = true ∧ (add x y).scaled = nearest (x.scaled + y.scaled) := by
  have hadd : add x y = roundInt (x.scaled + y.scaled) (2 ^ 1074) (x.isNeg && y.isNeg) := by
    simp only [add, isNaN_of_isFinite hx, isNaN_of_isFinite hy, isInf_of_isFinite hx,
      isInf_of_isFinite hy, Bool.or_self, Bool.false_eq_true, if_false]
  rw [hadd]
  apply roundInt_eq
  · exact Nat.two_pow_pos _
  · rw [Nat.cast_pow, Nat.cast_ofNat]
  · exact h

/-- The bits of a number with the other sign. -/
theorem neg_bits (x : Binary64) :
    x.neg.bits.toNat % 2 ^ 63 = x.bits.toNat % 2 ^ 63 ∧
      x.neg.bits.toNat / 2 ^ 63 = 1 - x.bits.toNat / 2 ^ 63 := by
  have hbits : x.neg.bits.toNat = x.bits.toNat ^^^ 2 ^ 63 := by
    rw [neg, UInt64.toNat_xor]
    rfl
  have hlt := x.bits.toNat_lt
  constructor
  · rw [hbits, Nat.xor_mod_two_pow, Nat.mod_self, Nat.xor_zero]
  · rw [hbits, Nat.xor_div_two_pow, Nat.div_self (Nat.two_pow_pos _)]
    have : x.bits.toNat / 2 ^ 63 = 0 ∨ x.bits.toNat / 2 ^ 63 = 1 := by omega
    rcases this with h | h <;> rw [h] <;> rfl

theorem neg_eq (x : Binary64) : x.neg.isFinite = x.isFinite ∧ x.neg.scaled = -x.scaled := by
  obtain ⟨hlow, hhigh⟩ := neg_bits x
  have hlt := x.bits.toNat_lt
  have hlt' := x.neg.bits.toNat_lt
  have hexpo : x.neg.expo = x.expo := by
    unfold expo
    omega
  have hfrac : x.neg.frac = x.frac := by
    unfold frac
    omega
  have hmag : x.neg.mag = x.mag := by rw [mag, mag, hexpo, hfrac]
  have hneg : x.neg.isNeg = !x.isNeg := by
    rw [isNeg, isNeg, ← decide_not]
    apply decide_eq_decide.mpr
    omega
  constructor
  · rw [isFinite, isFinite, isNaN, isNaN, isInf, isInf, hexpo, hfrac]
  · rw [scaled, scaled, hneg, hmag]
    cases x.isNeg with
    | false => rfl
    | true => exact (Int.neg_neg _).symm

/-- An integer, saturated to 64 bits. -/
def saturate (t : ℤ) : ℤ :=
  if t < -2 ^ 63 then -2 ^ 63 else if 2 ^ 63 - 1 < t then 2 ^ 63 - 1 else t

theorem toI64_eq {x : Binary64} (h : x.isFinite = true) :
    x.toI64.toInt = saturate (x.scaled.tdiv (2 ^ 1074)) := by
  rw [toI64, isNaN_of_isFinite h, saturate]
  simp only [Bool.false_eq_true, if_false]
  split_ifs with hlow hhigh
  · rfl
  · rfl
  · exact Int64.toInt_ofInt_of_le (by omega) (by omega)

/-- The integer that a finite number of whole units is read as. -/
theorem toI64_of_mul {x : Binary64} {t : ℤ} (h : x.isFinite = true)
    (ht : x.scaled = t * 2 ^ 1074) : x.toI64.toInt = saturate t := by
  rw [toI64_eq h, ht, Int.mul_tdiv_cancel _ (pow_ne_zero _ (by decide))]

theorem eq_eq {x y : Binary64} (hx : x.isFinite = true) (hy : y.isFinite = true) :
    Binary64.eq x y = decide (x.scaled = y.scaled) := by
  rw [Binary64.eq, isNaN_of_isFinite hx, isNaN_of_isFinite hy]
  rfl

theorem lt_eq {x y : Binary64} (hx : x.isFinite = true) (hy : y.isFinite = true) :
    lt x y = decide (x.scaled < y.scaled) := by
  rw [lt, isNaN_of_isFinite hx, isNaN_of_isFinite hy]
  rfl

theorem le_eq {x y : Binary64} (hx : x.isFinite = true) (hy : y.isFinite = true) :
    le x y = decide (x.scaled ≤ y.scaled) := by
  rw [le, isNaN_of_isFinite hx, isNaN_of_isFinite hy]
  rfl

end Binary64
