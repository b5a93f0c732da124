/-
# Integers

A comparison, an extremum or a lookup takes the numbers of its operands, and so do
`int` and `round`: an integer goes through the nearest binary64 number (`approx`).  All of
them are exact for integers that this number tells apart, and go wrong from `2^53` on;
`round` also moves the odd integers between `2^52` and `2^53`, to which it adds a half.
-/
import Mathlib.Data.List.MinMax
import PySpell.Lib.Rounding
import PySpell.Membership

namespace Eval

open Binary64

/-- The integers as values. -/
def ints (l : List Int64) : List Value := l.map .int

/-- The binary64 number of an integer, an integer again. -/
def approx (n : Int64) : ℤ := nearest n.toInt

theorem approx_mono {a b : Int64} (h : a.toInt ≤ b.toInt) : approx a ≤ approx b :=
  nearest_mono h

/-- The number of an integer is finite, and is its rounding. -/
theorem ofInt_toInt (n : Int64) :
    (ofInt n.toInt).isFinite = true ∧ (ofInt n.toInt).scaled = approx n * 2 ^ 1074 := by
  have hlow := n.le_toInt
  have hhigh := n.toInt_lt
  exact ofInt_eq (by omega)

theorem scaled_inj {a b : ℤ} : a * 2 ^ 1074 = b * 2 ^ 1074 ↔ a = b :=
  Int.mul_eq_mul_right_iff (pow_ne_zero _ (by decide))

theorem scaled_lt {a b : ℤ} : a * 2 ^ 1074 < b * 2 ^ 1074 ↔ a < b :=
  Int.mul_lt_mul_right (Int.pow_pos (by decide))

theorem scaled_le {a b : ℤ} : a * 2 ^ 1074 ≤ b * 2 ^ 1074 ↔ a ≤ b :=
  Int.mul_le_mul_right (Int.pow_pos (by decide))

theorem eq_ofInt (a b : Int64) :
    Binary64.eq (ofInt a.toInt) (ofInt b.toInt) = decide (approx a = approx b) := by
  obtain ⟨ha, hsa⟩ := ofInt_toInt a
  obtain ⟨hb, hsb⟩ := ofInt_toInt b
  rw [eq_eq ha hb, hsa, hsb]
  exact decide_eq_decide.mpr scaled_inj

theorem lt_ofInt (a b : Int64) :
    Binary64.lt (ofInt a.toInt) (ofInt b.toInt) = decide (approx a < approx b) := by
  obtain ⟨ha, hsa⟩ := ofInt_toInt a
  obtain ⟨hb, hsb⟩ := ofInt_toInt b
  rw [lt_eq ha hb, hsa, hsb]
  exact decide_eq_decide.mpr scaled_lt

theorem le_ofInt (a b : Int64) :
    Binary64.le (ofInt a.toInt) (ofInt b.toInt) = decide (approx a ≤ approx b) := by
  obtain ⟨ha, hsa⟩ := ofInt_toInt a
  obtain ⟨hb, hsb⟩ := ofInt_toInt b
  rw [le_eq ha hb, hsa, hsb]
  exact decide_eq_decide.mpr scaled_le

/-! ## Comparisons -/

/-- The order of the integers. -/
def intOrder (op : CmpOp) (a b : ℤ) : Bool :=
  match op with
  | .eq => a = b
  | .ne => a ≠ b
  | .lt => a < b
  | .le => a ≤ b
  | .gt => b < a
  | .ge => b ≤ a

/-- The comparisons of two integers follow their order. -/
def ComparesExactly (a b : Int64) : Prop :=
  ∀ op, compare op (.int a) (.int b) = .ok (intOrder op a.toInt b.toInt)

/-- The comparisons are those of the binary64 numbers. -/
theorem compare_int (op : CmpOp) (a b : Int64) :
    compare op (.int a) (.int b) = .ok (intOrder op (approx a) (approx b)) := by
  cases op with
  | eq => exact congrArg Except.ok (eq_ofInt a b)
  | ne =>
    show Except.ok (!Binary64.eq (ofInt a.toInt) (ofInt b.toInt)) = _
    rw [eq_ofInt, ← decide_not]
    rfl
  | lt => exact congrArg Except.ok (lt_ofInt a b)
  | le => exact congrArg Except.ok (le_ofInt a b)
  | gt => exact congrArg Except.ok (lt_ofInt b a)
  | ge => exact congrArg Except.ok (le_ofInt b a)

theorem comparesExactly_iff (a b : Int64) :
    ComparesExactly a b ↔ (approx a = approx b → a = b) := by
  constructor
  · intro h hsame
    have heq := h .eq
    rw [compare_int, Except.ok.injEq] at heq
    have hint : a.toInt = b.toInt := by
      simpa [intOrder, hsame] using heq
    exact Int64.toInt_inj.mp hint
  · intro h op
    rw [compare_int, Except.ok.injEq]
    by_cases hab : a = b
    · subst hab
      cases op <;> simp [intOrder]
    · -- different numbers, which stand in the order of the integers
      have hne : approx a ≠ approx b := fun hsame => hab (h hsame)
      have hint : a.toInt ≠ b.toInt := fun he => hab (Int64.toInt_inj.mp he)
      have hlt : approx a < approx b ↔ a.toInt < b.toInt := by
        constructor
        · intro hlt
          by_contra hnot
          have := approx_mono (show b.toInt ≤ a.toInt by omega)
          omega
        · intro hlt
          have := approx_mono hlt.le
          omega
      cases op <;> simp only [intOrder, decide_eq_decide] <;> omega

/-! ## Extrema -/

/-- The smallest of the integers. -/
def IsMinOf (l : List Int64) (m : Int64) : Prop := m ∈ l ∧ ∀ e ∈ l, m.toInt ≤ e.toInt

/-- The largest of the integers. -/
def IsMaxOf (l : List Int64) (m : Int64) : Prop := m ∈ l ∧ ∀ e ∈ l, e.toInt ≤ m.toInt

/-- `min` or `max` returns the integer, for the list and for its items as arguments. -/
def Returns (host : Host) (b : Builtin) (l : List Int64) (m : Int64) : Prop :=
  pureBuiltin host b [.list (ints l)] = .ok (.int m) ∧
    (2 ≤ l.length → pureBuiltin host b (ints l) = .ok (.int m))

/-- `min` returns the smallest of the integers. -/
def MinExact (host : Host) (l : List Int64) : Prop := ∀ m, IsMinOf l m → Returns host .min l m

/-- `max` returns the largest of the integers. -/
def MaxExact (host : Host) (l : List Int64) : Prop := ∀ m, IsMaxOf l m → Returns host .max l m

/-- No integer of the list with the binary64 number of `x` stands before `x`. -/
def FirstOfNumber (l : List Int64) (x : Int64) : Prop :=
  ∀ e ∈ l, approx e = approx x → l.idxOf x ≤ l.idxOf e

/-- The order in which `min` or `max` takes a number. -/
def Takes (b : Builtin) (x best : Int64) : Prop :=
  if b = .min then approx x < approx best else approx best < approx x

instance (b : Builtin) : DecidableRel (Takes b) := fun x best => by
  unfold Takes
  infer_instance

/-- **The loop of `min` and `max`** is a fold over the integers. -/
theorem minmaxLoop_ints (b : Builtin) (l : List Int64) (best m : Int64) :
    minmaxLoop b (ints l) (.int best) (ofInt best.toInt) = .ok (.int m) ↔
      l.foldl (List.argAux (Takes b)) (some best) = some m := by
  induction l generalizing best with
  | nil =>
    show Except.ok (Value.int best) = Except.ok (Value.int m) ↔ some best = some m
    simp
  | cons x l ih =>
    have htake : (if b = .min then Binary64.lt (ofInt x.toInt) (ofInt best.toInt)
        else Binary64.lt (ofInt best.toInt) (ofInt x.toInt)) = decide (Takes b x best) := by
      unfold Takes
      split_ifs
      · exact lt_ofInt x best
      · exact lt_ofInt best x
    show (if (if b = .min then Binary64.lt (ofInt x.toInt) (ofInt best.toInt)
        else Binary64.lt (ofInt best.toInt) (ofInt x.toInt))
      then minmaxLoop b (ints l) (.int x) (ofInt x.toInt)
      else minmaxLoop b (ints l) (.int best) (ofInt best.toInt)) = _ ↔
        l.foldl (List.argAux (Takes b)) (if Takes b x best then some x else some best) = _
    rw [htake]
    by_cases h : Takes b x best
    · simp only [h, decide_true, if_true]
      exact ih x
    · simp only [h, decide_false, Bool.false_eq_true, if_false]
      exact ih best

/-- What `min` and `max` return. -/
theorem returns_iff (host : Host) {b : Builtin} (hb : b = .min ∨ b = .max) (l : List Int64)
    (m : Int64) :
    Returns host b l m ↔ l.foldl (List.argAux (Takes b)) none = some m := by
  cases l with
  | nil =>
    refine iff_of_false (fun h => ?_) nofun
    rcases hb with rfl | rfl <;> exact nomatch h.1
  | cons x l =>
    have hlist : pureBuiltin host b [.list (ints (x :: l))] = .ofExcept
        (minmaxLoop b (ints l) (.int x) (ofInt x.toInt)) := by
      rcases hb with rfl | rfl <;> rfl
    have hargs : 2 ≤ (x :: l).length → pureBuiltin host b (ints (x :: l)) = .ofExcept
        (minmaxLoop b (ints l) (.int x) (ofInt x.toInt)) := by
      intro hlen
      cases l with
      | nil => exact absurd hlen (Nat.not_succ_le_self 1)
      | cons y l => rcases hb with rfl | rfl <;> rfl
    have hok : ∀ r : Except DslError Value, Outcome.ofExcept r = .ok (.int m) ↔
        r = .ok (.int m) := by
      intro r
      cases r <;> simp [Outcome.ofExcept]
    rw [Returns, hlist, hok, minmaxLoop_ints]
    constructor
    · exact fun h => h.1
    · intro h
      refine ⟨h, fun hlen => ?_⟩
      rw [hargs hlen, hok, minmaxLoop_ints]
      exact h

theorem minExact_iff (host : Host) (l : List Int64) :
    MinExact host l ↔ ∀ m, IsMinOf l m → FirstOfNumber l m := by
  refine forall_congr' fun m => imp_congr_right fun hm => ?_
  have hfold : l.foldl (List.argAux (Takes .min)) none = l.argmin approx := by
    rw [List.argmin]
    congr
  rw [returns_iff host (.inl rfl), hfold, ← Option.mem_def, List.mem_argmin_iff]
  constructor
  · exact fun h e he hsame => h.2.2 e he hsame.le
  · intro h
    exact ⟨hm.1, fun e he => approx_mono (hm.2 e he),
      fun e he hle => h e he (le_antisymm hle (approx_mono (hm.2 e he)))⟩

theorem maxExact_iff (host : Host) (l : List Int64) :
    MaxExact host l ↔ ∀ m, IsMaxOf l m → FirstOfNumber l m := by
  refine forall_congr' fun m => imp_congr_right fun hm => ?_
  have hfold : l.foldl (List.argAux (Takes .max)) none = l.argmax approx := by
    rw [List.argmax]
    congr
  rw [returns_iff host (.inr rfl), hfold, ← Option.mem_def, List.mem_argmax_iff]
  constructor
  · exact fun h e he hsame => h.2.2 e he hsame.ge
  · intro h
    exact ⟨hm.1, fun e he => approx_mono (hm.2 e he),
      fun e he hle => h e he (le_antisymm (approx_mono (hm.2 e he)) hle)⟩

/-! ## Lookups -/

/-- A list of integers; no slice holds more. -/
abbrev IntItems := { l : List Int64 // l.length < 2 ^ 63 }

/-- `contains(l, x)` is the membership of the integer. -/
def ContainsExact (host : Host) (l : List Int64) (x : Int64) : Prop :=
  pureBuiltin host .contains [.list (ints l), .int x] = .ok (.bool (x ∈ l))

/-- `index(l, x)` is the first position of the integer. -/
def IndexExact (host : Host) (l : IntItems) (x : Int64) : Prop :=
  pureBuiltin host .indexOf [.list (ints l), .int x] =
    .ok (.int ((l.1.idxOf? x).elim (-1) Int64.ofNat))

theorem sameNumber_int (x e : Int64) :
    sameNumber (.int x) (.int e) = decide (approx e = approx x) :=
  eq_ofInt e x

theorem containsExact_iff (host : Host) (l : List Int64) (x : Int64) :
    ContainsExact host l x ↔ ((∃ e ∈ l, approx e = approx x) → x ∈ l) := by
  have hrun : pureBuiltin host .contains [.list (ints l), .int x] =
      .ok (.bool ((ints l).any (sameNumber (.int x)))) := contains_eq host _ _
  rw [ContainsExact, hrun, ints, List.any_map]
  simp only [Outcome.ok.injEq, Value.bool.injEq]
  rw [Bool.eq_iff_iff, List.any_eq_true, decide_eq_true_iff]
  simp only [Function.comp_apply, sameNumber_int, decide_eq_true_eq]
  constructor
  · exact fun h => h.mp
  · exact fun h => ⟨h, fun hx => ⟨x, hx, rfl⟩⟩

/-- The first integer with the number of `x` is `x`, if no other stands before it. -/
theorem findIdx?_eq_idxOf? (l : List Int64) (x : Int64) :
    l.findIdx? (fun e => decide (approx e = approx x)) = l.idxOf? x ↔ FirstOfNumber l x := by
  constructor
  · -- an earlier integer of the same number would be found first
    intro h e he hsame
    cases hfind : l.findIdx? (fun e => decide (approx e = approx x)) with
    | none =>
      have := List.findIdx?_eq_none_iff.mp hfind e he
      simp [hsame] at this
    | some i =>
      obtain ⟨-, hidx⟩ := List.findIdx?_eq_some_iff_findIdx_eq.mp (h.symm.trans hfind)
      have hidx : l.idxOf x = i := hidx
      rw [hidx]
      obtain ⟨_, -, hbefore⟩ := List.findIdx?_eq_some_iff_getElem.mp hfind
      by_contra hlt
      have hmem := hbefore (l.idxOf e) (by omega)
      rw [List.getElem_idxOf] at hmem
      exact hmem (decide_eq_true hsame)
  · intro h
    by_cases hx : x ∈ l
    · obtain ⟨i, hi⟩ : ∃ i, l.idxOf? x = some i := by
        cases hi : l.idxOf? x with
        | none => exact absurd hx (List.idxOf?_eq_none_iff.mp hi)
        | some i => exact ⟨i, rfl⟩
      obtain ⟨hlt, hidx⟩ := List.findIdx?_eq_some_iff_findIdx_eq.mp hi
      have hidx : l.idxOf x = i := hidx
      have hget : l[i] = x := by
        simp only [← hidx, List.getElem_idxOf]
      rw [hi, List.findIdx?_eq_some_iff_getElem]
      refine ⟨hlt, by rw [hget]; exact decide_eq_true rfl, fun j hj hsame => ?_⟩
      have hfirst := h _ (List.getElem_mem (by omega)) (of_decide_eq_true hsame)
      have hle : l.idxOf l[j] ≤ j := by
        by_contra hlt
        have := List.not_of_lt_findIdx (Nat.not_le.mp hlt)
        rw [beq_self_eq_true] at this
        cases this
      omega
    · -- no integer has the number
      rw [List.idxOf?_eq_none_iff.mpr hx, List.findIdx?_eq_none_iff]
      intro e he
      apply decide_eq_false
      intro hsame
      have hfirst := h e he hsame
      rw [List.idxOf_eq_length hx] at hfirst
      have := List.idxOf_lt_length_iff.mpr he
      omega

theorem indexExact_iff (host : Host) (l : IntItems) (x : Int64) :
    IndexExact host l x ↔ FirstOfNumber l x := by
  have hrun : pureBuiltin host .indexOf [.list (ints l), .int x] =
      .ok (.int (((ints l).findIdx? (sameNumber (.int x))).elim (-1) Int64.ofNat)) :=
    indexOf_eq host _ _
  have hmap : (ints l).findIdx? (sameNumber (.int x)) =
      l.1.findIdx? fun e => decide (approx e = approx x) := by
    rw [ints, List.findIdx?_map]
    congr 1
    funext e
    exact sameNumber_int x e
  rw [IndexExact, hrun, hmap, List.idxOf?, Outcome.ok.injEq, Value.int.injEq,
    position_inj l.2]
  exact findIdx?_eq_idxOf? l.1 x

/-! ## Conversions -/

/-- `int(n)` is the integer. -/
def IntExact (host : Host) (n : Int64) : Prop := pureBuiltin host .int [.int n] = .ok (.int n)

/-- `round(n)` is the integer. -/
def RoundExact (host : Host) (n : Int64) : Prop :=
  pureBuiltin host .round [.int n] = .ok (.int n)

theorem approx_le (n : Int64) : approx n ≤ 2 ^ 63 := by
  have hmono := nearest_mono (show n.toInt ≤ 2 ^ 63 by have := n.toInt_lt; omega)
  rwa [(nearest_two_pow 63).1] at hmono

theorem neg_le_approx (n : Int64) : -2 ^ 63 ≤ approx n := by
  have hmono := nearest_mono n.le_toInt
  rwa [(nearest_two_pow 63).2] at hmono

theorem eq_maxValue_iff (n : Int64) : n = Int64.maxValue ↔ n.toInt = 2 ^ 63 - 1 := by
  rw [← Int64.toInt_inj]
  rfl

theorem intExact_iff (host : Host) (n : Int64) :
    IntExact host n ↔ approx n = n.toInt ∨ n = Int64.maxValue := by
  obtain ⟨hfin, hscaled⟩ := ofInt_toInt n
  have hrun : pureBuiltin host .int [.int n] = .ok (.int (ofInt n.toInt).toI64) := rfl
  have hlow := neg_le_approx n
  have hhigh := approx_le n
  have htop : n.toInt = 2 ^ 63 - 1 → approx n = 2 ^ 63 := by
    intro h
    rw [approx, h, nearest_maxValue]
  have hlt := n.toInt_lt
  rw [IntExact, hrun, Outcome.ok.injEq, Value.int.injEq, ← Int64.toInt_inj,
    toI64_of_mul hfin hscaled, eq_maxValue_iff, saturate]
  -- only `2^63` is beyond the range
  split_ifs <;> omega

/-! ### Rounding half up -/

/-- The integer that `round` takes for a magnitude: odd numbers of 53 bits go up. -/
def halfUp (x : ℕ) : ℕ := if 2 ^ 52 < x ∧ x < 2 ^ 53 ∧ x % 2 = 1 then x + 1 else x

/-- A half is added and cut off. -/
theorem add_half {x : Binary64} {k : ℕ} (hx : x.isFinite = true)
    (hs : x.scaled = (k : ℤ) * 2 ^ 1074) (hk : rnd k = k) (hle : k ≤ 2 ^ 63) :
    (Binary64.add x ⟨0x3fe0000000000000⟩).toI64.toInt = saturate (halfUp k : ℤ) := by
  have hhalf : (⟨0x3fe0000000000000⟩ : Binary64).isFinite = true ∧
      (⟨0x3fe0000000000000⟩ : Binary64).scaled = 2 ^ 1073 :=
    ofFields_two_pow false (e := 1021) (by decide)
  have hsum : x.scaled + (⟨0x3fe0000000000000⟩ : Binary64).scaled =
      ((2 * k + 1 : ℕ) : ℤ) * 2 ^ 1073 := by
    rw [hs, hhalf.2, pow_succ]
    push_cast
    ring
  have hsmall : (x.scaled + (⟨0x3fe0000000000000⟩ : Binary64).scaled).natAbs < 2 ^ 2000 := by
    rw [hsum, natAbs_mul_two_pow, Int.natAbs_natCast]
    calc (2 * k + 1) * 2 ^ 1073 < 2 ^ 65 * 2 ^ 1073 :=
          Nat.mul_lt_mul_of_pos_right (by omega) (Nat.two_pow_pos _)
      _ ≤ 2 ^ 2000 := by
        rw [← Nat.pow_add]
        exact Nat.pow_le_pow_right (by decide) (by decide)
  obtain ⟨hfin, hscaled⟩ := add_eq hx hhalf.1 hsmall
  have hnearest : nearest ((2 * k + 1 : ℕ) : ℤ) = rnd (2 * k + 1) := by
    rw [nearest, if_neg (by omega), Int.natAbs_natCast]
  have hcut : ((rnd (2 * k + 1) : ℤ) * 2 ^ 1073).tdiv (2 ^ 1074) = (halfUp k : ℤ) := by
    rw [pow_succ (2 : ℤ) 1073, Int.mul_comm _ (2 ^ 1073),
      Int.mul_tdiv_mul_of_pos _ _ (Int.pow_pos (by decide)),
      Int.tdiv_eq_ediv_of_nonneg (Int.natCast_nonneg _), halfUp, ← rnd_half hk]
    rfl
  rw [toI64_eq hfin, hscaled, hsum, nearest_mul_two_pow, hnearest, hcut]

theorem nearest_natCast (k : ℕ) : nearest (k : ℤ) = rnd k := by
  rw [nearest, if_neg (by omega), Int.natAbs_natCast]

/-- The cut is a number of 53 bits again. -/
theorem nearest_halfUp {k : ℕ} (hk : rnd k = k) (hle : k ≤ 2 ^ 63) :
    nearest (saturate (halfUp k : ℤ)) = halfUp k := by
  rcases Nat.lt_or_eq_of_le hle with hlt | rfl
  · have hsat : saturate (halfUp k : ℤ) = halfUp k := by
      have hup : halfUp k < 2 ^ 63 := by
        unfold halfUp
        split_ifs <;> omega
      rw [saturate, if_neg (by omega), if_neg (by omega)]
    rw [hsat, nearest_natCast, halfUp]
    split_ifs with hodd
    · rw [rnd_of_le (by omega)]
    · rw [hk]
  · have hup : halfUp (2 ^ 63) = 2 ^ 63 := if_neg (by omega)
    have hsat : saturate ((2 ^ 63 : ℕ) : ℤ) = 2 ^ 63 - 1 := by
      rw [saturate, if_neg (by omega), if_pos (by omega)]
    rw [hup, hsat, nearest_maxValue]
    rfl

/-- What `round` does to an integer. -/
theorem round_int (n : Int64) :
    (roundHalfAway (ofInt n.toInt)).toI64.toInt =
      saturate (if n.toInt < 0 then -(halfUp (rnd n.toInt.natAbs) : ℤ)
        else halfUp (rnd n.toInt.natAbs)) := by
  obtain ⟨hfin, hscaled⟩ := ofInt_toInt n
  have hzero := zero_eq false
  have hle : Binary64.le (Binary64.zero false) (ofInt n.toInt) = decide (0 ≤ approx n) := by
    rw [le_eq hzero.1 hfin, hzero.2, hscaled]
    have := scaled_le (a := 0) (b := approx n)
    rw [Int.zero_mul] at this
    exact decide_eq_decide.mpr this
  have hk := rnd_rnd n.toInt.natAbs
  have hbound : rnd n.toInt.natAbs ≤ 2 ^ 63 := by
    have h1 := approx_le n
    have h2 := neg_le_approx n
    unfold approx nearest at h1 h2
    split_ifs at h1 h2 <;> omega
  rw [roundHalfAway, hle]
  have happrox : approx n = if n.toInt < 0 then -(rnd n.toInt.natAbs : ℤ)
      else rnd n.toInt.natAbs := rfl
  by_cases hneg : n.toInt < 0
  · have hpos : rnd n.toInt.natAbs ≠ 0 := fun h => by
      have := rnd_eq_zero.mp h
      omega
    rw [if_pos hneg] at happrox ⊢
    rw [if_neg (by simp only [happrox, decide_eq_true_eq]; omega)]
    obtain ⟨hnegFin, hnegScaled⟩ := neg_eq (ofInt n.toInt)
    have hsum := add_half (hnegFin.trans hfin)
      (by rw [hnegScaled, hscaled, happrox, Int.neg_mul, Int.neg_neg]) hk hbound
    obtain ⟨hfin', hscaled'⟩ :=
      ofInt_toInt (Binary64.add (ofInt n.toInt).neg ⟨0x3fe0000000000000⟩).toI64
    obtain ⟨hnegFin', hnegScaled'⟩ :=
      neg_eq (ofInt (Binary64.add (ofInt n.toInt).neg ⟨0x3fe0000000000000⟩).toI64.toInt)
    apply toI64_of_mul (hnegFin'.trans hfin')
    rw [hnegScaled', hscaled', approx, hsum, nearest_halfUp hk hbound, Int.neg_mul]
  · rw [if_neg hneg] at happrox ⊢
    rw [if_pos (by simp only [happrox, decide_eq_true_eq]; omega)]
    have hsum := add_half hfin (by rw [hscaled, happrox]) hk hbound
    obtain ⟨hfin', hscaled'⟩ :=
      ofInt_toInt (Binary64.add (ofInt n.toInt) ⟨0x3fe0000000000000⟩).toI64
    apply toI64_of_mul hfin'
    rw [hscaled', approx, hsum, nearest_halfUp hk hbound]

/-! ### When a conversion is exact -/

/-- An odd integer of 53 bits that is not of 52. -/
def OddLast (n : Int64) : Prop :=
  2 ^ 52 < n.toInt.natAbs ∧ n.toInt.natAbs < 2 ^ 53 ∧ n.toInt.natAbs % 2 = 1

theorem roundExact_iff (host : Host) (n : Int64) :
    RoundExact host n ↔ (approx n = n.toInt ∧ ¬ OddLast n) ∨ n = Int64.maxValue := by
  have hrun : pureBuiltin host .round [.int n] =
      .ok (.int (roundHalfAway (ofInt n.toInt)).toI64) := rfl
  rw [RoundExact, hrun, Outcome.ok.injEq, Value.int.injEq, ← Int64.toInt_inj, round_int,
    eq_maxValue_iff]
  have hlow := n.le_toInt
  have hhigh := n.toInt_lt
  have happroxLow := neg_le_approx n
  have happroxHigh := approx_le n
  have htop : n.toInt = 2 ^ 63 - 1 → approx n = 2 ^ 63 := by
    intro h
    rw [approx, h, nearest_maxValue]
  have happrox : approx n = if n.toInt < 0 then -(rnd n.toInt.natAbs : ℤ)
      else rnd n.toInt.natAbs := rfl
  by_cases hodd : OddLast n
  · -- the number of the integer is exact, and moves
    have hrnd : rnd n.toInt.natAbs = n.toInt.natAbs := rnd_of_lt hodd.2.1
    have hup : halfUp n.toInt.natAbs = n.toInt.natAbs + 1 := if_pos hodd
    rw [hrnd, hup]
    have h1 := hodd.1
    have h2 := hodd.2.1
    refine iff_of_false (fun h => ?_) ?_
    · unfold saturate at h
      split_ifs at h <;> omega
    · rintro (⟨-, h⟩ | h)
      · exact h hodd
      · omega
  · have hup : halfUp (rnd n.toInt.natAbs) = rnd n.toInt.natAbs := by
      apply if_neg
      intro h
      rcases Nat.lt_or_ge n.toInt.natAbs (2 ^ 53) with hlt | hge
      · rw [rnd_of_lt hlt] at h
        exact hodd h
      · have := rnd_mono hge
        rw [rnd_of_le (n := 2 ^ 53) le_rfl] at this
        omega
    rw [hup, ← happrox, saturate]
    simp only [hodd, not_false_eq_true, and_true]
    clear happrox
    split_ifs <;> omega

/-- **When integers are exact**: the comparisons, for two integers that have different
binary64 numbers or are equal; the extrema, for a list where none with the number of the
extremum stands before it; the lookups, in the same way; and the conversions, for an
integer that is its number, `round` also not for the odd ones of 53 bits. -/
theorem integers_exact_iff (host : Host) :
    (∀ a b, ComparesExactly a b ↔ (approx a = approx b → a = b)) ∧
      (∀ l, MinExact host l ↔ ∀ m, IsMinOf l m → FirstOfNumber l m) ∧
      (∀ l, MaxExact host l ↔ ∀ m, IsMaxOf l m → FirstOfNumber l m) ∧
      (∀ l x, ContainsExact host l x ↔ ((∃ e ∈ l, approx e = approx x) → x ∈ l)) ∧
      (∀ l : IntItems, ∀ x, IndexExact host l x ↔ FirstOfNumber l x) ∧
      (∀ n, IntExact host n ↔ approx n = n.toInt ∨ n = Int64.maxValue) ∧
      ∀ n, RoundExact host n ↔ (approx n = n.toInt ∧ ¬ OddLast n) ∨ n = Int64.maxValue :=
  ⟨comparesExactly_iff, minExact_iff host, maxExact_iff host, containsExact_iff host,
    indexExact_iff host, intExact_iff host, roundExact_iff host⟩

/-- **Two integers with one number**: `9007199254740993` compares equal to the integer
before it and is found in a list of that integer, `min` returns it for the smaller one,
`int` returns the smaller one for it; and `round` moves `4503599627370497`. -/
theorem integers_collide : ¬ ComparesExactly 9007199254740993 9007199254740992 ∧
    ¬ MinExact emptyHost [9007199254740993, 9007199254740992] ∧
    ¬ ContainsExact emptyHost [9007199254740992] 9007199254740993 ∧
    ¬ IndexExact emptyHost ⟨[9007199254740992], by decide⟩ 9007199254740993 ∧
    ¬ IntExact emptyHost 9007199254740993 ∧ ¬ RoundExact emptyHost 4503599627370497 := by
  refine ⟨fun h => ?_, fun h => ?_, ?_, ?_, ?_, ?_⟩
  · have heq := h .eq
    revert heq
    decide +kernel
  · have hle : ∀ e ∈ [(9007199254740993 : Int64), 9007199254740992],
        (9007199254740992 : Int64).toInt ≤ e.toInt :=
      List.forall_mem_cons.mpr ⟨by decide +kernel, List.forall_mem_singleton.mpr (Int.le_refl _)⟩
    have hmin := (h 9007199254740992 ⟨by decide, hle⟩).1
    revert hmin
    decide +kernel
  · unfold ContainsExact
    decide +kernel
  · unfold IndexExact
    decide +kernel
  · unfold IntExact
    decide +kernel
  · unfold RoundExact
    decide +kernel

end Eval
