/-
# Quantization over exact numbers

`quantize` and `matmul` with the rationals in place of `f32`: arithmetic, comparisons and
rounding are exact, the other operations are whatever they are.

`quantize` gives integers within 127, and each of them times the scale of its group is
within half a scale of the number it stands for.  A row of `matmul` is then the sum of the
dequantized weights times the dequantized activations, and the `i32` sum of a group does not
overflow while `gs * 127 * 128` fits (`quantized_exact`).
-/
import Mathlib.Algebra.BigOperators.Intervals
import Mathlib.Algebra.BigOperators.Ring.Finset
import Mathlib.Data.Rat.Floor
import PySpell.Lib.SmallInt
import PySpell.CheckpointLayout
import PySpell.Transformer

open Checked SmallInt

namespace TinyLlm

/-- The rationals as numbers, with the operations of `rest` where they are not exact. -/
def FloatOps.exact (rest : FloatOps ℚ) : FloatOps ℚ :=
  { rest with
    lit := fun x => x
    add := fun a b => a + b
    sub := fun a b => a - b
    mul := fun a b => a * b
    div := fun a b => a / b
    neg := fun a => -a
    lt := fun a b => decide (a < b)
    eq := fun a b => decide (a = b)
    abs := fun a => |a|
    round := fun a => roundAway a
    floor := fun a => ⌊a⌋
    ofInt := fun n => n
    toI8 := fun a => toInt8 a }

variable (rest : FloatOps ℚ) {M : Machine}

/-! ## Values and scales -/

/-- The quantized value `a` with the scale `c` stands for `v`. -/
def StandsFor (c v : ℚ) (a : Int8) : Prop := |a.toInt| ≤ 127 ∧ |(a.toInt : ℚ) * c - v| ≤ c / 2

/-- **A number within 127 scales** gets a value that stands for it. -/
theorem quantized_standsFor {c v : ℚ} (h : |v| ≤ 127 * c) :
    StandsFor c v (quantized rest.exact c v) := by
  have hc : 0 ≤ c := by
    have := abs_nonneg v
    linarith
  rcases hc.eq_or_lt with rfl | hpos
  · -- an all-zero group
    obtain rfl : v = 0 := by
      rw [mul_zero] at h
      exact abs_nonpos_iff.mp h
    have hzero : quantized rest.exact 0 0 = 0 := rfl
    rw [hzero, StandsFor]
    simp
  · have hle : |v / c| ≤ (127 : ℕ) := by
      rw [abs_div, abs_of_pos hpos, div_le_iff₀ hpos]
      exact h
    have hround : |roundAway (v / c)| ≤ 127 := abs_roundAway_le hle
    have hvalue : (quantized rest.exact c v).toInt = roundAway (v / c) := by
      have hne : ¬ rest.exact.eq c (rest.exact.lit 0) = true := by
        change ¬ decide (c = 0) = true
        rw [decide_eq_true_eq]
        exact hpos.ne'
      rw [quantized, if_neg hne]
      exact toInt_toInt8 hround
    rw [StandsFor, hvalue]
    exact ⟨hround, abs_roundAway_mul_sub_le hpos v⟩

/-- The largest absolute value of a group bounds the group. -/
theorem quantizeMax_exact {x : List ℚ} {base gs : ℕ} (h : base + gs ≤ x.length)
    (hx : x.length < 2 ^ M.width) :
    ∃ w, quantizeMax rest.exact M x base gs = some w ∧
      0 ≤ w ∧ ∀ k < gs, ∀ v, x[base + k]? = some v → |v| ≤ w := by
  refine exists_upTo (fun k w => 0 ≤ w ∧ ∀ j < k, ∀ v, x[base + j]? = some v → |v| ≤ w)
    (fun k hk w hw => ?_) ⟨le_rfl, fun _ hj => absurd hj (Nat.not_lt_zero _)⟩
  have hget : x[base + k]? = some x[base + k] := List.getElem?_eq_getElem (by omega)
  refine ⟨max w |x[base + k]|, ?_, hw.1.trans (le_max_left _ _), ?_⟩
  · refine bind_eq_of_some (Machine.add_of_lt (by omega)) (bind_eq_of_some hget ?_)
    change some (if decide (w < |x[base + k]|) = true then |x[base + k]| else w) = _
    rw [max_def_lt]
    simp only [decide_eq_true_eq]
  · intro j hj v hv
    rcases Nat.lt_succ_iff_lt_or_eq.mp hj with hj | rfl
    · exact (hw.2 j hj v hv).trans (le_max_left _ _)
    · rw [hget] at hv
      obtain rfl := Option.some.inj hv
      exact le_max_right _ _

/-- What the first groups of `x` were turned into: value and scale stand for the number. -/
def Quantizes (x : List ℚ) (gs n : ℕ) (q : List Int8) (s : List ℚ) : Prop :=
  ∀ i < n, ∀ v, x[i]? = some v → ∃ a c, q[i]? = some a ∧ s[i / gs]? = some c ∧ StandsFor c v a

/-- The values of a group are written, and no others. -/
theorem writeGroup_exact {x : List ℚ} {base gs : ℕ} {c : ℚ} (h : base + gs ≤ x.length)
    (hx : x.length < 2 ^ M.width) {q : List Int8} (hq : x.length ≤ q.length) :
    ∃ q', upTo (fun k q => do
        let i ← M.add base k
        let v ← x[i]?
        setAt q i (quantized rest.exact c v)) gs q = some q' ∧
      q'.length = q.length ∧ (∀ i < base, q'[i]? = q[i]?) ∧
      ∀ k < gs, ∀ v, x[base + k]? = some v → q'[base + k]? = some (quantized rest.exact c v) := by
  refine exists_upTo (fun k q' => q'.length = q.length ∧ (∀ i < base, q'[i]? = q[i]?) ∧
    ∀ j < k, ∀ v, x[base + j]? = some v → q'[base + j]? = some (quantized rest.exact c v))
    (fun k hk q' hq' => ?_) ⟨rfl, fun _ _ => rfl, fun _ hj => absurd hj (Nat.not_lt_zero _)⟩
  obtain ⟨hlen, hbelow, hgroup⟩ := hq'
  have hget : x[base + k]? = some x[base + k] := List.getElem?_eq_getElem (by omega)
  refine ⟨q'.set (base + k) (quantized rest.exact c x[base + k]), ?_, ?_, ?_, ?_⟩
  · refine bind_eq_of_some (Machine.add_of_lt (by omega)) (bind_eq_of_some hget ?_)
    exact if_pos (by omega)
  · rw [List.length_set, hlen]
  · intro i hi
    rw [List.getElem?_set_ne (by omega)]
    exact hbelow i hi
  · intro j hj v hv
    rcases Nat.lt_succ_iff_lt_or_eq.mp hj with hj | rfl
    · rw [List.getElem?_set_ne (by omega)]
      exact hgroup j hj v hv
    · rw [hget] at hv
      obtain rfl := Option.some.inj hv
      exact List.getElem?_set_self (by omega)

/-- **One group**: the groups before it keep their values and scales. -/
theorem quantizeGroup_exact {x : List ℚ} {gs g : ℕ} (hgs : 0 < gs)
    (hg : (g + 1) * gs ≤ x.length) (hx : x.length < 2 ^ M.width) {q : List Int8} {s : List ℚ}
    (hq : x.length ≤ q.length) (hs : g < s.length) (h : Quantizes x gs (g * gs) q s) :
    ∃ q' s', quantizeGroup rest.exact M x gs g (q, s) = some (q', s') ∧ q'.length = q.length ∧
      s'.length = s.length ∧ Quantizes x gs ((g + 1) * gs) q' s' := by
  rw [Nat.add_one_mul] at hg
  obtain ⟨w, hw, hpos, hmax⟩ := quantizeMax_exact rest hg hx
  obtain ⟨q', hq', hlen, hbelow, hgroup⟩ :=
    writeGroup_exact rest (c := w / 127) hg hx hq
  refine ⟨q', s.set g (w / 127), ?_, hlen, List.length_set, ?_⟩
  · refine bind_eq_of_some (Machine.mul_of_lt (by omega)) (bind_eq_of_some hw ?_)
    exact bind_eq_of_some (if_pos hs) (bind_eq_of_some hq' rfl)
  · intro i hi v hv
    by_cases hold : i < g * gs
    · obtain ⟨a, c, ha, hc, hstands⟩ := h i hold v hv
      have hne : g ≠ i / gs := by
        have := (Nat.div_lt_iff_lt_mul hgs).mpr hold
        omega
      exact ⟨a, c, by rw [hbelow i hold, ha], by rw [List.getElem?_set_ne hne, hc], hstands⟩
    · obtain ⟨k, rfl⟩ := Nat.exists_eq_add_of_le (Nat.le_of_not_lt hold)
      have hk : k < gs := by
        rw [Nat.add_one_mul] at hi
        omega
      have hdiv : (g * gs + k) / gs = g := by
        rw [Nat.mul_comm, Nat.mul_add_div hgs, Nat.div_eq_of_lt hk, Nat.add_zero]
      refine ⟨_, w / 127, hgroup k hk v hv, ?_, quantized_standsFor rest ?_⟩
      · rw [hdiv]
        exact List.getElem?_set_self hs
      · rw [mul_div_cancel₀]
        · exact hmax k hk v hv
        · norm_num

/-- **`quantize`**: every value stands for its number. -/
theorem quantize_exact {x : List ℚ} {gs : ℕ} (hgs : 0 < gs) (hdvd : gs ∣ x.length)
    (hx : x.length < 2 ^ M.width) {q : List Int8} {s : List ℚ} (hq : x.length ≤ q.length)
    (hs : x.length / gs ≤ s.length) :
    ∃ q' s', quantize rest.exact M q s x gs = some (q', s') ∧ q'.length = q.length ∧
      s'.length = s.length ∧ Quantizes x gs x.length q' s' := by
  obtain ⟨p, hp, hlenq, hlens, hquant⟩ : ∃ p,
      upTo (quantizeGroup rest.exact M x gs) (x.length / gs) (q, s) = some p ∧
        p.1.length = q.length ∧ p.2.length = s.length ∧
        Quantizes x gs (x.length / gs * gs) p.1 p.2 := by
    refine exists_upTo (fun g (p : List Int8 × List ℚ) => p.1.length = q.length ∧
      p.2.length = s.length ∧ Quantizes x gs (g * gs) p.1 p.2) (fun g hg p hp => ?_)
      ⟨rfl, rfl, fun i hi => absurd hi (by omega)⟩
    obtain ⟨hlenq, hlens, hquant⟩ := hp
    have hle : (g + 1) * gs ≤ x.length :=
      (Nat.mul_le_mul_right gs hg).trans (Nat.div_mul_le_self _ _)
    obtain ⟨q', s', hround, hq', hs', hquant'⟩ := quantizeGroup_exact rest hgs hle hx
      (hq.trans_eq hlenq.symm) (by omega) hquant
    exact ⟨(q', s'), hround, hq'.trans hlenq, hs'.trans hlens, hquant'⟩
  rw [Nat.div_mul_cancel hdvd] at hquant
  exact ⟨p.1, p.2, bind_eq_of_some (if_neg hgs.ne') hp, hlenq, hlens, hquant⟩

/-! ## Products -/

/-- The scale of a group of weights. -/
def QTensor.groupScale (ops : FloatOps ℚ) (w : QTensor) (g : ℕ) : ℚ :=
  ops.ofBits (UInt32.ofNat (Bytes.toNat (Bytes.slice w.s (g * 4) 4)))

/-- A dequantized weight. -/
def QTensor.weight (ops : FloatOps ℚ) (w : QTensor) (gs i : ℕ) : ℚ :=
  ((w.q.getD i 0).toInt8.toInt : ℚ) * w.groupScale ops (i / gs)

/-- A dequantized activation. -/
def activation (xq : List Int8) (xs : List ℚ) (gs i : ℕ) : ℚ :=
  ((xq.getD i 0).toInt : ℚ) * xs.getD (i / gs) 0

theorem getElem?_eq_getD {α : Type} {l : List α} {i : ℕ} (h : i < l.length) (d : α) :
    l[i]? = some (l.getD i d) := by
  rw [List.getD_eq_getElem?_getD, List.getElem?_eq_getElem h, Option.getD_some]

theorem qi_eq {w : QTensor} {i : ℕ} (h : i < w.q.length) :
    w.qi i = some (w.q.getD i 0).toInt8.toInt :=
  bind_eq_of_some (getElem?_eq_getD h 0) rfl

theorem scale_eq {w : QTensor} {ops : FloatOps ℚ} {g : ℕ} (h : g * 4 + 4 ≤ w.s.length)
    (hfits : w.s.length < 2 ^ M.width) : w.scale M ops g = some (w.groupScale ops g) :=
  bind_eq_of_some (Machine.mul_of_lt (by omega)) (bind_eq_of_some (rdU32_eq h) rfl)

/-- The product of a value of `quantize` and a weight. -/
theorem abs_value_mul_weight_le {a : Int8} (ha : |a.toInt| ≤ 127) (b : Int8) :
    |a.toInt * b.toInt| ≤ 127 * 128 := by
  have hb : |b.toInt| ≤ 128 := abs_le.mpr ⟨b.le_toInt, b.toInt_lt.le⟩
  rw [abs_mul]
  exact mul_le_mul ha hb (abs_nonneg _) (by norm_num)

/-- **The sum of a group** stays within an `i32`. -/
theorem groupProduct_exact {xq : List Int8} {w : QTensor} {row j gs : ℕ}
    (hbound : gs * 127 * 128 < 2 ^ 31) (hvalues : ∀ a ∈ xq, |a.toInt| ≤ 127)
    (hxq : j + gs ≤ xq.length) (hfits : xq.length < 2 ^ M.width)
    (hw : row + j + gs ≤ w.q.length) (hwfits : w.q.length < 2 ^ M.width) :
    groupProduct M xq w row j gs = some (∑ k ∈ Finset.range gs,
      (xq.getD (j + k) 0).toInt * (w.q.getD (row + j + k) 0).toInt8.toInt) := by
  obtain ⟨ival, hrun, -, rfl⟩ : ∃ ival, groupProduct M xq w row j gs = some ival ∧
      |ival| ≤ (gs : ℤ) * (127 * 128) ∧ ival = ∑ k ∈ Finset.range gs,
        (xq.getD (j + k) 0).toInt * (w.q.getD (row + j + k) 0).toInt8.toInt := by
    refine exists_upTo (fun (k : ℕ) (ival : ℤ) => |ival| ≤ (k : ℤ) * (127 * 128) ∧
      ival = ∑ i ∈ Finset.range k,
        (xq.getD (j + i) 0).toInt * (w.q.getD (row + j + i) 0).toInt8.toInt)
      (fun k hk ival hival => ?_) ⟨by simp, rfl⟩
    obtain ⟨hle, hsum⟩ := hival
    have hget := getElem?_eq_getD (l := xq) (i := j + k) (by omega) 0
    have hproduct := abs_value_mul_weight_le (hvalues _ (List.mem_of_getElem? hget))
      (w.q.getD (row + j + k) 0).toInt8
    have hsmall : |ival + (xq.getD (j + k) 0).toInt *
        (w.q.getD (row + j + k) 0).toInt8.toInt| ≤ ((k + 1 : ℕ) : ℤ) * (127 * 128) := by
      refine (abs_add_le _ _).trans ?_
      push_cast
      omega
    refine ⟨_, ?_, hsmall, ?_⟩
    · refine bind_eq_of_some (Machine.add_of_lt (by omega)) (bind_eq_of_some hget ?_)
      refine bind_eq_of_some (Machine.add_of_lt (by omega)) ?_
      refine bind_eq_of_some (Machine.add_of_lt (by omega)) ?_
      refine bind_eq_of_some (qi_eq (by omega)) (if_pos ?_)
      rw [abs_le] at hsmall
      push_cast at hsmall
      omega
    · rw [Finset.sum_range_succ, ← hsum]
  exact hrun

/-- Within a group that starts at a multiple of its size there is one scale. -/
theorem add_div_of_dvd {gs i k : ℕ} (hgs : 0 < gs) (hi : gs ∣ i) (hk : k < gs) :
    (i + k) / gs = i / gs := by
  obtain ⟨m, rfl⟩ := hi
  rw [Nat.mul_add_div hgs, Nat.div_eq_of_lt hk, Nat.mul_div_cancel_left m hgs, Nat.add_zero]

/-- **One group of a row**: the sum of its products, dequantized. -/
theorem matmulGroup_exact {xq : List Int8} {xs : List ℚ} {w : QTensor} {row j gs : ℕ}
    (hgs : 0 < gs) (hbound : gs * 127 * 128 < 2 ^ 31) (hvalues : ∀ a ∈ xq, |a.toInt| ≤ 127)
    (hrow : gs ∣ row) (hj : gs ∣ j) (hxq : j + gs ≤ xq.length) (hfits : xq.length < 2 ^ M.width)
    (hxs : j / gs < xs.length) (hw : row + j + gs ≤ w.q.length)
    (hwfits : w.q.length < 2 ^ M.width) (hws : (row + j) / gs * 4 + 4 ≤ w.s.length)
    (hwsfits : w.s.length < 2 ^ M.width) (val : ℚ) :
    matmulGroup rest.exact M xq xs w row gs j val = some (val + ∑ k ∈ Finset.range gs,
      w.weight rest.exact gs (row + (j + k)) * activation xq xs gs (j + k)) := by
  refine bind_eq_of_some
    (groupProduct_exact hbound hvalues hxq hfits hw hwfits) ?_
  refine bind_eq_of_some (Machine.add_of_lt (by omega)) (bind_eq_of_some (if_neg hgs.ne') ?_)
  refine bind_eq_of_some (scale_eq hws hwsfits) (bind_eq_of_some (if_neg hgs.ne') ?_)
  refine bind_eq_of_some (getElem?_eq_getD hxs 0) ?_
  congr 1
  change val + ((∑ k ∈ Finset.range gs, (xq.getD (j + k) 0).toInt *
    (w.q.getD (row + j + k) 0).toInt8.toInt : ℤ) : ℚ) * w.groupScale rest.exact ((row + j) / gs) *
      xs.getD (j / gs) 0 = _
  congr 1
  rw [Int.cast_sum, Finset.sum_mul, Finset.sum_mul]
  refine Finset.sum_congr rfl fun k hk => ?_
  rw [Finset.mem_range] at hk
  rw [QTensor.weight, activation, ← Nat.add_assoc, add_div_of_dvd hgs (hrow.add hj) hk,
    add_div_of_dvd hgs hj hk, Int.cast_mul]
  ring

/-- The groups of a row, one after the other. -/
theorem row_exact {xq : List Int8} {xs : List ℚ} {w : QTensor} {row n gs : ℕ} (hgs : 0 < gs)
    (hbound : gs * 127 * 128 < 2 ^ 31) (hvalues : ∀ a ∈ xq, |a.toInt| ≤ 127)
    (hdvd : gs ∣ n) (hrow : gs ∣ row) (hxq : xq.length = n) (hfits : xq.length < 2 ^ M.width)
    (hxs : n / gs ≤ xs.length) (hw : row + n ≤ w.q.length) (hwfits : w.q.length < 2 ^ M.width)
    (hws : (row + n) / gs * 4 ≤ w.s.length) (hwsfits : w.s.length < 2 ^ M.width) :
    whileBelow M n gs (matmulGroup rest.exact M xq xs w row gs) (n + 1) 0 0 =
      some (∑ k ∈ Finset.range n, w.weight rest.exact gs (row + k) * activation xq xs gs k) := by
  obtain ⟨val, hrun, rfl⟩ : ∃ val, whileBelow M n gs (matmulGroup rest.exact M xq xs w row gs)
      (n + 1) 0 0 = some val ∧ val = ∑ k ∈ Finset.range (n / gs * gs),
        w.weight rest.exact gs (row + k) * activation xq xs gs k := by
    refine exists_whileBelow (fun t val => val = ∑ k ∈ Finset.range (t * gs),
      w.weight rest.exact gs (row + k) * activation xq xs gs k) hgs hdvd (by omega)
      (fun t ht val hval => ?_) (by rw [Nat.zero_mul, Finset.sum_range_zero])
    have hstep : t * gs + gs ≤ n := by
      rw [← Nat.add_one_mul]
      exact (Nat.mul_le_mul_right gs ht).trans (Nat.div_mul_le_self n gs)
    have hgroups : (row + t * gs) / gs < (row + n) / gs :=
      Nat.div_lt_div_of_lt_of_dvd (hrow.add hdvd) (by omega)
    have hactivations : t * gs / gs < n / gs := Nat.div_lt_div_of_lt_of_dvd hdvd (by omega)
    refine ⟨_, matmulGroup_exact rest hgs hbound hvalues hrow (Nat.dvd_mul_left gs t) (by omega)
      hfits (by omega) (by omega) hwfits (by omega) hwsfits val, ?_⟩
    rw [hval, Nat.add_one_mul, Finset.sum_range_add]
  rw [hrun, Nat.div_mul_cancel hdvd]

/-- **`matmul`**: every row is the sum of the dequantized products. -/
theorem matmul_exact {out xs : List ℚ} {xq : List Int8} {w : QTensor} {n d gs : ℕ} (hgs : 0 < gs)
    (hbound : gs * 127 * 128 < 2 ^ 31) (hvalues : ∀ a ∈ xq, |a.toInt| ≤ 127)
    (hdvd : gs ∣ n) (hxq : xq.length = n) (hfits : xq.length < 2 ^ M.width)
    (hxs : n / gs ≤ xs.length) (hw : d * n ≤ w.q.length) (hwfits : w.q.length < 2 ^ M.width)
    (hws : d * n / gs * 4 ≤ w.s.length) (hwsfits : w.s.length < 2 ^ M.width)
    (hout : out.length = d) :
    matmul rest.exact M out xq xs w n d gs = some ((List.range d).map fun i =>
      ∑ k ∈ Finset.range n, w.weight rest.exact gs (i * n + k) * activation xq xs gs k) := by
  refine upTo_eq_map (fun i hi ys hys => ?_) hout
  have hle : i * n + n ≤ d * n := by
    rw [← Nat.add_one_mul]
    exact Nat.mul_le_mul_right n hi
  have hgroups : (i * n + n) / gs ≤ d * n / gs := Nat.div_le_div_right hle
  refine bind_eq_of_some (Machine.mul_of_lt (by omega)) ?_
  refine bind_eq_of_some (row_exact rest hgs hbound hvalues hdvd (hdvd.mul_left i) hxq hfits hxs
    (by omega) hwfits (by omega) hwsfits) ?_
  exact if_pos (by omega)

/-! ## The two together -/

/-- **Quantization over exact numbers**: every value of `quantize` is within 127 and stands
for its number up to half the scale of its group; and every row of `matmul` is the sum of
dequantized weights times dequantized activations, without an overflow of the sum of a
group. -/
theorem quantized_exact (rest : FloatOps ℚ) (M : Machine) {gs : ℕ} (hgs : 0 < gs) :
    (∀ (x s : List ℚ) (q : List Int8), gs ∣ x.length → x.length < 2 ^ M.width →
      x.length ≤ q.length → x.length / gs ≤ s.length →
      ∃ q' s', quantize rest.exact M q s x gs = some (q', s') ∧
        q'.length = q.length ∧ s'.length = s.length ∧
        ∀ i < x.length, ∀ v, x[i]? = some v → ∃ a c, q'[i]? = some a ∧ s'[i / gs]? = some c ∧
          |a.toInt| ≤ 127 ∧ |(a.toInt : ℚ) * c - v| ≤ c / 2) ∧
    (∀ (out xs : List ℚ) (xq : List Int8) (w : QTensor) (n d : ℕ), gs * 127 * 128 < 2 ^ 31 →
      (∀ a ∈ xq, |a.toInt| ≤ 127) → gs ∣ n → xq.length = n → n / gs ≤ xs.length →
      d * n ≤ w.q.length → d * n / gs * 4 ≤ w.s.length → out.length = d →
      xq.length < 2 ^ M.width → w.q.length < 2 ^ M.width → w.s.length < 2 ^ M.width →
      matmul rest.exact M out xq xs w n d gs = some ((List.range d).map fun i =>
        ∑ k ∈ Finset.range n, w.weight rest.exact gs (i * n + k) * activation xq xs gs k)) := by
  constructor
  · intro x s q hdvd hx hq hs
    exact quantize_exact rest hgs hdvd hx hq hs
  · intro out xs xq w n d hbound hvalues hdvd hxq hxs hw hws hout hfits hwfits hwsfits
    exact matmul_exact rest hgs hbound hvalues hdvd hxq hfits hxs hw hwfits hws hwsfits hout

/-- The number that a word is as an `f32`, if it is one. -/
def f32Value (u : UInt32) : ℚ :=
  let m : ℕ := u.toNat % 2 ^ 23
  let e : ℕ := u.toNat / 2 ^ 23 % 2 ^ 8
  (if u.toNat < 2 ^ 31 then 1 else -1) *
    (if e = 0 then (m : ℚ) / 2 ^ 149 else (2 ^ 23 + m : ℚ) * 2 ^ e / 2 ^ 150)

/-- Numbers that are read from `f32` words; what is exact is left to `FloatOps.exact`. -/
def wordOps : FloatOps ℚ where
  lit := fun x => x
  add := fun _ _ => 0
  sub := fun _ _ => 0
  mul := fun _ _ => 0
  div := fun _ _ => 0
  neg := fun _ => 0
  lt := fun _ _ => false
  eq := fun _ _ => false
  abs := fun _ => 0
  sign := fun _ => 0
  round := fun _ => 0
  floor := fun _ => 0
  sqrt := fun _ => 0
  exp := fun _ => 0
  pow := fun _ _ => 0
  cos := fun _ => 0
  sin := fun _ => 0
  ofInt := fun _ => 0
  toI8 := fun _ => 0
  ofBits := f32Value
  toBits := fun _ => 0

/-- Two numbers, and a row of two weights with the scale `1`. -/
theorem quantized_exact_pair :
    (∃ q' s', quantize wordOps.exact usize32 [0, 0] [0] [1, -3 / 10] 2 = some (q', s') ∧
      q'.length = 2 ∧ s'.length = 1 ∧
      ∀ i < 2, ∀ v, ([1, -3 / 10] : List ℚ)[i]? = some v → ∃ a c, q'[i]? = some a ∧
        s'[i / 2]? = some c ∧ |a.toInt| ≤ 127 ∧ |(a.toInt : ℚ) * c - v| ≤ c / 2) ∧
    matmul wordOps.exact usize32 [0] [127, -38] [1 / 127] ⟨[2, 255], [0, 0, 0x80, 0x3f]⟩ 2 1 2 =
      some ((List.range 1).map fun i => ∑ k ∈ Finset.range 2,
        QTensor.weight wordOps.exact ⟨[2, 255], [0, 0, 0x80, 0x3f]⟩ 2 (i * 2 + k) *
          activation [127, -38] [1 / 127] 2 k) :=
  ⟨(quantized_exact wordOps usize32 Nat.two_pos).1 [1, -3 / 10] [0] [0, 0] (by decide) (by decide)
      (by decide) (by decide),
    (quantized_exact wordOps usize32 Nat.two_pos).2 [0] [1 / 127] [127, -38]
      ⟨[2, 255], [0, 0, 0x80, 0x3f]⟩ 2 1 (by decide)
      (List.forall_mem_cons.mpr ⟨by decide, List.forall_mem_singleton.mpr (by decide)⟩)
      (by decide) rfl (by decide) (by decide) (by decide) rfl (by decide) (by decide) (by decide)⟩

end TinyLlm
