/-
# Sampling a token

`Sampler.sample` picks the next token from the logits: the largest one when the temperature
is zero, else one at random after `softmax`, from all tokens or from the nucleus of the
likeliest ones.  `sort_unstable_by` is an argument, any function that sorts (`SortsBy`).

Over exact numbers the nucleus is the shortest prefix of the probabilities in descending
order whose mass exceeds `topp`.  `sampleTopp` leaves out probabilities below a cutoff
before it sorts.  That never drops a part of the nucleus unless it drops everything, and
then the slice panics (`sampleTopp_iff`).
-/
import Mathlib.Algebra.BigOperators.Group.List.Basic
import PySpell.Lib.Nucleus
import PySpell.Quantization
import PySpell.TransformerSafe

open Checked Nucleus

namespace TinyLlm

variable {F : Type} (ops : FloatOps F)

/-! ## The generator of coins -/

/-- `Sampler`, without the scratch that it reuses. -/
structure Sampler (F : Type) where
  temperature : F
  topp : F
  rng : UInt64

namespace Sampler

def new (temperature topp : F) (seed : UInt64) : Sampler F :=
  { temperature, topp, rng := if seed = 0 then 1 else seed }

/-- `random_u32`: one step of xorshift. -/
def randomU32 (s : Sampler F) : UInt32 × Sampler F :=
  let rng := s.rng ^^^ (s.rng >>> 12)
  let rng := rng ^^^ (rng <<< 25)
  let rng := rng ^^^ (rng >>> 27)
  (((rng * 0x2545F4914F6CDD1D) >>> 32).toUInt32, { s with rng })

def randomF32 (s : Sampler F) : F × Sampler F :=
  let (u, s) := s.randomU32
  (ops.div (ops.ofInt (u >>> 8).toNat) (ops.lit 16777216), s)

end Sampler

/-! ## Picking an index -/

/-- `argmax`: the first of the largest, from minus infinity on. -/
def argmax (v : List F) : ℕ :=
  (v.zipIdx.foldl (fun (best, bestV) (x, i) => if ops.lt bestV x then (i, x) else (best, bestV))
    (0, ops.ofBits 0xff800000)).1

/-- The scan for the first item where the sum of the weights exceeds `r`. -/
def pickFrom (r : F) : F → List (ℕ × F) → Option ℕ
  | _, [] => none
  | cdf, (i, p) :: rest =>
    let cdf := ops.add cdf p
    if ops.lt r cdf then some i else pickFrom r cdf rest

/-- `probs.iter().enumerate()`. -/
def enumerate (probs : List F) : List (ℕ × F) := probs.zipIdx.map Prod.swap

/-- `sample_mult`: the last index, if there is one, when the scan ends. -/
def sampleMult (probs : List F) (coin : F) : Option ℕ :=
  match pickFrom ops coin (ops.lit 0) (enumerate probs) with
  | some i => some i
  | none => if probs.length = 0 then none else some (probs.length - 1)

/-- `a >= b`. -/
def ge (a b : F) : Bool := ops.lt b a || ops.eq a b

/-- `(1.0 - topp) / (n - 1.0)`. -/
def cutoff (topp : F) (n : ℕ) : F :=
  ops.div (ops.sub (ops.lit 1) topp) (ops.sub (ops.ofInt n) (ops.lit 1))

/-- The pre-filter. -/
def candidates (probs : List F) (topp : F) : List (ℕ × F) :=
  (enumerate probs).filter fun a => ge ops a.2 (cutoff ops topp probs.length)

/-- The comparison of the sort: descending, and equal what cannot be compared. -/
def byProb (a b : ℕ × F) : Ordering :=
  if ops.lt b.2 a.2 then .lt else if ops.lt a.2 b.2 then .gt else .eq

/-- What `sort_unstable_by` promises: the same items, sorted when that is possible. -/
structure SortsBy {α : Type} (cmp : α → α → Ordering) (sort : List α → List α) : Prop where
  perm : ∀ l, (sort l).Perm l
  sorted : Std.TransCmp cmp → ∀ l, (sort l).Pairwise fun a b => cmp a b ≠ .gt

/-- The loop that truncates: where the sum exceeds `topp`, and the sum. -/
def truncateAt (topp : F) (last : ℕ) : ℕ → F → List (ℕ × F) → ℕ × F
  | _, cumulative, [] => (last, cumulative)
  | i, cumulative, (_, p) :: rest =>
    let cumulative := ops.add cumulative p
    if ops.lt topp cumulative then (i, cumulative) else truncateAt topp last (i + 1) cumulative rest

variable (sort : List (ℕ × F) → List (ℕ × F))

/-- `sample_topp` up to the scan: the truncated candidates, and their sum. -/
def truncated (probs : List F) (topp : F) : Option (List (ℕ × F) × F) := do
  let probindex := sort (candidates ops probs topp)
  let (last, cumulative) := truncateAt ops topp (probindex.length - 1) 0 (ops.lit 0) probindex
  let nucleus ← slice probindex 0 (last + 1)
  some (nucleus, cumulative)

/-- `sample_topp`: the last truncated candidate when the scan ends. -/
def sampleTopp (probs : List F) (topp coin : F) : Option ℕ := do
  let (nucleus, cumulative) ← truncated ops sort probs topp
  let r := ops.mul coin cumulative
  match pickFrom ops r (ops.lit 0) nucleus with
  | some i => some i
  | none => nucleus.getLast?.map Prod.fst

/-- `sample`: the index, the logits as they are left, and the sampler. -/
def Sampler.sample (s : Sampler F) (logits : List F) :
    Option (ℕ × List F × Sampler F) :=
  if ops.eq s.temperature (ops.lit 0) then some (argmax ops logits, logits, s)
  else do
    let logits := softmax ops (logits.map fun v => ops.div v s.temperature)
    let (coin, s) := s.randomF32 ops
    let i ←
      if ge ops (ops.lit 0) s.topp || ge ops s.topp (ops.lit 1) then sampleMult ops logits coin
      else sampleTopp ops sort logits s.topp coin
    some (i, logits, s)

/-! ## The index is in range -/

section InRange

variable {ops}

theorem mem_enumerate {probs : List F} {i : ℕ} {p : F} :
    (i, p) ∈ enumerate probs ↔ probs[i]? = some p := by
  rw [enumerate, List.mem_map]
  constructor
  · rintro ⟨⟨q, j⟩, hmem, heq⟩
    obtain ⟨rfl, rfl⟩ := Prod.mk.inj heq
    exact List.mk_mem_zipIdx_iff_getElem?.mp hmem
  · intro h
    exact ⟨(p, i), List.mk_mem_zipIdx_iff_getElem?.mpr h, rfl⟩

theorem lt_of_mem_enumerate {probs : List F} {a : ℕ × F} (h : a ∈ enumerate probs) :
    a.1 < probs.length :=
  (List.getElem?_eq_some_iff.mp (mem_enumerate.mp h)).1

theorem argmax_lt {v : List F} (hv : 0 < v.length) : argmax ops v < v.length := by
  have hfold : ∀ (l : List (F × ℕ)) (best : ℕ × F), best.1 < v.length →
      (∀ a ∈ l, a.2 < v.length) → (l.foldl (fun (best, bestV) (x, i) =>
        if ops.lt bestV x then (i, x) else (best, bestV)) best).1 < v.length := by
    intro l
    induction l with
    | nil => exact fun _ hbest _ => hbest
    | cons a l ih =>
      intro best hbest hl
      refine ih _ ?_ fun b hb => hl b (List.mem_cons_of_mem a hb)
      change (if ops.lt best.2 a.1 then (a.2, a.1) else best).1 < v.length
      split_ifs
      · exact hl a List.mem_cons_self
      · exact hbest
  refine hfold _ _ hv fun a ha => ?_
  exact (List.getElem?_eq_some_iff.mp (List.mk_mem_zipIdx_iff_getElem?.mp ha)).1

theorem pickFrom_mem {r : F} {l : List (ℕ × F)} {cdf : F} {i : ℕ}
    (h : pickFrom ops r cdf l = some i) : ∃ a ∈ l, a.1 = i := by
  induction l generalizing cdf with
  | nil => exact absurd h (Option.some_ne_none i).symm
  | cons a l ih =>
    rw [pickFrom] at h
    split_ifs at h
    · exact ⟨a, List.mem_cons_self, Option.some_inj.mp h⟩
    · obtain ⟨b, hb, heq⟩ := ih h
      exact ⟨b, List.mem_cons_of_mem a hb, heq⟩

theorem sampleMult_lt {probs : List F} {coin : F} {i : ℕ}
    (h : sampleMult ops probs coin = some i) : i < probs.length := by
  rw [sampleMult] at h
  cases hpick : pickFrom ops coin (ops.lit 0) (enumerate probs) with
  | some j =>
    rw [hpick] at h
    obtain ⟨a, ha, rfl⟩ := pickFrom_mem hpick
    obtain rfl := Option.some_inj.mp h
    exact lt_of_mem_enumerate ha
  | none =>
    rw [hpick] at h
    dsimp only at h
    split_ifs at h
    have := Option.some_inj.mp h
    omega

/-- The candidates that are kept are tokens. -/
theorem truncated_mem {sort : List (ℕ × F) → List (ℕ × F)} (hsort : ∀ l, (sort l).Perm l)
    {probs : List F} {topp cumulative : F} {nucleus : List (ℕ × F)}
    (h : truncated ops sort probs topp = some (nucleus, cumulative)) :
    ∀ a ∈ nucleus, a ∈ enumerate probs := by
  intro a ha
  rw [truncated] at h
  obtain ⟨kept, hkept, heq⟩ := Option.bind_eq_some_iff.mp h
  obtain ⟨rfl, -⟩ := Prod.mk.inj (Option.some_inj.mp heq)
  rw [slice] at hkept
  split_ifs at hkept
  rw [← Option.some_inj.mp hkept] at ha
  have hmem := (hsort _).mem_iff.mp (List.mem_of_mem_drop (List.mem_of_mem_take ha))
  exact (List.mem_filter.mp hmem).1

theorem sampleTopp_lt {sort : List (ℕ × F) → List (ℕ × F)} (hsort : ∀ l, (sort l).Perm l)
    {probs : List F} {topp coin : F} {i : ℕ} (h : sampleTopp ops sort probs topp coin = some i) :
    i < probs.length := by
  rw [sampleTopp] at h
  obtain ⟨⟨nucleus, cumulative⟩, htruncated, h⟩ := Option.bind_eq_some_iff.mp h
  have hmem := truncated_mem hsort htruncated
  dsimp only at h
  cases hpick : pickFrom ops (ops.mul coin cumulative) (ops.lit 0) nucleus with
  | some j =>
    rw [hpick] at h
    obtain ⟨a, ha, rfl⟩ := pickFrom_mem hpick
    obtain rfl := Option.some_inj.mp h
    exact lt_of_mem_enumerate (hmem a ha)
  | none =>
    rw [hpick] at h
    obtain ⟨a, ha, rfl⟩ := Option.map_eq_some_iff.mp h
    exact lt_of_mem_enumerate (hmem a (List.mem_of_getLast? ha))

/-- **A sampled token is one of the logits.** -/
theorem Sampler.sample_lt {sort : List (ℕ × F) → List (ℕ × F)} (hsort : ∀ l, (sort l).Perm l)
    {s : Sampler F} {logits : List F} (hlogits : 0 < logits.length)
    {r : ℕ × List F × Sampler F} (h : s.sample ops sort logits = some r) :
    r.1 < logits.length := by
  rw [Sampler.sample] at h
  split_ifs at h with htemp
  · rw [← Option.some_inj.mp h]
    exact argmax_lt hlogits
  · have hlen : (softmax ops (logits.map fun v => ops.div v s.temperature)).length =
        logits.length := by
      rw [length_softmax, List.length_map]
    dsimp only at h
    split_ifs at h
    · obtain ⟨i, hi, heq⟩ := Option.bind_eq_some_iff.mp h
      rw [← Option.some_inj.mp heq, ← hlen]
      exact sampleMult_lt hi
    · obtain ⟨i, hi, heq⟩ := Option.bind_eq_some_iff.mp h
      rw [← Option.some_inj.mp heq, ← hlen]
      exact sampleTopp_lt hsort hi

end InRange

/-! ## Exact numbers -/

section Exact

variable {rest : FloatOps ℚ}

/-- The coin is below one. -/
theorem randomF32_exact (s : Sampler ℚ) :
    0 ≤ (s.randomF32 rest.exact).1 ∧ (s.randomF32 rest.exact).1 < 1 := by
  have hlt : ((s.randomU32.1 >>> 8).toNat : ℚ) < 16777216 := by
    have : (s.randomU32.1 >>> 8).toNat < 16777216 := by
      have := s.randomU32.1.toNat_lt
      rw [UInt32.toNat_shiftRight]
      change s.randomU32.1.toNat >>> 8 < 16777216
      rw [Nat.shiftRight_eq_div_pow]
      omega
    exact_mod_cast this
  change 0 ≤ (((s.randomU32.1 >>> 8).toNat : ℤ) : ℚ) / 16777216 ∧
    (((s.randomU32.1 >>> 8).toNat : ℤ) : ℚ) / 16777216 < 1
  rw [Int.cast_natCast, div_lt_one (by norm_num)]
  exact ⟨by positivity, hlt⟩

theorem lt_exact {a b : ℚ} : rest.exact.lt a b = true ↔ a < b := decide_eq_true_iff

theorem ge_exact (a b : ℚ) : ge rest.exact a b = decide (b ≤ a) := by
  change (decide (b < a) || decide (a = b)) = decide (b ≤ a)
  rw [← Bool.decide_or, decide_eq_decide, le_iff_lt_or_eq, eq_comm]

theorem byProb_exact (a b : ℕ × ℚ) :
    byProb rest.exact a b = if b.2 < a.2 then .lt else if a.2 < b.2 then .gt else .eq := by
  simp only [byProb, lt_exact]

/-- Exact numbers can all be compared. -/
theorem byProb_transCmp : Std.TransCmp (byProb rest.exact) where
  eq_swap := by
    intro a b
    rw [byProb_exact, byProb_exact]
    rcases lt_trichotomy a.2 b.2 with h | h | h
    · rw [if_neg h.not_gt, if_pos h, if_pos h]
      rfl
    · rw [h, if_neg (lt_irrefl _), if_neg (lt_irrefl _)]
      rfl
    · rw [if_pos h, if_neg h.not_gt, if_pos h]
      rfl
  isLE_trans := by
    intro a b c hab hbc
    have hle : ∀ {x y : ℕ × ℚ}, (byProb rest.exact x y).isLE = true ↔ y.2 ≤ x.2 := by
      intro x y
      rw [byProb_exact]
      rcases lt_trichotomy x.2 y.2 with h | h | h
      · simp [h.not_gt, h]
      · simp [h]
      · simp [h, h.le]
    exact hle.mpr ((hle.mp hbc).trans (hle.mp hab))

/-- Sorted candidates are in descending order. -/
theorem SortsBy.descending {sort : List (ℕ × ℚ) → List (ℕ × ℚ)}
    (h : SortsBy (byProb rest.exact) sort) (l : List (ℕ × ℚ)) : Descending (sort l) := by
  refine (h.sorted byProb_transCmp l).imp fun {a b} hab => ?_
  rw [byProb_exact] at hab
  by_contra hlt
  rw [not_le] at hlt
  rw [if_neg hlt.not_gt, if_pos hlt] at hab
  exact hab rfl

/-- **The loop that truncates** stops at the first prefix that exceeds `topp`. -/
theorem truncateAt_exact (rest : FloatOps ℚ) {topp : ℚ} (last : ℕ) {l : List (ℕ × ℚ)} {i : ℕ}
    {cumulative : ℚ} (hle : cumulative ≤ topp) (hlt : topp < cumulative + mass l) :
    ∃ k < l.length, truncateAt rest.exact topp last i cumulative l =
        (i + k, cumulative + mass (l.take (k + 1))) ∧
      topp < cumulative + mass (l.take (k + 1)) ∧
      ∀ j ≤ k, cumulative + mass (l.take j) ≤ topp := by
  induction l generalizing i cumulative with
  | nil =>
    rw [mass_nil, add_zero] at hlt
    exact absurd hle (not_le.mpr hlt)
  | cons a l ih =>
    rw [truncateAt]
    by_cases hstop : topp < cumulative + a.2
    · refine ⟨0, Nat.succ_pos _, ?_, ?_, ?_⟩
      · rw [Nat.add_zero i, List.take_succ_cons, List.take_zero, mass_cons, mass_nil, add_zero]
        exact if_pos (lt_exact.mpr hstop)
      · rwa [List.take_succ_cons, List.take_zero, mass_cons, mass_nil, add_zero]
      · intro j hj
        obtain rfl : j = 0 := Nat.le_zero.mp hj
        rwa [List.take_zero, mass_nil, add_zero]
    · obtain ⟨k, hk, heq, hexceeds, hbelow⟩ := ih (i := i + 1) (not_lt.mp hstop)
        (by rwa [mass_cons, ← add_assoc] at hlt)
      refine ⟨k + 1, Nat.succ_lt_succ hk, ?_, ?_, ?_⟩
      · have hindex : i + (k + 1) = i + 1 + k := by omega
        rw [List.take_succ_cons, mass_cons, hindex, ← add_assoc cumulative, ← heq]
        exact if_neg fun h => hstop (lt_exact.mp h)
      · rwa [List.take_succ_cons, mass_cons, ← add_assoc]
      · intro j hj
        cases j with
        | zero => rwa [List.take_zero, mass_nil, add_zero]
        | succ j =>
          rw [List.take_succ_cons, mass_cons, ← add_assoc]
          exact hbelow j (Nat.le_of_succ_le_succ hj)

/-- **The scan** ends within items that weigh more than it looks for. -/
theorem pickFrom_exact (rest : FloatOps ℚ) {r : ℚ} {l : List (ℕ × ℚ)} {cdf : ℚ} (hle : cdf ≤ r)
    (hlt : r < cdf + mass l) : ∃ a ∈ l, pickFrom rest.exact r cdf l = some a.1 := by
  induction l generalizing cdf with
  | nil =>
    rw [mass_nil, add_zero] at hlt
    exact absurd hle (not_le.mpr hlt)
  | cons a l ih =>
    rw [pickFrom]
    by_cases hstop : r < cdf + a.2
    · exact ⟨a, List.mem_cons_self, if_pos (lt_exact.mpr hstop)⟩
    · obtain ⟨b, hb, heq⟩ := ih (not_lt.mp hstop) (by rwa [mass_cons, ← add_assoc] at hlt)
      refine ⟨b, List.mem_cons_of_mem a hb, ?_⟩
      rw [← heq]
      exact if_neg fun h => hstop (lt_exact.mp h)

theorem candidates_exact (probs : List ℚ) (topp : ℚ) :
    candidates rest.exact probs topp =
      (enumerate probs).filter fun a => decide ((1 - topp) / (probs.length - 1) ≤ a.2) := by
  refine List.filter_congr fun a _ => ?_
  rw [ge_exact]
  rfl

theorem weights_enumerate (probs : List ℚ) : (enumerate probs).map Prod.snd = probs := by
  rw [enumerate, List.map_map]
  exact List.zipIdx_map_fst 0 probs

theorem mass_enumerate (probs : List ℚ) : mass (enumerate probs) = probs.sum := by
  rw [mass, weights_enumerate]

/-! ## The nucleus -/

/-- All tokens with their probabilities, in a descending order. -/
structure Arranges (probs : List ℚ) (full : List (ℕ × ℚ)) : Prop where
  perm : full.Perm (enumerate probs)
  descending : Descending full

/-- Nucleus sampling: the candidates that are kept are the nucleus of all tokens, whatever
the order of ties, and the index is one of theirs. -/
structure SamplesNucleus (rest : FloatOps ℚ) (sort : List (ℕ × ℚ) → List (ℕ × ℚ))
    (probs : List ℚ) (topp coin : ℚ) (kept : List (ℕ × ℚ)) (i : ℕ) : Prop where
  truncates : truncated rest.exact sort probs topp = some (kept, mass kept)
  nucleus : ∃ full, Arranges probs full ∧ IsNucleus topp full kept
  ties : ∀ full nuc, Arranges probs full → IsNucleus topp full nuc →
    nuc.map Prod.snd = kept.map Prod.snd
  filtered : ∀ full nuc, Arranges probs full → IsNucleus topp full nuc →
    ∀ a ∈ nuc, a ∈ candidates rest.exact probs topp
  samples : sampleTopp rest.exact sort probs topp coin = some i
  inNucleus : ∃ p, (i, p) ∈ kept ∧ probs[i]? = some p

variable {sort : List (ℕ × ℚ) → List (ℕ × ℚ)} {probs : List ℚ} {topp : ℚ}

theorem mem_candidates {a : ℕ × ℚ} : a ∈ candidates rest.exact probs topp ↔
    a ∈ enumerate probs ∧ (1 - topp) / (probs.length - 1) ≤ a.2 := by
  rw [candidates_exact, List.mem_filter, decide_eq_true_eq]

/-- The candidates come first in an order of all tokens. -/
theorem exists_arranges (hsort : SortsBy (byProb rest.exact) sort) (probs : List ℚ) (topp : ℚ) :
    ∃ dropped, Arranges probs (sort (candidates rest.exact probs topp) ++ dropped) := by
  let c := (1 - topp) / ((probs.length : ℚ) - 1)
  let dropped := (enumerate probs).filter fun a => !decide (c ≤ a.2)
  refine ⟨sort dropped, ?_, List.pairwise_append.mpr ⟨hsort.descending _, hsort.descending _, ?_⟩⟩
  · refine ((hsort.perm _).append (hsort.perm dropped)).trans ?_
    rw [candidates_exact]
    exact List.filter_append_perm (fun a => decide (c ≤ a.2)) (enumerate probs)
  · intro a ha b hb
    have hbelow := (List.mem_filter.mp ((hsort.perm dropped).mem_iff.mp hb)).2
    rw [Bool.not_eq_true', decide_eq_false_iff_not, not_le] at hbelow
    exact hbelow.le.trans (mem_candidates.mp ((hsort.perm _).mem_iff.mp ha)).2

/-- **One probability above the cutoff** is enough for the candidates to exceed `topp`. -/
theorem lt_mass_candidates (hn : 2 ≤ probs.length) (hsum : probs.sum = 1) (htopp : topp < 1)
    {p : ℚ} (hp : p ∈ probs) (hle : (1 - topp) / (probs.length - 1) ≤ p) :
    topp < mass (candidates rest.exact probs topp) := by
  rw [candidates_exact]
  obtain ⟨i, hi⟩ := List.mem_iff_getElem?.mp hp
  have hlen : (enumerate probs).length = probs.length := by
    rw [enumerate, List.length_map, List.length_zipIdx]
  have hone : (0 : ℚ) < probs.length - 1 := by
    rw [sub_pos]
    exact_mod_cast hn
  refine lt_mass_filter ?_ ?_ (mem_enumerate.mpr hi) hle
  · rwa [mass_enumerate, hsum]
  · rw [mass_enumerate, hsum, hlen, mul_div_cancel₀ _ hone.ne']

/-- **When a sample is from the nucleus**: exactly when some probability reaches the cutoff
of the pre-filter.  Otherwise there is no candidate, and the slice panics. -/
theorem sampleTopp_iff (rest : FloatOps ℚ) (hsort : SortsBy (byProb rest.exact) sort)
    (hn : 2 ≤ probs.length) (hsum : probs.sum = 1) (htopp : 0 < topp ∧ topp < 1) {coin : ℚ}
    (hcoin : 0 ≤ coin ∧ coin < 1) :
    (∃ kept i, SamplesNucleus rest sort probs topp coin kept i) ↔
      ∃ p ∈ probs, (1 - topp) / (probs.length - 1) ≤ p := by
  constructor
  · rintro ⟨kept, i, h⟩
    obtain ⟨full, hfull, hnuc⟩ := h.nucleus
    obtain ⟨p, hmem, hp⟩ := h.inNucleus
    have hle := (mem_candidates.mp (h.filtered full kept hfull hnuc (i, p) hmem)).2
    exact ⟨p, List.mem_of_getElem? hp, hle⟩
  · rintro ⟨p, hp, hle⟩
    obtain ⟨dropped, hfull⟩ := exists_arranges hsort probs topp
    set probindex := sort (candidates rest.exact probs topp) with hprobindex
    have hmass : topp < 0 + mass probindex := by
      rw [zero_add, mass_perm (hsort.perm _)]
      exact lt_mass_candidates hn hsum htopp.2 hp hle
    obtain ⟨k, hk, htrunc, hexceeds, hbelow⟩ := truncateAt_exact rest
      (probindex.length - 1) (i := 0) htopp.1.le hmass
    rw [zero_add] at hexceeds
    rw [Nat.zero_add, zero_add] at htrunc
    set kept := probindex.take (k + 1) with hkept
    have hnuc : IsNucleus topp (probindex ++ dropped) kept :=
      (isNucleus_take hk (fun j hj => by
        have := hbelow j hj
        rwa [zero_add] at this) hexceeds).append dropped
    have htruncated : truncated rest.exact sort probs topp = some (kept, mass kept) := by
      have hloop : truncateAt rest.exact topp (probindex.length - 1) 0 (rest.exact.lit 0)
          probindex = (k, mass kept) := htrunc
      rw [truncated, ← hprobindex]
      dsimp only
      rw [hloop]
      exact bind_eq_of_some (if_pos ⟨Nat.zero_le _, hk⟩) rfl
    have hpos : 0 < mass kept := htopp.1.trans hexceeds
    -- the scan looks for less than the mass of what was kept
    obtain ⟨a, ha, hpick⟩ := pickFrom_exact rest (r := coin * mass kept)
      (mul_nonneg hcoin.1 hpos.le) (l := kept) (by
        rw [zero_add]
        exact mul_lt_of_lt_one_left hpos hcoin.2)
    have hsub : ∀ b ∈ kept, b ∈ candidates rest.exact probs topp := fun b hb =>
      (hsort.perm _).mem_iff.mp (List.mem_of_mem_take hb)
    have hties : ∀ full nuc, Arranges probs full → IsNucleus topp full nuc →
        nuc.map Prod.snd = kept.map Prod.snd := fun full nuc hfull' hnuc' =>
      hnuc'.weights_eq hnuc (hfull'.descending.weights_eq hfull.descending
        (hfull'.perm.trans hfull.perm.symm))
    refine ⟨kept, a.1, htruncated, ⟨_, hfull, hnuc⟩, hties, ?_, ?_, a.2, ha, ?_⟩
    · intro full nuc hfull' hnuc' b hb
      have hweight : b.2 ∈ kept.map Prod.snd :=
        hties full nuc hfull' hnuc' ▸ List.mem_map_of_mem hb
      obtain ⟨b', hb', heq⟩ := List.mem_map.mp hweight
      refine mem_candidates.mpr ⟨hfull'.perm.mem_iff.mp (hnuc'.initial.subset hb), ?_⟩
      rw [← heq]
      exact (mem_candidates.mp (hsub b' hb')).2
    · rw [sampleTopp]
      refine bind_eq_of_some htruncated ?_
      have hscan : pickFrom rest.exact (rest.exact.mul coin (mass kept)) (rest.exact.lit 0)
          kept = some a.1 := hpick
      dsimp only
      rw [hscan]
    · exact mem_enumerate.mp (mem_candidates.mp (hsub a ha)).1

/-! ### A sort -/

/-- Insertion sort is one way to sort. -/
def insertByProb (l : List (ℕ × ℚ)) : List (ℕ × ℚ) := l.insertionSort fun a b => b.2 ≤ a.2

theorem sortsBy_insertByProb : SortsBy (byProb rest.exact) insertByProb where
  perm l := List.perm_insertionSort _ l
  sorted _ l := by
    have : Std.Total fun a b : ℕ × ℚ => b.2 ≤ a.2 := ⟨fun a b => le_total b.2 a.2⟩
    have : IsTrans (ℕ × ℚ) fun a b => b.2 ≤ a.2 := ⟨fun a b c hab hbc => hbc.trans hab⟩
    refine (List.pairwise_insertionSort (fun a b : ℕ × ℚ => b.2 ≤ a.2) l).imp fun {a b} hab => ?_
    rw [byProb_exact]
    split_ifs with hlt hgt
    · exact Ordering.noConfusion
    · exact absurd hab (not_le.mpr hgt)
    · exact Ordering.noConfusion

/-- Three tokens, of which the first two are the nucleus. -/
theorem sampleTopp_iff_three :
    (∃ kept i, SamplesNucleus wordOps insertByProb [1 / 2, 3 / 8, 1 / 8] (3 / 4) (1 / 2) kept i) ↔
      ∃ p ∈ ([1 / 2, 3 / 8, 1 / 8] : List ℚ),
        (1 - 3 / 4) / (([1 / 2, 3 / 8, 1 / 8] : List ℚ).length - 1) ≤ p :=
  sampleTopp_iff wordOps sortsBy_insertByProb (by decide) (by norm_num) (by norm_num) (by norm_num)

/-- **Two equal tokens and a small `topp`**: both are below the cutoff. -/
theorem sampleTopp_two_equal :
    ([1 / 2, 1 / 2] : List ℚ).sum = 1 ∧
      sampleTopp wordOps.exact insertByProb [1 / 2, 1 / 2] (1 / 4) 0 = none ∧
      ¬ ∃ kept i, SamplesNucleus wordOps insertByProb [1 / 2, 1 / 2] (1 / 4) 0 kept i := by
  have hcandidates : candidates wordOps.exact [1 / 2, 1 / 2] (1 / 4) = [] := by
    rw [candidates_exact]
    norm_num [enumerate]
  have hnone : sampleTopp wordOps.exact insertByProb [1 / 2, 1 / 2] (1 / 4) 0 = none := by
    rw [sampleTopp, truncated, hcandidates]
    rfl
  refine ⟨by norm_num, hnone, ?_⟩
  rintro ⟨kept, i, h⟩
  exact absurd (h.samples.symm.trans hnone) (Option.some_ne_none i)

end Exact

end TinyLlm
