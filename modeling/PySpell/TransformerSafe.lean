/-
# When the forward pass ends

`forward` may panic on an index, a division or an overflow.  Every function of the pass gets
one lemma: what its result is sized like, when it is sure to end with a value, and what it
needs to.  `reaches_forward` is the one for the whole pass.

What is computed never matters, except for the `i32` inner product of a group, which cannot
overflow when a group has fewer than 2¹⁷ numbers.
-/
import Mathlib.Algebra.Order.Ring.Abs
import Mathlib.Algebra.Order.Ring.Int
import PySpell.CheckpointLayout
import PySpell.Transformer

open Checked

namespace TinyLlm

variable {F : Type} {ops : FloatOps F} {M : Machine}

/-! ## Numeric primitives -/

/-- Reading a word stays in bounds exactly when its four bytes are there. -/
theorem reaches_rdF32 {buf : List UInt8} (off : ℕ) :
    Reaches (fun _ => True) (off + 4 ≤ buf.length) (off + 4 ≤ buf.length) (rdF32 ops buf off) where
  holds _ _ := trivial
  succeeds h := ⟨_, bind_eq_of_some (rdU32_eq h) rfl⟩
  needs f hf := by
    obtain ⟨u, hu, -⟩ := Option.bind_eq_some_iff.mp hf
    obtain ⟨_, -, hu⟩ := Option.bind_eq_some_iff.mp hu
    obtain ⟨_, -, hu⟩ := Option.bind_eq_some_iff.mp hu
    obtain ⟨_, -, hu⟩ := Option.bind_eq_some_iff.mp hu
    obtain ⟨_, hlast, -⟩ := Option.bind_eq_some_iff.mp hu
    exact (List.getElem?_eq_some_iff.mp hlast).1

/-- The norm reads a weight for each number, so with as many of them it never fails. -/
theorem reaches_rmsnorm {out x : List F} {w : List UInt8} {n : ℕ} (hout : out.length = n)
    (hx : x.length = n) (hw : w.length = n * 4) (hn : n * 4 < 2 ^ M.width) :
    Reaches (fun r => r.length = n) True True (rmsnorm ops M.strict out x w) := by
  unfold rmsnorm
  rw [hx]
  refine Reaches.mono (reaches_upTo (fun i hi ys hys => Reaches.mono
    ((reaches_mul i 4).bind_eq <| (reaches_rdF32 _).bind fun a _ => (reaches_get i).bind fun v _ =>
      reaches_setAt i _) (fun r hr => hr.trans hys) ?_ fun _ => trivial) hout)
    (fun _ h => h) (fun _ i _ => trivial) fun _ => trivial
  intro _
  omega

/-- Adding or multiplying in place: vectors of one length are walked together. -/
theorem reaches_zipInto {f : F → F → F} {n : ℕ} {xs ys : List F} (hxs : xs.length = n)
    (hys : ys.length = n) :
    Reaches (fun r => r.length = n) True True (zipInto f n xs ys) := by
  refine Reaches.mono (reaches_upTo (fun i hi zs hzs => Reaches.mono
    ((reaches_get i).bind fun a _ => (reaches_get i).bind fun b _ => reaches_setAt i _)
      (fun r hr => hr.trans hzs) ?_ fun _ => trivial) hxs)
    (fun _ h => h) (fun _ i _ => trivial) fun _ => trivial
  intro _
  omega

/-- The softmax keeps the length. -/
theorem length_softmax (x : List F) : (softmax ops x).length = x.length := by
  cases x with
  | nil => rfl
  | cons a x =>
    unfold softmax
    dsimp only
    split_ifs <;> simp

/-! ## Quantization -/

/-- The largest number of a group, within the vector. -/
theorem reaches_quantizeMax {x : List F} {base gs : ℕ} (h : base + gs ≤ x.length)
    (hx : x.length < 2 ^ M.width) :
    Reaches (fun _ => True) True True (quantizeMax ops M.strict x base gs) := by
  refine Reaches.mono (reaches_upTo (fun k hk _ _ => Reaches.mono
    ((reaches_add base k).bind_eq <| (reaches_get _).bind fun v _ => Reaches.pure trivial)
      (fun _ h => h) ?_ fun _ => trivial) trivial) (fun _ h => h) (fun _ i _ => trivial)
    fun _ => trivial
  exact fun _ => ⟨by omega, by omega, trivial⟩

/-- One group is quantised into its own slots, and its scale into the slot of the group. -/
theorem reaches_quantizeGroup {x : List F} {gs g n m : ℕ} (hx : x.length = n)
    (hg : (g + 1) * gs ≤ n) (hn : n < 2 ^ M.width) (hm : g < m) {p : List Int8 × List F}
    (hp : p.1.length = n ∧ p.2.length = m) :
    Reaches (fun p => p.1.length = n ∧ p.2.length = m) True True
      (quantizeGroup ops M.strict x gs g p) := by
  obtain ⟨q, s⟩ := p
  obtain ⟨hq, hs⟩ := hp
  dsimp only at hq hs
  rw [Nat.add_one_mul] at hg
  have hvalues (scale : F) : Reaches (fun r => r.length = n) True True (upTo (fun k q => do
      let i ← M.strict.add (g * gs) k
      let v ← x[i]?
      setAt q i (quantized ops scale v)) gs q) := by
    refine Reaches.mono (reaches_upTo (fun k hk q' hq' => Reaches.mono
      ((reaches_add _ k).bind_eq <| (reaches_get _).bind fun v _ => reaches_setAt _ _)
      (fun r hr => hr.trans hq') ?_ fun _ => trivial) hq) (fun _ h => h) (fun _ i _ => trivial)
      fun _ => trivial
    exact fun _ => ⟨by omega, by omega, by omega⟩
  refine Reaches.mono ((reaches_mul g gs).bind_eq <|
    (reaches_quantizeMax (by omega) (hx.trans_lt hn)).bind fun wmax _ =>
    (reaches_setAt g _).bind fun s' hs' => (hvalues _).bind fun q' hq' =>
      Reaches.pure ⟨hq', hs'.trans hs⟩) (fun _ h => h) ?_ fun _ => trivial
  exact fun _ => ⟨by omega, trivial, by omega, trivial, trivial⟩

/-- Quantising a whole vector: group after group, with a scale for each. -/
theorem reaches_quantize {q : List Int8} {s x : List F} {gs n m : ℕ} (hgs : 0 < gs)
    (hx : x.length = n) (hq : q.length = n) (hs : s.length = m) (hm : n / gs ≤ m)
    (hn : n < 2 ^ M.width) :
    Reaches (fun p => p.1.length = n ∧ p.2.length = m) True True
      (quantize ops M.strict q s x gs) := by
  unfold quantize
  rw [hx]
  refine Reaches.mono ((reaches_div n gs).bind_eq (reaches_upTo (fun g hg p hp =>
    reaches_quantizeGroup hx ?_ hn (hg.trans_le hm) hp) ⟨hq, hs⟩)) (fun _ h => h)
    (fun _ => ⟨hgs.ne', fun i _ => trivial⟩) fun _ => trivial
  exact (Nat.mul_le_mul_right gs hg).trans (Nat.div_mul_le_self n gs)

/-! ## Matrix products -/

/-- A weight is read as a signed byte exactly when it is there. -/
theorem reaches_qi {w : QTensor} (i : ℕ) :
    Reaches (fun b => -128 ≤ b ∧ b < 128) (i < w.q.length) (i < w.q.length) (w.qi i) := by
  refine Reaches.mono ((reaches_get i).bind fun b _ => Reaches.pure ?_) (fun _ h => h)
    (fun h => ⟨h, trivial⟩) And.left
  exact ⟨b.toInt8.le_toInt, b.toInt8.toInt_lt⟩

/-- The scale of a group is four bytes of the tensor's second part. -/
theorem reaches_scale {w : QTensor} (g : ℕ) :
    Reaches (fun _ => True) (g * 4 + 4 ≤ w.s.length ∧ w.s.length < 2 ^ M.width) True
      (w.scale M.strict ops g) :=
  Reaches.mono ((reaches_mul g 4).bind_eq (reaches_rdF32 _)) (fun _ h => h)
    (fun h => ⟨by omega, h.1⟩) fun _ => trivial

/-- The partial sums of a group stay within `i32` if the group is small. -/
theorem reaches_addI32 {k : ℕ} {ival a b : ℤ} (hival : |ival| ≤ (k : ℤ) * 2 ^ 14)
    (ha : -128 ≤ a ∧ a < 128) (hb : -128 ≤ b ∧ b < 128) :
    Reaches (fun r : ℤ => |r| ≤ ((k + 1 : ℕ) : ℤ) * 2 ^ 14) (k + 1 < 2 ^ 17) True
      (addI32 ival (a * b)) := by
  have hab : |a * b| ≤ 2 ^ 14 := by
    rw [abs_mul]
    exact mul_le_mul (abs_le.mpr ⟨ha.1, by omega⟩) (abs_le.mpr ⟨hb.1, by omega⟩)
      (abs_nonneg b) (by decide)
  rw [abs_le] at hab hival
  refine Reaches.mono (Reaches.ite fun _ => ?_) (fun _ h => h) ?_ fun _ => trivial
  · rw [abs_le]
    push_cast
    omega
  · intro hk
    omega

/-- The integer product of a group: its sum fits 32 bits for groups below 2^17. -/
theorem reaches_groupProduct {xq : List Int8} {w : QTensor} {row j gs : ℕ}
    (hxq : xq.length < 2 ^ M.width) (hw : w.q.length < 2 ^ M.width) :
    Reaches (fun _ => True) (gs < 2 ^ 17 ∧ j + gs ≤ xq.length ∧ row + j + gs ≤ w.q.length)
      (0 < gs → j + gs ≤ xq.length ∧ row + j + gs ≤ w.q.length)
      (groupProduct M.strict xq w row j gs) := by
  refine Reaches.mono (reaches_upTo_count (fun k hk ival (hival : |ival| ≤ (k : ℤ) * 2 ^ 14) =>
    (reaches_add j k).bind_eq <| (reaches_get _).bind fun a _ =>
      (reaches_add row j).bind_eq <| (reaches_add _ k).bind_eq <|
      (reaches_qi _).bind fun b hb =>
        reaches_addI32 hival ⟨a.le_toInt, a.toInt_lt⟩ hb) (by simp))
    (fun _ _ => trivial) ?_ ?_
  · rintro ⟨hgs, hj, hrow⟩ k hk
    exact ⟨by omega, by omega, by omega, by omega, by omega, by omega⟩
  · intro h hgs
    obtain ⟨-, hj, -, -, hrow, -⟩ := h (gs - 1) (by omega)
    omega

/-- The last step up to `n` ends at `n` if no step goes beyond it. -/
theorem last_step {n gs : ℕ} (hn : 0 < n) (hgs : 0 < gs)
    (h : ∀ t, t * gs < n → t * gs + gs ≤ n) : (n - 1) / gs * gs + gs = n := by
  have hlast := h ((n - 1) / gs) (by have := Nat.div_mul_le_self (n - 1) gs; omega)
  have hmod := Nat.div_add_mod (n - 1) gs
  have hlt := Nat.mod_lt (n - 1) hgs
  rw [Nat.mul_comm] at hmod
  omega

/-- A group of a row adds its product, scaled with the scales of both sides. -/
theorem reaches_matmulGroup (ops : FloatOps F) {xs : List F} {xq : List Int8} {w : QTensor}
    {gs size : ℕ} (hw : w.q.length = size) (hs : w.s.length = size / gs * 4)
    (hfits : size + size / gs * 4 < 2 ^ M.width) (hxq : xq.length < 2 ^ M.width) (row j : ℕ)
    (val : F) :
    Reaches (fun _ => True)
      (0 < gs ∧ gs < 2 ^ 17 ∧ j + gs ≤ xq.length ∧ row + j + gs ≤ size ∧
        (row + j) / gs < size / gs ∧ j / gs < xs.length)
      (0 < gs → j + gs ≤ xq.length ∧ row + j + gs ≤ size)
      (matmulGroup ops M.strict xq xs w row gs j val) := by
  refine Reaches.mono ((reaches_groupProduct hxq (by omega)).bind fun ival _ =>
    (reaches_add row j).bind_eq <| (reaches_div _ gs).bind_eq <|
    (reaches_scale _).bind fun ws _ => (reaches_div j gs).bind_eq <|
    (reaches_get _).bind fun x _ => Reaches.pure trivial) (fun _ h => h) ?_ ?_
  · rintro ⟨hgs, hsmall, hj, hrow, hscale, hx⟩
    refine ⟨⟨hsmall, hj, by omega⟩, by omega, hgs.ne', by omega, hgs.ne', hx, trivial⟩
  · rintro ⟨h, -⟩ hgs
    have := h hgs
    omega

/-- **The quantised product stays in bounds**: rows and groups cover the tensor exactly when they
fit it, by induction over both loops. -/
theorem reaches_matmul {out xs : List F} {xq : List Int8} {w : QTensor} {n d gs size : ℕ}
    (hgs : 0 < gs) (hn : 0 < n) (hd : 0 < d) (hout : out.length = d) (hxq : xq.length = n)
    (hxs : xs.length = n / gs) (hw : w.q.length = size) (hs : w.s.length = size / gs * 4)
    (hsize : gs ∣ size) (hfits : size + size / gs * 4 < 2 ^ M.width) (hnw : n < 2 ^ M.width) :
    Reaches (fun r => r.length = d) (gs < 2 ^ 17 ∧ gs ∣ n ∧ d * n ≤ size)
      (gs ∣ n ∧ d * n ≤ size) (matmul ops M.strict out xq xs w n d gs) := by
  have hend {i : ℕ} (hi : i < d) (h : d * n ≤ size) : i * n + n ≤ size := by
    rw [← Nat.add_one_mul]
    exact (Nat.mul_le_mul_right n hi).trans h
  have hgroup (i j : ℕ) (_ : j < n) (val : F) (_ : True) : Reaches (fun _ => True) _ _
      (matmulGroup ops M.strict xq xs w (i * n) gs j val) :=
    reaches_matmulGroup ops hw hs hfits (hxq.trans_lt hnw) (i * n) j val
  refine Reaches.mono (reaches_upTo (fun i hi ys hys => Reaches.mono
    ((reaches_mul i n).bind_eq <| (reaches_whileBelow hgs (hgroup i) trivial).bind fun val _ =>
      reaches_setAt i val) (fun _ hr => Eq.trans hr hys)
    (fun h => ⟨And.left h, And.right h, hi.trans_eq hys.symm⟩)
    fun h => And.left (And.right h)) hout) (fun _ h => h) ?_ ?_
  · rintro ⟨hsmall, hdvd, hle⟩ i hi
    have hin := hend hi hle
    refine ⟨by omega, fun t ht => ?_⟩
    -- a group that starts below `n` ends below it, and below the end of its row
    have hstep : t * gs + gs ≤ n := by
      rw [← Nat.add_one_mul]
      obtain ⟨m, rfl⟩ := hdvd
      rw [Nat.mul_comm gs m] at ht ⊢
      exact Nat.mul_le_mul_right gs (Nat.lt_of_mul_lt_mul_right ht)
    refine ⟨⟨hgs, hsmall, by omega, by omega, ?_, ?_⟩, ?_⟩
    · exact Nat.div_lt_div_of_lt_of_dvd hsize (by omega)
    · rw [hxs]
      exact Nat.div_lt_div_of_lt_of_dvd hdvd ht
    · rw [Nat.add_one_mul]
      omega
  · intro h
    have hgroups := h (d - 1) (by omega)
    have hn' := last_step hn hgs fun t ht => hxq ▸ (hgroups t ht hgs).1
    have hlast := (hgroups ((n - 1) / gs) (by omega) hgs).2
    refine ⟨⟨(n - 1) / gs + 1, ?_⟩, ?_⟩
    · rw [Nat.mul_add_one, Nat.mul_comm, hn']
    · have hd' : d * n = (d - 1) * n + n := by
        rw [← Nat.add_one_mul, Nat.sub_add_cancel hd]
      omega

/-! ## Weights -/

/-- The bytes of one tensor of a group. -/
def QGroup.tensorSize (g : QGroup) : ℕ := g.sizeEach + g.sizeEach / g.gs * 4

/-- The bytes of the scales of a tensor, in machine arithmetic. -/
theorem reaches_scaleBytes (g : QGroup) :
    Reaches (· = g.sizeEach / g.gs * 4) (0 < g.gs ∧ g.tensorSize < 2 ^ M.width) True
      (g.scaleBytes M.strict) :=
  Reaches.mono ((reaches_div _ _).bind_eq (reaches_mul _ _)) (fun _ h => h)
    (fun h => ⟨h.1.ne', (Nat.le_add_left _ _).trans_lt h.2⟩) fun _ => trivial

/-- The bytes from one tensor of a group to the next. -/
theorem reaches_stride (g : QGroup) :
    Reaches (· = g.tensorSize) (0 < g.gs ∧ g.tensorSize < 2 ^ M.width) True (g.stride M.strict) :=
  Reaches.mono ((reaches_scaleBytes g).bind_eq (reaches_add _ _)) (fun _ h => h)
    (fun h => ⟨h, h.2⟩) fun _ => trivial

/-- The tensor of a layer is where the layout puts it, exactly when the buffer reaches so far. -/
theorem reaches_tensor (g : QGroup) (hgs : 0 < g.gs) {buf : List UInt8}
    (hbuf : buf.length < 2 ^ M.width) (l : ℕ) :
    Reaches (fun t => t.q.length = g.sizeEach ∧ t.s.length = g.sizeEach / g.gs * 4 ∧
        g.tensorSize < 2 ^ M.width)
      (g.base + (l + 1) * g.tensorSize ≤ buf.length)
      (g.base + (l + 1) * g.tensorSize ≤ buf.length) (g.tensor M.strict buf l) := by
  have hsize : g.tensorSize = g.sizeEach + g.sizeEach / g.gs * 4 := rfl
  rw [Nat.add_one_mul]
  refine Reaches.mono ((reaches_stride g).bind_eq <| (reaches_mul _ _).bind_eq <|
    (reaches_add _ _).bind_eq <| (reaches_add _ _).bind_eq <| (reaches_slice _ _).bind fun q hq =>
    (reaches_add _ _).bind_eq <| (reaches_scaleBytes g).bind_eq <| (reaches_add _ _).bind_eq <|
    (reaches_slice _ _).bind fun s hs => Reaches.pure
      ⟨hq.1.trans (Nat.add_sub_cancel_left _ _), hs.1.trans (Nat.add_sub_cancel_left _ _),
        by omega⟩)
    (fun _ h => h) ?_ ?_
  · intro h
    exact ⟨⟨hgs, by omega⟩, by omega, by omega, by omega, ⟨by omega, by omega⟩, by omega,
      ⟨hgs, by omega⟩, by omega, ⟨by omega, by omega⟩, trivial⟩
  · rintro ⟨-, -, -, -, -, -, -, -, ⟨-, hend⟩, -⟩
    omega

/-- So is the row of a norm. -/
theorem reaches_normRow (m : Model) (hbuf : m.buf.length < 2 ^ M.width) (base l : ℕ) :
    Reaches (fun w => w.length = m.config.dim * 4 ∧ m.config.dim * 4 < 2 ^ M.width)
      (base + (l + 1) * m.config.dim * 4 ≤ m.buf.length)
      (base + (l + 1) * m.config.dim * 4 ≤ m.buf.length) (m.normRow M.strict base l) := by
  rw [Nat.add_one_mul, Nat.add_mul]
  refine Reaches.mono ((reaches_mul _ _).bind_eq <| (reaches_mul _ _).bind_eq <|
    (reaches_add _ _).bind_eq <| (reaches_mul _ _).bind_eq <| (reaches_add _ _).bind_eq <|
    reaches_slice _ _) (fun w hw => ⟨by omega, by omega⟩) ?_ ?_
  · intro h
    exact ⟨by omega, by omega, by omega, by omega, by omega, ⟨by omega, by omega⟩⟩
  · rintro ⟨-, -, -, -, -, -, hend⟩
    omega

/-- So is the row of the last norm, which is there once. -/
theorem reaches_rmsFinalRow (m : Model) (hbuf : m.buf.length < 2 ^ M.width) :
    Reaches (fun w => w.length = m.config.dim * 4 ∧ m.config.dim * 4 < 2 ^ M.width)
      (m.rmsFinal + m.config.dim * 4 ≤ m.buf.length)
      (m.rmsFinal + m.config.dim * 4 ≤ m.buf.length) (m.rmsFinalRow M.strict) := by
  refine Reaches.mono ((reaches_mul _ _).bind_eq <| (reaches_add _ _).bind_eq <|
    reaches_slice _ _) (fun w hw => ⟨by omega, by omega⟩) ?_ ?_
  · intro h
    exact ⟨by omega, by omega, by omega, h⟩
  · exact fun h => h.2.2.2

/-- The row of a token is read exactly when the table has it: the token is not checked against the
vocabulary. -/
theorem reaches_embedRow {m : Model} (hgs : 0 < m.config.groupSize)
    (htokens : m.qTokens.gs = m.config.groupSize)
    (hgroup : m.config.groupSize ∣ m.qTokens.sizeEach) (hdim : 0 < m.config.dim)
    (hbuf : m.buf.length < 2 ^ M.width) (token : ℕ) {out : List F}
    (hout : out.length = m.config.dim) :
    Reaches (fun r => r.length = m.config.dim)
      (m.qTokens.base + m.qTokens.tensorSize ≤ m.buf.length ∧
        (token + 1) * m.config.dim ≤ m.qTokens.sizeEach)
      (m.qTokens.base + m.qTokens.tensorSize ≤ m.buf.length ∧
        (token + 1) * m.config.dim ≤ m.qTokens.sizeEach)
      (m.embedRow M.strict ops token out) := by
  have hsize : m.qTokens.tensorSize =
      m.qTokens.sizeEach + m.qTokens.sizeEach / m.config.groupSize * 4 := by
    rw [← htokens]
    rfl
  have hscale {idx : ℕ} (h : idx < m.qTokens.sizeEach) := Nat.div_lt_div_of_lt_of_dvd hgroup h
  rw [Nat.add_one_mul]
  refine Reaches.mono ((reaches_tensor m.qTokens (htokens ▸ hgs) hbuf 0).bind fun t ht =>
    (reaches_mul _ _).bind_eq <| reaches_upTo (fun i hi ys hys => Reaches.mono
      ((reaches_add _ i).bind_eq <| (reaches_qi _).bind fun q _ => (reaches_div _ _).bind_eq <|
        (reaches_scale _).bind fun s _ => reaches_setAt i _) (fun _ hr => Eq.trans hr hys)
      (fun (h : m.qTokens.tensorSize < 2 ^ M.width ∧
        token * m.config.dim + m.config.dim ≤ m.qTokens.sizeEach) => ?_)
      (fun h => ht.1 ▸ h.2.1)) hout) (fun _ h => h) ?_ ?_
  · rw [htokens] at ht
    have hidx := hscale (show token * m.config.dim + i < m.qTokens.sizeEach by omega)
    exact ⟨by omega, by omega, hgs.ne', ⟨by omega, by omega⟩, by omega⟩
  · rintro ⟨htensor, hrow⟩
    exact ⟨by omega, by omega, fun i _ => ⟨by omega, hrow⟩⟩
  · rintro ⟨htensor, -, hrow⟩
    have := hrow (m.config.dim - 1) (by omega)
    omega

/-! ## The state -/

/-- The sizes of the buffers of a state that the configuration does not fix. -/
structure Sizes where
  ctx : ℕ
  kv : ℕ
  att : ℕ
  cache : ℕ
  scales : ℕ

/-- The sizes that `try_with_cache` computes, on a machine that may wrap. -/
structure Sizes.Allocated (M : Machine) (c : Config) (z : Sizes) : Prop where
  kv : c.kvDim M = some z.kv
  att : M.mul c.nHeads z.ctx = some z.att
  cache : ∃ n, M.mul c.nLayers z.ctx = some n ∧ M.mul n z.kv = some z.cache
  scales : ∃ n, M.mul c.nLayers z.ctx = some n ∧ M.mul n c.nKvHeads = some z.scales

/-- The lengths of the buffers; only one of the two caches is there. -/
structure RunState.Sized (c : Config) (z : Sizes) (s : RunState F) : Prop where
  ctx : s.ctx = z.ctx
  x : s.x.length = c.dim
  xb : s.xb.length = c.dim
  xb2 : s.xb2.length = c.dim
  hb : s.hb.length = c.hiddenDim
  hb2 : s.hb2.length = c.hiddenDim
  xqQ : s.xqQ.length = c.dim
  xqS : s.xqS.length = c.dim / c.groupSize
  hqQ : s.hqQ.length = c.hiddenDim
  hqS : s.hqS.length = c.hiddenDim / c.groupSize
  q : s.q.length = c.dim
  k : s.k.length = z.kv
  v : s.v.length = z.kv
  att : s.att.length = z.att
  logits : s.logits.length = c.vocabSize
  keyCache : s.int8 = false → s.keyCache.length = z.cache
  valueCache : s.int8 = false → s.valueCache.length = z.cache
  keyQ : s.int8 = true → s.keyQ.length = z.cache
  valQ : s.int8 = true → s.valQ.length = z.cache
  keyS : s.int8 = true → s.keyS.length = z.scales
  valS : s.int8 = true → s.valS.length = z.scales

/-- An allocated array has the length that was asked for. -/
theorem length_zeros {α : Type} {heap : ℕ → Bool} {bytes n : ℕ} {zero : α} {xs : List α}
    (h : zeros M heap bytes zero n = some xs) : xs.length = n := by
  unfold zeros at h
  split_ifs at h
  obtain rfl := Option.some_inj.mp h
  exact List.length_replicate

/-- **A new state has the sizes that were computed for it.** -/
theorem tryWithCache_sized {heap : ℕ → Bool} {c : Config} {ctx : ℕ} {int8 : Bool}
    {s : RunState F} (h : RunState.tryWithCache ops M heap c ctx int8 = some s) :
    ∃ z : Sizes, z.ctx = ctx ∧ z.Allocated M c ∧ s.Sized c z := by
  unfold RunState.tryWithCache at h
  -- the buffers, in the order in which they are allocated
  obtain ⟨kv, hkv, h⟩ := Option.bind_eq_some_iff.mp h
  obtain ⟨n, hn, h⟩ := Option.bind_eq_some_iff.mp h
  obtain ⟨cache, hcache, h⟩ := Option.bind_eq_some_iff.mp h
  obtain ⟨n', hn', h⟩ := Option.bind_eq_some_iff.mp h
  obtain ⟨scales, hscales, h⟩ := Option.bind_eq_some_iff.mp h
  obtain ⟨x, hx, h⟩ := Option.bind_eq_some_iff.mp h
  obtain ⟨xb, hxb, h⟩ := Option.bind_eq_some_iff.mp h
  obtain ⟨xb2, hxb2, h⟩ := Option.bind_eq_some_iff.mp h
  obtain ⟨hb, hhb, h⟩ := Option.bind_eq_some_iff.mp h
  obtain ⟨hb2, hhb2, h⟩ := Option.bind_eq_some_iff.mp h
  obtain ⟨xqQ, hxqQ, h⟩ := Option.bind_eq_some_iff.mp h
  obtain ⟨g, hg, h⟩ := Option.bind_eq_some_iff.mp h
  obtain ⟨xqS, hxqS, h⟩ := Option.bind_eq_some_iff.mp h
  obtain ⟨hqQ, hhqQ, h⟩ := Option.bind_eq_some_iff.mp h
  obtain ⟨g', hg', h⟩ := Option.bind_eq_some_iff.mp h
  obtain ⟨hqS, hhqS, h⟩ := Option.bind_eq_some_iff.mp h
  obtain ⟨q, hq, h⟩ := Option.bind_eq_some_iff.mp h
  obtain ⟨k, hk, h⟩ := Option.bind_eq_some_iff.mp h
  obtain ⟨v, hv, h⟩ := Option.bind_eq_some_iff.mp h
  obtain ⟨a, ha, h⟩ := Option.bind_eq_some_iff.mp h
  obtain ⟨att, hatt, h⟩ := Option.bind_eq_some_iff.mp h
  obtain ⟨logits, hlogits, h⟩ := Option.bind_eq_some_iff.mp h
  obtain ⟨keyCache, hkeyCache, h⟩ := Option.bind_eq_some_iff.mp h
  obtain ⟨valueCache, hvalueCache, h⟩ := Option.bind_eq_some_iff.mp h
  obtain ⟨keyQ, hkeyQ, h⟩ := Option.bind_eq_some_iff.mp h
  obtain ⟨valQ, hvalQ, h⟩ := Option.bind_eq_some_iff.mp h
  obtain ⟨keyS, hkeyS, h⟩ := Option.bind_eq_some_iff.mp h
  obtain ⟨valS, hvalS, h⟩ := Option.bind_eq_some_iff.mp h
  obtain rfl := Option.some_inj.mp h
  -- a group size of zero would have failed before
  have hdiv {n g : ℕ} (h : div n c.groupSize = some g) : g = n / c.groupSize := by
    unfold div at h
    split_ifs at h
    exact (Option.some_inj.mp h).symm
  refine ⟨⟨ctx, kv, a, cache, scales⟩, rfl, ⟨hkv, ha, ⟨n, hn, hcache⟩, ⟨n', hn', hscales⟩⟩, ?_⟩
  exact
    { ctx := rfl
      x := length_zeros hx
      xb := length_zeros hxb
      xb2 := length_zeros hxb2
      hb := length_zeros hhb
      hb2 := length_zeros hhb2
      xqQ := length_zeros hxqQ
      xqS := (length_zeros hxqS).trans (hdiv hg)
      hqQ := length_zeros hhqQ
      hqS := (length_zeros hhqS).trans (hdiv hg')
      q := length_zeros hq
      k := length_zeros hk
      v := length_zeros hv
      att := length_zeros hatt
      logits := length_zeros hlogits
      keyCache := by rintro rfl; exact length_zeros hkeyCache
      valueCache := by rintro rfl; exact length_zeros hvalueCache
      keyQ := by rintro rfl; exact length_zeros hkeyQ
      valQ := by rintro rfl; exact length_zeros hvalQ
      keyS := by rintro rfl; exact length_zeros hkeyS
      valS := by rintro rfl; exact length_zeros hvalS }

/-! ## Rotation -/

variable {c : Config} {z : Sizes}

/-- A rotation takes two numbers. -/
theorem reaches_rotate {fcr fci : F} {i n : ℕ} {xs : List F} (hxs : xs.length = n)
    (hn : n < 2 ^ M.width) :
    Reaches (fun r => r.length = n) (i + 1 < n) (i + 1 < n) (rotate ops M.strict fcr fci i xs) := by
  refine Reaches.mono ((reaches_add i 1).bind_eq <| (reaches_get _).bind fun v0 _ =>
    (reaches_get _).bind fun v1 _ => (reaches_setAt i _).bind fun ys hys =>
      Reaches.mono (reaches_setAt (i + 1) _) (fun _ hr => Eq.trans hr (Eq.trans hys hxs))
        (fun (h : i + 1 < n) => by omega) fun _ => trivial) (fun _ h => h) ?_ ?_
  · intro h
    exact ⟨by omega, by omega, by omega, by omega, h⟩
  · rintro ⟨-, -, h, -⟩
    omega

/-- A pair of the query is rotated, and one of the key while the keys last. -/
theorem reaches_ropePair {headSize pos i : ℕ} (hhead : 0 < headSize) {s : RunState F}
    (hs : s.Sized c z) (hdim : c.dim < 2 ^ M.width) (hkv : z.kv < 2 ^ M.width) :
    Reaches (RunState.Sized c z) (i + 1 < c.dim ∧ (i < z.kv → i + 1 < z.kv))
      (i + 1 < c.dim ∧ (i < z.kv → i + 1 < z.kv))
      (ropePair ops M.strict z.kv headSize pos i s) := by
  refine Reaches.mono ((reaches_mod i headSize).bind_eq <| reaches_upTo (fun vsel _ s hs =>
    (?_ : Reaches _ (if vsel = 0 then i + 1 < c.dim else i + 1 < z.kv)
      (if vsel = 0 then i + 1 < c.dim else i + 1 < z.kv) _)) hs) (fun _ h => h) ?_ ?_
  · by_cases hzero : vsel = 0
    · rw [if_pos hzero, if_pos hzero]
      exact Reaches.mono ((reaches_rotate hs.q hdim).bind fun q hq =>
        Reaches.pure { hs with q := hq }) (fun _ h => h) (fun h => ⟨h, trivial⟩) And.left
    · rw [if_neg hzero, if_neg hzero]
      exact Reaches.mono ((reaches_rotate hs.k hkv).bind fun k hk =>
        Reaches.pure { hs with k := hk }) (fun _ h => h) (fun h => ⟨h, trivial⟩) And.left
  · rintro ⟨hq, hk⟩
    refine ⟨hhead.ne', fun vsel hvsel => ?_⟩
    split_ifs with hzero
    · exact hq
    · split_ifs at hvsel with hi
      · exact hk hi
      · omega
  · rintro ⟨-, h⟩
    refine ⟨?_, fun hi => ?_⟩
    · simpa using h 0 (by split_ifs <;> decide)
    · simpa using h 1 (by rw [if_pos hi]; decide)

/-- Pairs fit into the two vectors exactly if both have even lengths. -/
theorem reaches_rope {headSize pos : ℕ} (hhead : 0 < headSize) {s : RunState F}
    (hs : s.Sized c z) (hdim : c.dim < 2 ^ M.width) (hkv : z.kv < 2 ^ M.width) :
    Reaches (RunState.Sized c z) (2 ∣ c.dim ∧ 2 ∣ z.kv) (2 ∣ c.dim ∧ (z.kv ≤ c.dim → 2 ∣ z.kv))
      (rope ops M.strict c.dim z.kv headSize pos s) := by
  refine Reaches.mono (reaches_whileBelow (by decide) (fun i _ s hs =>
    reaches_ropePair hhead hs hdim hkv) hs) (fun _ h => h) ?_ ?_
  · rintro ⟨⟨d, hd⟩, ⟨k, hk⟩⟩ t ht
    exact ⟨⟨by omega, by omega⟩, by omega⟩
  · intro h
    refine ⟨?_, fun hle => ?_⟩
    · by_contra hodd
      have := (h (c.dim / 2) (by omega)).1
      omega
    · by_contra hodd
      rcases hle.lt_or_eq with hlt | heq
      · have := (h (z.kv / 2) (by omega)).2 (by omega)
        omega
      · have := (h (c.dim / 2) (by omega)).1
        omega

/-! ## The cache -/

/-- A key or a value goes into its row of the cache as bytes, with a scale for each head. -/
theorem reaches_storeInt8 {kv headSize nkv row si : ℕ} {x : List F} {cache : List Int8}
    {scales : List F} (hhead : 0 < headSize) (hx : x.length = kv) (hkv : kv / headSize ≤ nkv)
    (hcache : cache.length < 2 ^ M.width) (hscales : scales.length < 2 ^ M.width)
    (hkvw : kv < 2 ^ M.width) :
    Reaches (fun p => p.1.length = cache.length ∧ p.2.length = scales.length)
      (row + kv ≤ cache.length ∧ si + nkv ≤ scales.length) (row + kv ≤ cache.length)
      (storeInt8 ops M.strict kv headSize nkv row si x cache scales) := by
  refine Reaches.mono ((reaches_add row kv).bind_eq <| (reaches_slice _ _).bind fun q hq =>
    (reaches_add si nkv).bind_eq <| (reaches_slice _ _).bind fun sc hsc =>
    (reaches_slice _ _).bind fun y hy =>
    (reaches_quantize (n := kv) (m := nkv) hhead (by omega) (by omega) (by omega) hkv hkvw).bind
      fun p hp => Reaches.pure ⟨length_splice (by omega), length_splice (by omega)⟩)
    (fun _ h => h) ?_ ?_
  · rintro ⟨hrow, hsi⟩
    exact ⟨by omega, ⟨by omega, hrow⟩, by omega, ⟨by omega, hsi⟩, ⟨by omega, hx.ge⟩, trivial,
      trivial⟩
  · rintro ⟨-, ⟨-, h⟩, -⟩
    exact h

/-- Or as words. -/
theorem reaches_storeF32 {kv row : ℕ} {x cache : List F} (hx : x.length = kv)
    (hcache : cache.length < 2 ^ M.width) :
    Reaches (fun r => r.length = cache.length) (row + kv ≤ cache.length) (row + kv ≤ cache.length)
      (storeF32 M.strict kv row x cache) := by
  refine Reaches.mono ((reaches_add row kv).bind_eq <| (reaches_slice _ _).bind fun dst hdst =>
    (reaches_slice _ _).bind fun y hy => Reaches.mono ((reaches_copyFromSlice y).bind fun r hr =>
      Reaches.pure (length_splice (by omega))) (fun _ h => h)
      (fun (_ : True) => ⟨by omega, trivial⟩) fun _ => trivial)
    (fun _ h => h) ?_ ?_
  · intro h
    exact ⟨by omega, ⟨by omega, h⟩, ⟨by omega, hx.ge⟩, trivial⟩
  · rintro ⟨-, ⟨-, h⟩, -⟩
    exact h

/-- The row of this position lies in the cache. -/
theorem reaches_appendKv {headSize l pos : ℕ} (hhead : 0 < headSize) {s : RunState F}
    (hs : s.Sized c z) (hkv : z.kv / headSize ≤ c.nKvHeads) (hkvw : z.kv < 2 ^ M.width)
    (hcache : z.cache < 2 ^ M.width) (hscales : z.scales < 2 ^ M.width) :
    Reaches (RunState.Sized c z)
      (l * z.ctx < 2 ^ M.width ∧ l * z.ctx * z.kv + pos * z.kv + z.kv ≤ z.cache ∧
        (l * z.ctx + pos) * c.nKvHeads + c.nKvHeads ≤ z.scales ∧
        l * z.ctx + pos < 2 ^ M.width)
      (l * z.ctx * z.kv + pos * z.kv + z.kv ≤ z.cache)
      (appendKv ops M.strict c z.kv headSize l pos s) := by
  have hctx := hs.ctx
  unfold appendKv
  rw [hctx]
  refine Reaches.mono ((reaches_mul l z.ctx).bind_eq <| (reaches_mul _ z.kv).bind_eq <|
    (reaches_mul pos z.kv).bind_eq <| (reaches_add _ _).bind_eq
      (?_ : Reaches (RunState.Sized c z)
        (l * z.ctx < 2 ^ M.width ∧ l * z.ctx * z.kv + pos * z.kv + z.kv ≤ z.cache ∧
          (l * z.ctx + pos) * c.nKvHeads + c.nKvHeads ≤ z.scales ∧ l * z.ctx + pos < 2 ^ M.width)
        (l * z.ctx * z.kv + pos * z.kv + z.kv ≤ z.cache) _)) (fun _ h => h)
    (fun h => ⟨h.1, by omega, by omega, by omega, h⟩) fun h => h.2.2.2.2
  -- both kinds of cache are laid out in rows of one position
  by_cases hint : s.int8 = true
  · rw [if_pos hint]
    have hkeyQ := hs.keyQ hint
    have hvalQ := hs.valQ hint
    have hkeyS := hs.keyS hint
    have hvalS := hs.valS hint
    refine Reaches.mono ((reaches_mul l z.ctx).bind_eq <| (reaches_add _ pos).bind_eq <|
      (reaches_mul _ _).bind_eq <|
      (reaches_storeInt8 hhead hs.k hkv (by omega) (by omega) hkvw).bind
        fun p hp => (reaches_storeInt8 hhead hs.v hkv (by omega) (by omega) hkvw).bind fun p' hp' =>
          Reaches.pure { hs with
            ctx := rfl
            keyQ := fun _ => hp.1.trans hkeyQ
            keyS := fun _ => hp.2.trans hkeyS
            valQ := fun _ => hp'.1.trans hvalQ
            valS := fun _ => hp'.2.trans hvalS }) (fun _ h => h) ?_ ?_
    · rintro ⟨hl, hrow, hsi, hpos⟩
      exact ⟨hl, hpos, by omega, ⟨by omega, by omega⟩, ⟨by omega, by omega⟩, trivial⟩
    · rintro ⟨-, -, -, hrow, -⟩
      omega
  · rw [if_neg hint]
    have hkey := hs.keyCache (Bool.eq_false_iff.mpr hint)
    have hval := hs.valueCache (Bool.eq_false_iff.mpr hint)
    refine Reaches.mono ((reaches_storeF32 hs.k (by omega)).bind fun keyCache hk =>
      (reaches_storeF32 hs.v (by omega)).bind fun valueCache hv => Reaches.pure { hs with
        ctx := rfl
        keyCache := fun _ => hk.trans hkey
        valueCache := fun _ => hv.trans hval }) (fun _ h => h) ?_ ?_
    · rintro ⟨-, hrow, -⟩
      exact ⟨by omega, by omega, trivial⟩
    · rintro ⟨hrow, -⟩
      omega

/-! ## Attention -/

/-- The product of a head's query with a cached key. -/
theorem reaches_dot {α : Type} {term : F → α → F} {qoff koff n : ℕ} {q : List F} {cache : List α}
    (hq : q.length < 2 ^ M.width) (hcache : cache.length < 2 ^ M.width) :
    Reaches (fun _ => True) (qoff + n ≤ q.length ∧ koff + n ≤ cache.length)
      (0 < n → koff + n ≤ cache.length) (dot ops M.strict term qoff koff n q cache) := by
  refine Reaches.mono (reaches_upTo (fun j _ _ (_ : True) => (reaches_add qoff j).bind_eq <|
    (reaches_get _).bind fun a _ => (reaches_add koff j).bind_eq <|
    (reaches_get _).bind fun b _ => Reaches.pure trivial) trivial) (fun _ _ => trivial) ?_ ?_
  · rintro ⟨hqoff, hkoff⟩ j hj
    exact ⟨by omega, by omega, by omega, by omega, trivial⟩
  · intro h hn
    obtain ⟨-, -, -, hlast, -⟩ := h (n - 1) (by omega)
    omega

/-- The cached value of a head, added with its weight. -/
theorem reaches_blend {α : Type} {term : α → F} {xboff voff n m : ℕ} {cache : List α}
    {xb : List F} (hxb : xb.length = m) (hm : m < 2 ^ M.width)
    (hcache : cache.length < 2 ^ M.width) :
    Reaches (fun r => r.length = m) (xboff + n ≤ m ∧ voff + n ≤ cache.length) True
      (blend ops M.strict term xboff voff n cache xb) := by
  refine Reaches.mono (reaches_upTo (fun j hj ys hys => Reaches.mono
    ((reaches_add xboff j).bind_eq <| (reaches_get _).bind fun b _ =>
      (reaches_add voff j).bind_eq <| (reaches_get _).bind fun v _ => reaches_setAt _ _)
      (fun _ hr => Eq.trans hr hys)
      (fun (h : xboff + n ≤ m ∧ voff + n ≤ cache.length) =>
        ⟨by omega, by omega, by omega, by omega, by omega⟩) fun _ => trivial) hxb)
    (fun _ h => h) (fun h _ _ => h) fun _ => trivial

/-- The scale of a head at a cached position. -/
theorem reaches_cachedScale {kvMul l t h ctx : ℕ} {scales : List F}
    (hscales : scales.length < 2 ^ M.width) :
    Reaches (fun _ => True)
      (0 < kvMul ∧ l * ctx < 2 ^ M.width ∧ l * ctx + t < 2 ^ M.width ∧
        (l * ctx + t) * c.nKvHeads + h / kvMul < scales.length) True
      (cachedScale M.strict c kvMul l t h ctx scales) := by
  refine Reaches.mono ((reaches_mul l ctx).bind_eq <| (reaches_add _ t).bind_eq <|
    (reaches_mul _ _).bind_eq <| (reaches_div h kvMul).bind_eq <| (reaches_add _ _).bind_eq <|
    reaches_get _) (fun _ h => h) ?_ fun _ => trivial
  rintro ⟨hmul, hl, hlt, hidx⟩
  have hlast := hidx.trans hscales
  exact ⟨hl, hlt, (Nat.le_add_right _ _).trans_lt hlast, hmul.ne', hlast, hidx⟩

/-! ### Heads -/

/-- What head `h` reads and writes at position `t`. -/
structure HeadFits (M : Machine) (c : Config) (z : Sizes) (headSize kvMul l h qoff aoff kvh t : ℕ) :
    Prop where
  mul : 0 < kvMul
  query : qoff + headSize ≤ c.dim
  score : aoff + t < z.att
  cached : l * z.ctx * z.kv + t * z.kv + kvh + headSize ≤ z.cache
  rows : l * z.ctx + t < 2 ^ M.width
  scale : (l * z.ctx + t) * c.nKvHeads + h / kvMul < z.scales

variable {headSize kvMul l h qoff aoff kvh t : ℕ}

/-- The score of a head against one position, for both kinds of cache. -/
theorem reaches_headScore (aoff kvh : ℕ) {koff : ℕ} (hdim : c.dim < 2 ^ M.width)
    (hcache : z.cache < 2 ^ M.width) (hscales : z.scales < 2 ^ M.width) {s : RunState F}
    (hs : s.Sized c z) :
    Reaches (fun _ => True)
      (HeadFits M c z headSize kvMul l h qoff aoff kvh t ∧ koff + headSize ≤ z.cache)
      (0 < headSize → koff + headSize ≤ z.cache)
      (headScore ops M.strict c headSize kvMul l h t qoff koff s) := by
  have hq := hs.q
  unfold headScore
  rw [hs.ctx]
  split_ifs with hint
  · have hkeyQ := hs.keyQ hint
    have hkeyS := hs.keyS hint
    refine Reaches.mono ((reaches_cachedScale (by omega)).bind fun ks _ =>
      reaches_dot (by omega) (by omega)) (fun _ h => h) ?_ (fun hn => hkeyQ ▸ hn.2)
    rintro ⟨hf, hcached⟩
    have hrows := hf.rows
    exact ⟨⟨hf.mul, by omega, hrows, hkeyS ▸ hf.scale⟩, hq ▸ hf.query, hkeyQ ▸ hcached⟩
  · have hkey := hs.keyCache (Bool.eq_false_iff.mpr hint)
    refine Reaches.mono (reaches_dot (by omega) (by omega)) (fun _ h => h) ?_ (fun hn => hkey ▸ hn)
    exact fun hf => ⟨hq ▸ hf.1.query, hkey ▸ hf.2⟩

/-- It is kept in the row of the head. -/
theorem reaches_scoreAt (hdim : c.dim < 2 ^ M.width) (hatt : z.att < 2 ^ M.width)
    (hcache : z.cache < 2 ^ M.width) (hscales : z.scales < 2 ^ M.width) {s : RunState F}
    (hs : s.Sized c z) :
    Reaches (RunState.Sized c z) (HeadFits M c z headSize kvMul l h qoff aoff kvh t)
      (0 < headSize → l * z.ctx * z.kv + t * z.kv + kvh + headSize ≤ z.cache)
      (scoreAt ops M.strict c z.kv headSize kvMul (l * z.ctx * z.kv) l h qoff aoff kvh t s) := by
  refine Reaches.mono ((reaches_mul t z.kv).bind_eq <| (reaches_add _ _).bind_eq <|
    (reaches_add _ kvh).bind_eq <| (reaches_headScore aoff kvh hdim hcache hscales hs).bind
      fun score _ => (reaches_add aoff t).bind_eq <| (reaches_setAt _ _).bind fun att hlen =>
        Reaches.pure { hs with att := hlen.trans hs.att })
    (fun _ h => h) ?_ fun hn => hn.2.2.2.1
  intro hf
  have hcached := hf.cached
  have hsc := hf.score
  exact ⟨by omega, by omega, by omega, ⟨hf, hcached⟩, by omega, hs.att ▸ hsc, trivial⟩

/-- What one position adds to the output of a head, for both kinds of cache. -/
theorem reaches_headBlend (aoff kvh : ℕ) {voff : ℕ} {a : F} (hdim : c.dim < 2 ^ M.width)
    (hcache : z.cache < 2 ^ M.width) (hscales : z.scales < 2 ^ M.width) {s : RunState F}
    (hs : s.Sized c z) :
    Reaches (fun xb => xb.length = c.dim)
      (HeadFits M c z headSize kvMul l h qoff aoff kvh t ∧ voff + headSize ≤ z.cache) True
      (headBlend ops M.strict c headSize kvMul l h t qoff voff a s) := by
  unfold headBlend
  rw [hs.ctx]
  split_ifs with hint
  · have hvalQ := hs.valQ hint
    have hvalS := hs.valS hint
    refine Reaches.mono ((reaches_cachedScale (by omega)).bind fun vs _ =>
      reaches_blend hs.xb hdim (by omega)) (fun _ h => h) ?_ fun _ => trivial
    rintro ⟨hf, hcached⟩
    have hrows := hf.rows
    exact ⟨⟨hf.mul, by omega, hrows, hvalS ▸ hf.scale⟩, hf.query, hvalQ ▸ hcached⟩
  · have hval := hs.valueCache (Bool.eq_false_iff.mpr hint)
    refine Reaches.mono (reaches_blend hs.xb hdim (by omega)) (fun _ h => h) ?_ fun _ => trivial
    exact fun hf => ⟨hf.1.query, hval ▸ hf.2⟩

/-- With the weight that the softmax gave the position. -/
theorem reaches_blendAt (hdim : c.dim < 2 ^ M.width) (hatt : z.att < 2 ^ M.width)
    (hcache : z.cache < 2 ^ M.width) (hscales : z.scales < 2 ^ M.width) {s : RunState F}
    (hs : s.Sized c z) :
    Reaches (RunState.Sized c z) (HeadFits M c z headSize kvMul l h qoff aoff kvh t) True
      (blendAt ops M.strict c z.kv headSize kvMul (l * z.ctx * z.kv) l h qoff aoff kvh t s) := by
  refine Reaches.mono ((reaches_mul t z.kv).bind_eq <| (reaches_add _ _).bind_eq <|
    (reaches_add _ kvh).bind_eq <| (reaches_add aoff t).bind_eq <| (reaches_get _).bind fun a _ =>
    (reaches_headBlend aoff kvh hdim hcache hscales hs).bind fun xb hxb =>
      Reaches.pure { hs with xb := hxb })
    (fun _ h => h) ?_ fun _ => trivial
  intro hf
  have hcached := hf.cached
  have hsc := hf.score
  exact ⟨by omega, by omega, by omega, by omega, hs.att ▸ hsc, ⟨hf, hcached⟩, trivial⟩

/-! ### One head -/

/-- The softmax runs over the positions up to the current one. -/
theorem reaches_weighScores {pos : ℕ} (hatt : z.att < 2 ^ M.width) {s : RunState F}
    (hs : s.Sized c z) :
    Reaches (RunState.Sized c z) (aoff + pos + 1 ≤ z.att) (aoff + pos + 1 ≤ z.att)
      (weighScores ops M.strict aoff pos s) := by
  have hlen := hs.att
  refine Reaches.mono ((reaches_add aoff pos).bind_eq <| (reaches_add _ 1).bind_eq <|
    (reaches_slice _ _).bind fun row hrow => Reaches.pure { hs with
      att := (length_splice (by rw [length_softmax]; omega)).trans hs.att }) (fun _ h => h) ?_ ?_
  · intro h
    exact ⟨by omega, by omega, ⟨by omega, by omega⟩, trivial⟩
  · rintro ⟨-, -, ⟨-, h⟩, -⟩
    omega

/-- The output of a head starts from zero. -/
theorem reaches_clearHead {xboff : ℕ} {xb : List F} {m : ℕ} (hxb : xb.length = m)
    (hm : m < 2 ^ M.width) :
    Reaches (fun r => r.length = m) (xboff + headSize ≤ m) True
      (clearHead ops M.strict xboff headSize xb) := by
  refine Reaches.mono (reaches_upTo (fun j hj ys hys =>
    (?_ : Reaches _ (xboff + headSize ≤ m) True _)) hxb) (fun _ h => h) (fun h _ _ => h)
    fun _ => trivial
  exact Reaches.mono ((reaches_add xboff j).bind_eq (reaches_setAt _ _))
    (fun _ hr => Eq.trans hr hys) (fun h => ⟨by omega, by omega⟩) fun _ => trivial

/-- **One head**: scores for each position, their softmax, and the weighted values. -/
theorem reaches_attendHead {pos : ℕ} (hhead : 0 < headSize) (hdim : c.dim < 2 ^ M.width)
    (hatt : z.att < 2 ^ M.width) (hcache : z.cache < 2 ^ M.width)
    (hscales : z.scales < 2 ^ M.width) {s : RunState F} (hs : s.Sized c z) :
    Reaches (RunState.Sized c z)
      (∀ t ≤ pos,
        HeadFits M c z headSize kvMul l h (h * headSize) (h * z.ctx) (h / kvMul * headSize) t)
      (0 < kvMul ∧ h * z.ctx + pos + 1 ≤ z.att ∧
        l * z.ctx * z.kv + pos * z.kv + h / kvMul * headSize + headSize ≤ z.cache)
      (attendHead ops M.strict c z.kv headSize kvMul (l * z.ctx * z.kv) l pos h s) := by
  unfold attendHead
  rw [hs.ctx]
  refine Reaches.mono ((reaches_mul h headSize).bind_eq <| (reaches_mul h z.ctx).bind_eq <|
    (reaches_div h kvMul).bind_eq <| (reaches_mul _ headSize).bind_eq <|
    (reaches_upTo (fun t _ s hs => reaches_scoreAt hdim hatt hcache hscales hs) hs).bind fun s hs =>
    (reaches_weighScores hatt hs).bind fun s hs => (reaches_mul h headSize).bind_eq <|
    (reaches_clearHead hs.xb hdim).bind fun xb hxb => reaches_upTo (fun t _ s hs =>
      reaches_blendAt hdim hatt hcache hscales hs) { hs with xb := hxb }) (fun _ h => h) ?_ ?_
  · intro hfits
    have hf := hfits pos le_rfl
    have hquery := hf.query
    have hscore := hf.score
    have hcached := hf.cached
    refine ⟨by omega, by omega, hf.mul.ne', by omega, fun t ht => hfits t (by omega), by omega,
      by omega, hquery, fun t ht => hfits t (by omega)⟩
  · rintro ⟨-, -, hmul, -, hscores, hweigh, -⟩
    exact ⟨Nat.pos_of_ne_zero hmul, hweigh, hscores pos (Nat.lt_succ_self pos) hhead⟩

/-! ## The pass -/

/-- The groups of a model. -/
def Model.groups (m : Model) : List QGroup :=
  [m.qTokens, m.wq, m.wk, m.wv, m.wo, m.w1, m.w2, m.w3, m.wcls]

/-- What the reader checks of every buffer that it accepts. -/
structure Model.Loaded (M : Machine) (m : Model) : Prop where
  buf : m.buf.length < 2 ^ M.width
  dim : 0 < m.config.dim
  hidden : 0 < m.config.hiddenDim
  layers : 0 < m.config.nLayers
  heads : 0 < m.config.nHeads
  kvHeads : 0 < m.config.nKvHeads
  vocab : 0 < m.config.vocabSize
  gs : 0 < m.config.groupSize
  dimWord : m.config.dim < 2 ^ M.width
  hiddenWord : m.config.hiddenDim < 2 ^ M.width
  headsDvd : m.config.nHeads ∣ m.config.dim
  groups : ∀ g ∈ m.groups, g.gs = m.config.groupSize ∧ m.config.groupSize ∣ g.sizeEach

/-! ### Products with a tensor -/

/-- The `l`-th tensor of the group lies in the buffer and has the numbers of a matrix. -/
def QGroup.Holds (g : QGroup) (buf : List UInt8) (l d n : ℕ) : Prop :=
  g.base + (l + 1) * g.tensorSize ≤ buf.length ∧ d * n ≤ g.sizeEach

variable {m : Model} (hm : m.Loaded M)

include hm

/-- A product with a tensor of the model. -/
theorem reaches_product {out xs : List F} {xq : List Int8} {g : QGroup} (hg : g ∈ m.groups)
    {n d : ℕ} (hn : 0 < n) (hd : 0 < d) (hnw : n < 2 ^ M.width) (hout : out.length = d)
    (hxq : xq.length = n) (hxs : xs.length = n / m.config.groupSize) {t : QTensor}
    (ht : t.q.length = g.sizeEach ∧ t.s.length = g.sizeEach / g.gs * 4 ∧
      g.tensorSize < 2 ^ M.width) :
    Reaches (fun r => r.length = d)
      (m.config.groupSize < 2 ^ 17 ∧ m.config.groupSize ∣ n ∧ d * n ≤ g.sizeEach)
      (m.config.groupSize ∣ n ∧ d * n ≤ g.sizeEach)
      (matmul ops M.strict out xq xs t n d m.config.groupSize) := by
  obtain ⟨hgs, hdvd⟩ := hm.groups g hg
  obtain ⟨hq, hs, hsize⟩ := ht
  unfold QGroup.tensorSize at hsize
  rw [hgs] at hs hsize
  exact reaches_matmul hm.gs hn hd hout hxq hxs hq hs hdvd hsize hnw

/-- The tensors of a model are where its layout puts them. -/
theorem reaches_groupTensor {g : QGroup} (hg : g ∈ m.groups) (l : ℕ) :
    Reaches (fun t => t.q.length = g.sizeEach ∧ t.s.length = g.sizeEach / g.gs * 4 ∧
        g.tensorSize < 2 ^ M.width)
      (g.base + (l + 1) * g.tensorSize ≤ m.buf.length)
      (g.base + (l + 1) * g.tensorSize ≤ m.buf.length) (g.tensor M.strict m.buf l) :=
  reaches_tensor g ((hm.groups g hg).1 ▸ hm.gs) hm.buf l

/-! ### The parts of a layer -/

/-- Query, key and value: a norm, its quantisation, and three products. -/
theorem reaches_project {s : RunState F} (hs : s.Sized m.config z) (hkv : 0 < z.kv) (l : ℕ) :
    Reaches (RunState.Sized m.config z)
      (m.config.groupSize < 2 ^ 17 ∧ m.config.groupSize ∣ m.config.dim ∧
        m.rmsAtt + (l + 1) * m.config.dim * 4 ≤ m.buf.length ∧
        m.wq.Holds m.buf l m.config.dim m.config.dim ∧ m.wk.Holds m.buf l z.kv m.config.dim ∧
        m.wv.Holds m.buf l z.kv m.config.dim)
      (m.config.groupSize ∣ m.config.dim ∧ m.rmsAtt + (l + 1) * m.config.dim * 4 ≤ m.buf.length ∧
        m.wq.Holds m.buf l m.config.dim m.config.dim ∧ m.wk.Holds m.buf l z.kv m.config.dim ∧
        m.wv.Holds m.buf l z.kv m.config.dim)
      (project ops M.strict m z.kv l s) := by
  have hwq : m.wq ∈ m.groups := by simp [Model.groups]
  have hwk : m.wk ∈ m.groups := by simp [Model.groups]
  have hwv : m.wv ∈ m.groups := by simp [Model.groups]
  refine Reaches.mono ((reaches_normRow m hm.buf m.rmsAtt l).bind fun w hw =>
    (reaches_rmsnorm hs.xb hs.x hw.1 hw.2).bind fun xb hxb =>
    (reaches_quantize hm.gs hxb hs.xqQ hs.xqS le_rfl hm.dimWord).bind fun p hp =>
    (reaches_groupTensor hm hwq l).bind fun t ht =>
    (reaches_product hm hwq hm.dim hm.dim hm.dimWord hs.q hp.1 hp.2 ht).bind fun q hq =>
    (reaches_groupTensor hm hwk l).bind fun t ht =>
    (reaches_product hm hwk hm.dim hkv hm.dimWord hs.k hp.1 hp.2 ht).bind fun k hk =>
    (reaches_groupTensor hm hwv l).bind fun t ht =>
    (reaches_product hm hwv hm.dim hkv hm.dimWord hs.v hp.1 hp.2 ht).bind fun v hv =>
    Reaches.pure { hs with xb := hxb, xqQ := hp.1, xqS := hp.2, q := hq, k := hk, v := hv })
    (fun _ h => h) ?_ ?_
  · rintro ⟨hsmall, hdvd, hnorm, hq, hk, hv⟩
    exact ⟨hnorm, trivial, trivial, hq.1, ⟨hsmall, hdvd, hq.2⟩, hk.1, ⟨hsmall, hdvd, hk.2⟩, hv.1,
      ⟨hsmall, hdvd, hv.2⟩, trivial⟩
  · rintro ⟨hnorm, -, -, hq, ⟨hdvd, hq'⟩, hk, ⟨-, hk'⟩, hv, ⟨-, hv'⟩, -⟩
    exact ⟨hdvd, hnorm, ⟨hq, hq'⟩, ⟨hk, hk'⟩, ⟨hv, hv'⟩⟩

/-- **All heads**: induction over them, with the sizes of the state as invariant. -/
theorem reaches_attend {pos l : ℕ} (hhead : 0 < headSize) {s : RunState F}
    (hs : s.Sized m.config z) (hkv : z.kv / headSize ≤ m.config.nKvHeads)
    (hkvw : z.kv < 2 ^ M.width) (hatt : z.att < 2 ^ M.width) (hcache : z.cache < 2 ^ M.width)
    (hscales : z.scales < 2 ^ M.width) :
    Reaches (RunState.Sized m.config z)
      (2 ∣ m.config.dim ∧ 2 ∣ z.kv ∧ (l * z.ctx < 2 ^ M.width ∧
        l * z.ctx * z.kv + pos * z.kv + z.kv ≤ z.cache ∧
        (l * z.ctx + pos) * m.config.nKvHeads + m.config.nKvHeads ≤ z.scales ∧
        l * z.ctx + pos < 2 ^ M.width) ∧
        ∀ h < m.config.nHeads, ∀ t ≤ pos, HeadFits M m.config z headSize kvMul l h (h * headSize)
          (h * z.ctx) (h / kvMul * headSize) t)
      (2 ∣ m.config.dim ∧ (z.kv ≤ m.config.dim → 2 ∣ z.kv) ∧
        l * z.ctx * z.kv + pos * z.kv + z.kv ≤ z.cache ∧
        ∀ h < m.config.nHeads, 0 < kvMul ∧ h * z.ctx + pos + 1 ≤ z.att ∧
          l * z.ctx * z.kv + pos * z.kv + h / kvMul * headSize + headSize ≤ z.cache)
      (attend ops M.strict m.config z.kv kvMul headSize pos l s) := by
  have hheads {s : RunState F} (hs : s.Sized m.config z) : Reaches (RunState.Sized m.config z)
      (∀ h < m.config.nHeads, ∀ t ≤ pos, HeadFits M m.config z headSize kvMul l h (h * headSize)
        (h * z.ctx) (h / kvMul * headSize) t)
      (∀ h < m.config.nHeads, 0 < kvMul ∧ h * z.ctx + pos + 1 ≤ z.att ∧
        l * z.ctx * z.kv + pos * z.kv + h / kvMul * headSize + headSize ≤ z.cache)
      (upTo (attendHead ops M.strict m.config z.kv headSize kvMul (l * z.ctx * z.kv) l pos)
        m.config.nHeads s) :=
    reaches_upTo (fun h _ s hs => reaches_attendHead hhead hm.dimWord hatt hcache hscales hs) hs
  refine Reaches.mono ((reaches_rope hhead hs hm.dimWord hkvw).bind fun s hs =>
    (reaches_appendKv hhead hs hkv hkvw hcache hscales).bind fun s hs =>
    (?_ : Reaches (RunState.Sized m.config z) (l * z.ctx * z.kv < 2 ^ M.width ∧
      l * z.ctx < 2 ^ M.width ∧ ∀ h < m.config.nHeads, ∀ t ≤ pos, HeadFits M m.config z headSize
        kvMul l h (h * headSize) (h * z.ctx) (h / kvMul * headSize) t)
      (∀ h < m.config.nHeads, 0 < kvMul ∧ h * z.ctx + pos + 1 ≤ z.att ∧
        l * z.ctx * z.kv + pos * z.kv + h / kvMul * headSize + headSize ≤ z.cache) _))
    (fun _ h => h) ?_ ?_
  · rw [hs.ctx]
    exact Reaches.mono ((reaches_mul l z.ctx).bind_eq <| (reaches_mul _ z.kv).bind_eq <| hheads hs)
      (fun _ h => h) (fun h => ⟨h.2.1, h.1, h.2.2⟩) fun h => h.2.2
  · rintro ⟨hdim, heven, hrow, hfits⟩
    exact ⟨⟨hdim, heven⟩, hrow, by omega, hrow.1, hfits⟩
  · rintro ⟨⟨hdim, heven⟩, hrow, hfits⟩
    exact ⟨hdim, heven, hrow, hfits⟩

/-- The output of the heads is projected and added back. -/
theorem reaches_projectOut {s : RunState F} (hs : s.Sized m.config z) (l : ℕ) :
    Reaches (RunState.Sized m.config z)
      (m.config.groupSize < 2 ^ 17 ∧ m.config.groupSize ∣ m.config.dim ∧
        m.wo.Holds m.buf l m.config.dim m.config.dim)
      (m.wo.Holds m.buf l m.config.dim m.config.dim) (projectOut ops M.strict m l s) := by
  have hwo : m.wo ∈ m.groups := by simp [Model.groups]
  refine Reaches.mono ((reaches_quantize hm.gs hs.xb hs.xqQ hs.xqS le_rfl hm.dimWord).bind
    fun p hp => (reaches_groupTensor hm hwo l).bind fun t ht =>
    (reaches_product hm hwo hm.dim hm.dim hm.dimWord hs.xb2 hp.1 hp.2 ht).bind fun xb2 hxb2 =>
    (reaches_zipInto hs.x hxb2).bind fun x hx =>
    Reaches.pure { hs with x := hx, xb2 := hxb2, xqQ := hp.1, xqS := hp.2 }) (fun _ h => h) ?_ ?_
  · rintro ⟨hsmall, hdvd, ho⟩
    exact ⟨trivial, ho.1, ⟨hsmall, hdvd, ho.2⟩, trivial, trivial⟩
  · rintro ⟨-, ho, ⟨-, ho'⟩, -⟩
    exact ⟨ho, ho'⟩

/-- The feed-forward part: two products, their gating, and the way back. -/
theorem reaches_feedForward {s : RunState F} (hs : s.Sized m.config z) (l : ℕ) :
    Reaches (RunState.Sized m.config z)
      (m.config.groupSize < 2 ^ 17 ∧ m.config.groupSize ∣ m.config.dim ∧
        m.config.groupSize ∣ m.config.hiddenDim ∧
        m.rmsFfn + (l + 1) * m.config.dim * 4 ≤ m.buf.length ∧
        m.w1.Holds m.buf l m.config.hiddenDim m.config.dim ∧
        m.w3.Holds m.buf l m.config.hiddenDim m.config.dim ∧
        m.w2.Holds m.buf l m.config.dim m.config.hiddenDim)
      (m.config.groupSize ∣ m.config.hiddenDim ∧
        m.rmsFfn + (l + 1) * m.config.dim * 4 ≤ m.buf.length ∧
        m.w1.Holds m.buf l m.config.hiddenDim m.config.dim ∧
        m.w3.Holds m.buf l m.config.hiddenDim m.config.dim ∧
        m.w2.Holds m.buf l m.config.dim m.config.hiddenDim)
      (feedForward ops M.strict m l s) := by
  have hw1 : m.w1 ∈ m.groups := by simp [Model.groups]
  have hw2 : m.w2 ∈ m.groups := by simp [Model.groups]
  have hw3 : m.w3 ∈ m.groups := by simp [Model.groups]
  refine Reaches.mono ((reaches_normRow m hm.buf m.rmsFfn l).bind fun w hw =>
    (reaches_rmsnorm hs.xb hs.x hw.1 hw.2).bind fun xb hxb =>
    (reaches_quantize hm.gs hxb hs.xqQ hs.xqS le_rfl hm.dimWord).bind fun p hp =>
    (reaches_groupTensor hm hw1 l).bind fun t ht =>
    (reaches_product hm hw1 hm.dim hm.hidden hm.dimWord hs.hb hp.1 hp.2 ht).bind fun hb hhb =>
    (reaches_groupTensor hm hw3 l).bind fun t ht =>
    (reaches_product hm hw3 hm.dim hm.hidden hm.dimWord hs.hb2 hp.1 hp.2 ht).bind fun hb2 hhb2 =>
    (reaches_zipInto hhb hhb2).bind fun hb hhb =>
    (reaches_quantize hm.gs hhb hs.hqQ hs.hqS le_rfl hm.hiddenWord).bind fun p' hp' =>
    (reaches_groupTensor hm hw2 l).bind fun t ht =>
    (reaches_product hm hw2 hm.hidden hm.dim hm.hiddenWord hxb hp'.1 hp'.2 ht).bind fun xb hxb =>
    (reaches_zipInto hs.x hxb).bind fun x hx => Reaches.pure { hs with
      x := hx, xb := hxb, xqQ := hp.1, xqS := hp.2, hb := hhb, hb2 := hhb2, hqQ := hp'.1,
      hqS := hp'.2 }) (fun _ h => h) ?_ ?_
  · rintro ⟨hsmall, hdvd, hdvd', hnorm, h1, h3, h2⟩
    exact ⟨hnorm, trivial, trivial, h1.1, ⟨hsmall, hdvd, h1.2⟩, h3.1, ⟨hsmall, hdvd, h3.2⟩, trivial,
      trivial, h2.1, ⟨hsmall, hdvd', h2.2⟩, trivial, trivial⟩
  · rintro ⟨hnorm, -, -, h1, ⟨-, h1'⟩, h3, ⟨-, h3'⟩, -, -, h2, ⟨hdvd, h2'⟩, -⟩
    exact ⟨hdvd, hnorm, ⟨h1, h1'⟩, ⟨h3, h3'⟩, ⟨h2, h2'⟩⟩

/-- The logits: the last norm and the product with the classifier. -/
theorem reaches_classify {s : RunState F} (hs : s.Sized m.config z) :
    Reaches (RunState.Sized m.config z)
      (m.config.groupSize < 2 ^ 17 ∧ m.config.groupSize ∣ m.config.dim ∧
        m.rmsFinal + m.config.dim * 4 ≤ m.buf.length ∧
        m.wcls.Holds m.buf 0 m.config.vocabSize m.config.dim)
      (m.rmsFinal + m.config.dim * 4 ≤ m.buf.length ∧
        m.wcls.Holds m.buf 0 m.config.vocabSize m.config.dim)
      (classify ops M.strict m s) := by
  have hwcls : m.wcls ∈ m.groups := by simp [Model.groups]
  refine Reaches.mono ((reaches_copyFromSlice s.x).bind fun xb hxb =>
    (reaches_rmsFinalRow m hm.buf).bind fun w hw =>
    (reaches_rmsnorm hs.x (hxb.trans hs.xb) hw.1 hw.2).bind fun x hx =>
    (reaches_quantize hm.gs hx hs.xqQ hs.xqS le_rfl hm.dimWord).bind fun p hp =>
    (reaches_groupTensor hm hwcls 0).bind fun t ht =>
    (reaches_product hm hwcls hm.dim hm.vocab hm.dimWord hs.logits hp.1 hp.2 ht).bind
      fun logits hlogits => Reaches.pure { hs with
        x := hx, xb := hxb.trans hs.xb, xqQ := hp.1, xqS := hp.2, logits := hlogits })
    (fun _ h => h) ?_ ?_
  · rintro ⟨hsmall, hdvd, hnorm, hcls⟩
    exact ⟨hs.xb.trans hs.x.symm, hnorm, trivial, trivial, hcls.1, ⟨hsmall, hdvd, hcls.2⟩, trivial⟩
  · rintro ⟨-, hnorm, -, -, hcls, ⟨-, hcls'⟩, -⟩
    exact ⟨hnorm, hcls, hcls'⟩

/-! ### One layer -/

/-- The weights of layer `l` lie in the buffer, with all their numbers. -/
structure Model.HoldsLayer (m : Model) (kv l : ℕ) : Prop where
  rmsAtt : m.rmsAtt + (l + 1) * m.config.dim * 4 ≤ m.buf.length
  rmsFfn : m.rmsFfn + (l + 1) * m.config.dim * 4 ≤ m.buf.length
  wq : m.wq.Holds m.buf l m.config.dim m.config.dim
  wk : m.wk.Holds m.buf l kv m.config.dim
  wv : m.wv.Holds m.buf l kv m.config.dim
  wo : m.wo.Holds m.buf l m.config.dim m.config.dim
  w1 : m.w1.Holds m.buf l m.config.hiddenDim m.config.dim
  w2 : m.w2.Holds m.buf l m.config.dim m.config.hiddenDim
  w3 : m.w3.Holds m.buf l m.config.hiddenDim m.config.dim

/-- The cache and the scores have room for layer `l` at a position. -/
structure Sizes.HoldsLayer (M : Machine) (c : Config) (z : Sizes) (kvMul headSize pos l : ℕ) :
    Prop where
  word : l * z.ctx < 2 ^ M.width
  row : l * z.ctx * z.kv + pos * z.kv + z.kv ≤ z.cache
  scale : (l * z.ctx + pos) * c.nKvHeads + c.nKvHeads ≤ z.scales
  rows : l * z.ctx + pos < 2 ^ M.width
  heads : ∀ h < c.nHeads, ∀ t ≤ pos, HeadFits M c z headSize kvMul l h (h * headSize)
    (h * z.ctx) (h / kvMul * headSize) t

/-- What the attention of layer `l` needs to run. -/
structure Sizes.NeedsLayer (c : Config) (z : Sizes) (kvMul headSize pos l : ℕ) : Prop where
  row : l * z.ctx * z.kv + pos * z.kv + z.kv ≤ z.cache
  heads : ∀ h < c.nHeads, 0 < kvMul ∧ h * z.ctx + pos + 1 ≤ z.att ∧
    l * z.ctx * z.kv + pos * z.kv + h / kvMul * headSize + headSize ≤ z.cache

/-- Groups are whole, and pairs are. -/
structure Config.Whole (c : Config) : Prop where
  dim : c.groupSize ∣ c.dim
  hidden : c.groupSize ∣ c.hiddenDim
  even : 2 ∣ c.dim

/-- **One layer**, as its parts one behind the other; each keeps the sizes. -/
theorem reaches_layer {pos : ℕ} (hhead : 0 < headSize) (hkv : z.kv / headSize ≤ m.config.nKvHeads)
    (hpos : 0 < z.kv) (hkvw : z.kv < 2 ^ M.width) (hatt : z.att < 2 ^ M.width)
    (hcache : z.cache < 2 ^ M.width) (hscales : z.scales < 2 ^ M.width) {s : RunState F}
    (hs : s.Sized m.config z) (l : ℕ) :
    Reaches (RunState.Sized m.config z)
      ((m.config.groupSize < 2 ^ 17 ∧ m.config.Whole ∧ 2 ∣ z.kv) ∧ m.HoldsLayer z.kv l ∧
        z.HoldsLayer M m.config kvMul headSize pos l)
      ((m.config.Whole ∧ (z.kv ≤ m.config.dim → 2 ∣ z.kv)) ∧ m.HoldsLayer z.kv l ∧
        z.NeedsLayer m.config kvMul headSize pos l)
      (layer ops M.strict m z.kv kvMul headSize pos l s) := by
  refine Reaches.mono ((reaches_project hm hs hpos l).bind fun s hs =>
    (reaches_attend hm hhead hs hkv hkvw hatt hcache hscales).bind fun s hs =>
    (reaches_projectOut hm hs l).bind fun s hs => reaches_feedForward hm hs l)
    (fun _ h => h) ?_ ?_
  · rintro ⟨⟨hsmall, hc, heven⟩, hw, hz⟩
    exact ⟨⟨hsmall, hc.dim, hw.rmsAtt, hw.wq, hw.wk, hw.wv⟩,
      ⟨hc.even, heven, ⟨hz.word, hz.row, hz.scale, hz.rows⟩, hz.heads⟩, ⟨hsmall, hc.dim, hw.wo⟩,
      hsmall, hc.dim, hc.hidden, hw.rmsFfn, hw.w1, hw.w3, hw.w2⟩
  · rintro ⟨⟨hdvd, hatt, hwq, hwk, hwv⟩, ⟨hdim, heven, hrow, hheads⟩, hwo, hdvd', hffn, hw1, hw3,
      hw2⟩
    exact ⟨⟨⟨hdvd, hdvd', hdim⟩, heven⟩, ⟨hatt, hffn, hwq, hwk, hwv, hwo, hw1, hw2, hw3⟩,
      ⟨hrow, hheads⟩⟩

/-! ### The whole pass -/

/-- The weights outside the layers lie in the buffer, with all their numbers. -/
structure Model.HoldsEnds (m : Model) (token : ℕ) : Prop where
  tokens : m.qTokens.base + m.qTokens.tensorSize ≤ m.buf.length
  row : (token + 1) * m.config.dim ≤ m.qTokens.sizeEach
  rmsFinal : m.rmsFinal + m.config.dim * 4 ≤ m.buf.length
  wcls : m.wcls.Holds m.buf 0 m.config.vocabSize m.config.dim

/-- The width of keys and values is computed without overflow. -/
theorem kvDim_eq {M' : Machine} (hword : m.config.dim * m.config.nKvHeads < 2 ^ M'.width) :
    m.config.kvDim M' = some m.config.kvWidth :=
  bind_eq_of_some (Machine.mul_of_lt hword) (if_neg hm.heads.ne')

/-- Heads of one size make up the model and its keys. -/
theorem headSize_mul :
    m.config.dim = m.config.nHeads * (m.config.dim / m.config.nHeads) ∧
      m.config.kvWidth = m.config.dim / m.config.nHeads * m.config.nKvHeads := by
  obtain ⟨size, hsize⟩ := hm.headsDvd
  have hdiv : m.config.dim / m.config.nHeads = size := by
    rw [hsize, Nat.mul_div_cancel_left _ hm.heads]
  refine ⟨by rw [hdiv, hsize], ?_⟩
  rw [Config.kvWidth, hdiv, hsize, Nat.mul_assoc, Nat.mul_div_cancel_left _ hm.heads]

/-- **The whole pass**: when it is sure to end, and what it needs to. -/
theorem reaches_forward (hz : z.Allocated M m.config) {s : RunState F}
    (hs : s.Sized m.config z) (token pos : ℕ) :
    Reaches (RunState.Sized m.config z)
      (m.config.dim * m.config.nKvHeads < 2 ^ M.width ∧ m.HoldsEnds token ∧
        m.config.groupSize < 2 ^ 17 ∧ m.config.Whole ∧ 2 ∣ m.config.kvWidth ∧
        ∀ l < m.config.nLayers, m.HoldsLayer m.config.kvWidth l ∧
          z.HoldsLayer M m.config (m.config.nHeads / m.config.nKvHeads)
            (m.config.dim / m.config.nHeads) pos l)
      (m.config.dim * m.config.nKvHeads < 2 ^ M.width ∧ m.HoldsEnds token ∧
        ∀ l < m.config.nLayers,
          (m.config.Whole ∧ (m.config.kvWidth ≤ m.config.dim → 2 ∣ m.config.kvWidth)) ∧
            m.HoldsLayer m.config.kvWidth l ∧
            z.NeedsLayer m.config (m.config.nHeads / m.config.nKvHeads)
              (m.config.dim / m.config.nHeads) pos l)
      (forward ops M.strict m s token pos) := by
  by_cases hword : m.config.dim * m.config.nKvHeads < 2 ^ M.width
  · obtain ⟨hdim, hwidth⟩ := headSize_mul hm
    have hkv : z.kv = m.config.kvWidth :=
      Option.some_inj.mp (hz.kv.symm.trans (kvDim_eq hm hword))
    have hhead : 0 < m.config.dim / m.config.nHeads :=
      Nat.div_pos (Nat.le_of_dvd hm.dim hm.headsDvd) hm.heads
    have hpos : 0 < m.config.kvWidth := hwidth ▸ Nat.mul_pos hhead hm.kvHeads
    have hdiv : m.config.kvWidth / (m.config.dim / m.config.nHeads) ≤ m.config.nKvHeads := by
      rw [hwidth, Nat.mul_div_cancel_left _ hhead]
    have hkvw : m.config.kvWidth < 2 ^ M.width := (Nat.div_le_self _ _).trans_lt hword
    obtain ⟨_, -, hcache⟩ := hz.cache
    obtain ⟨_, -, hscales⟩ := hz.scales
    have hkvDim : m.config.kvDim M.strict = some m.config.kvWidth := kvDim_eq hm hword
    have htokens : m.qTokens ∈ m.groups := List.mem_cons_self
    obtain ⟨hgs, hdvd⟩ := hm.groups _ htokens
    rw [← hkv] at hpos hdiv hkvw hkvDim ⊢
    have hreach : Reaches (· = z.kv) True True (m.config.kvDim M.strict) := by
      rw [hkvDim]
      exact Reaches.pure rfl
    -- the loop over the layers keeps the sizes of the state
    have hlayers {s : RunState F} (hs : s.Sized m.config z) :
        Reaches (RunState.Sized m.config z) _ _ (upTo (layer ops M.strict m z.kv
          (m.config.nHeads / m.config.nKvHeads) (m.config.dim / m.config.nHeads) pos)
          m.config.nLayers s) :=
      reaches_upTo (fun l _ _ hs => reaches_layer hm hhead hdiv hpos hkvw
        (Machine.fit_eq_some hz.att).2 (Machine.fit_eq_some hcache).2
        (Machine.fit_eq_some hscales).2 hs l) hs
    refine Reaches.mono (hreach.bind_eq <|
      (reaches_div _ _).bind_eq <| (reaches_div _ _).bind_eq <|
      (reaches_embedRow hm.gs hgs hdvd hm.dim hm.buf token hs.x).bind fun x hx =>
      (hlayers (s := { s with x }) { hs with x := hx }).bind fun s hs =>
      reaches_classify hm hs) (fun _ h => h) ?_ ?_
    · -- what is enough for each part
      rintro ⟨-, hends, hsmall, hwhole, heven, hlayers⟩
      exact ⟨trivial, hm.kvHeads.ne', hm.heads.ne', ⟨hends.tokens, hends.row⟩,
        fun l hl => ⟨⟨hsmall, hwhole, heven⟩, hlayers l hl⟩, hsmall, hwhole.dim, hends.rmsFinal,
        hends.wcls⟩
    · -- what each part needs
      rintro ⟨-, -, -, ⟨htok, hrow⟩, hlayers, hfinal, hcls⟩
      exact ⟨hword, ⟨htok, hrow, hfinal, hcls⟩, hlayers⟩
  · -- the width of the keys does not fit a word
    have hnone : forward ops M.strict m s token pos = none := by
      have hmul : M.strict.mul m.config.dim m.config.nKvHeads = none := by
        rw [Machine.mul, Machine.fit, Machine.width_strict, if_neg hword]
        rfl
      rw [forward, Config.kvDim, hmul]
      rfl
    rw [hnone]
    exact Reaches.mk (fun _ h => by cases h) (fun h => absurd h.1 hword) (fun _ h => by cases h)

end TinyLlm
