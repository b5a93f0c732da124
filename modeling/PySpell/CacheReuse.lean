/-
# What the logits depend on

A `RunState` is allocated for a bound on the positions and is used again for one prompt after
another, and nothing is cleared in between.  Two states of one model, with bounds and pasts of
their own, are run on the same tokens from position `0` on: their logits are the same
(`logits_of_tokens`).

`Alike` is the invariant: the residual stream agrees, and so does what the caches hold of the
positions that were written.  The scratch buffers may hold anything, since every part of the
pass fills what it reads.
-/
import PySpell.Lib.Lockstep
import PySpell.Runnable

open Checked

namespace TinyLlm

variable {F : Type} {ops : FloatOps F} {M : Machine}

/-! ## Buffers that are filled -/

theorem agree_rmsnorm {out out' x : List F} (w : List UInt8) (h : out.length = x.length)
    (h' : out'.length = x.length) :
    Agree (OneArray x.length) (rmsnorm ops M out x w) (rmsnorm ops M out' x w) :=
  agree_fill (fun _ _ _ _ hxy => (Agree.refl _).bind_eq fun _ => (Agree.refl _).bind_eq fun _ =>
    (Agree.refl _).bind_eq fun _ => hxy.setAt _) h h'

theorem agree_matmul {out out' : List F} {d : ℕ} (xq : List Int8) (xs : List F) (w : QTensor)
    (n gs : ℕ) (h : out.length = d) (h' : out'.length = d) :
    Agree (OneArray d) (matmul ops M out xq xs w n d gs) (matmul ops M out' xq xs w n d gs) :=
  agree_fill (fun _ _ _ _ hxy => (Agree.refl _).bind_eq fun _ => (Agree.refl _).bind_eq fun _ =>
    hxy.setAt _) h h'

theorem agree_embedRow {m : Model} {out out' : List F} (token : ℕ) (h : out.length = m.config.dim)
    (h' : out'.length = m.config.dim) :
    Agree (OneArray m.config.dim) (m.embedRow M ops token out) (m.embedRow M ops token out') :=
  (Agree.refl _).bind_eq fun _ => (Agree.refl _).bind_eq fun _ =>
    agree_fill (fun _ _ _ _ hxy => (Agree.refl _).bind_eq fun _ =>
      (Agree.refl _).bind_eq fun _ => (Agree.refl _).bind_eq fun _ =>
      (Agree.refl _).bind_eq fun _ => hxy.setAt _) h h'

/-- The values and the scales, up to a group. -/
structure GroupsTo (n gs g : ℕ) (p p' : List Int8 × List F) : Prop where
  values : SameTo n (g * gs) p.1 p'.1
  scales : SameTo (n / gs) g p.2 p'.2

/-- **A quantized vector** does not depend on the buffers that it is put into. -/
theorem agree_quantize {q q' : List Int8} {s s' x : List F} {gs n : ℕ} (hx : x.length = n)
    (hdvd : gs ∣ n) (hq : q.length = n) (hq' : q'.length = n)
    (hs : s.length = n / gs) (hs' : s'.length = n / gs) :
    Agree Eq (quantize ops M.strict q s x gs) (quantize ops M.strict q' s' x gs) := by
  have hdiv : Agree (fun a b => a = n / gs ∧ b = n / gs) (div x.length gs) (div x.length gs) := by
    intro a b ha hb
    rw [← hx]
    exact ⟨(reaches_div _ _).holds _ ha, (reaches_div _ _).holds _ hb⟩
  refine hdiv.bind ?_
  rintro _ _ ⟨rfl, rfl⟩
  have hgroups : Agree (GroupsTo n gs (n / gs))
      (upTo (quantizeGroup ops M.strict x gs) (n / gs) (q, s))
      (upTo (quantizeGroup ops M.strict x gs) (n / gs) (q', s')) := by
    refine Agree.upTo (fun g _ p p' h => ?_) ⟨?_, sameTo_zero hs hs'⟩
    · obtain ⟨q, s⟩ := p
      obtain ⟨q', s'⟩ := p'
      refine (agree_mul g gs g gs).bind ?_
      rintro _ _ ⟨rfl, rfl⟩
      refine (Agree.refl _).bind_eq fun wmax => ?_
      dsimp only
      refine (h.scales.setAt _).bind fun s s' hscales => ?_
      refine (Agree.upTo (R := fun k => SameTo n (g * gs + k)) (fun k _ xs ys hxy => ?_)
        h.values).bind fun q q' hvalues => Agree.pure ⟨?_, hscales⟩
      · refine (agree_add (g * gs) k (g * gs) k).bind ?_
        rintro _ _ ⟨rfl, rfl⟩
        exact (Agree.refl _).bind_eq fun _ => hxy.setAt _
      · rw [Nat.add_one_mul]
        exact hvalues
    · rw [Nat.zero_mul]
      exact sameTo_zero hq hq'
  refine hgroups.mono fun p p' h => ?_
  have hvalues := h.values
  rw [Nat.div_mul_cancel hdvd] at hvalues
  exact Prod.ext hvalues.eq h.scales.eq

/-- The buffers keep their lengths. -/
theorem length_quantize {q q' : List Int8} {s s' x : List F} {gs : ℕ}
    (h : quantize ops M q s x gs = some (q', s')) : q'.length = q.length ∧ s'.length = s.length := by
  obtain ⟨groups, -, h⟩ := Option.bind_eq_some_iff.mp h
  have hgroup (g : ℕ) (p : List Int8 × List F) (hp : p.1.length = q.length ∧ p.2.length = s.length)
      (p' : List Int8 × List F) (hp' : quantizeGroup ops M x gs g p = some p') :
      p'.1.length = q.length ∧ p'.2.length = s.length := by
    obtain ⟨base, -, hp'⟩ := Option.bind_eq_some_iff.mp hp'
    obtain ⟨wmax, -, hp'⟩ := Option.bind_eq_some_iff.mp hp'
    obtain ⟨s₁, hs₁, hp'⟩ := Option.bind_eq_some_iff.mp hp'
    obtain ⟨q₁, hq₁, hp'⟩ := Option.bind_eq_some_iff.mp hp'
    rw [← Option.some_inj.mp hp']
    refine ⟨?_, ((reaches_setAt _ _).holds _ hs₁).trans hp.2⟩
    refine @upTo_inv _ (fun ys => ys.length = q.length) _ gs (fun k ys hys zs hzs => ?_) _ hp.1 _ hq₁
    obtain ⟨i, -, hzs⟩ := Option.bind_eq_some_iff.mp hzs
    obtain ⟨v, -, hzs⟩ := Option.bind_eq_some_iff.mp hzs
    exact ((reaches_setAt _ _).holds _ hzs).trans hys
  exact upTo_inv hgroup ⟨rfl, rfl⟩ _ h

/-! ## The cache, position by position -/

/-- What a cache holds of one position of a layer. -/
inductive CacheRow (F : Type) where
  | f32 (key value : List F)
  | int8 (keyQ valQ : List Int8) (keyS valS : List F)

/-- The rows of a position of layer `l`, in a cache for `n` positions. -/
def RunState.cachedAt (s : RunState F) (n kv nkv l t : ℕ) : CacheRow F :=
  if s.int8 then .int8 (row s.keyQ kv (l * n + t)) (row s.valQ kv (l * n + t))
    (row s.keyS nkv (l * n + t)) (row s.valS nkv (l * n + t))
  else .f32 (row s.keyCache kv (l * n + t)) (row s.valueCache kv (l * n + t))

/-- Rows `i` and `i'` of two arrays were written, with the same numbers. -/
structure Stored {α : Type} (w i i' : ℕ) (xs ys xs' ys' : List α) : Prop where
  same : row xs' w i = row ys' w i'
  left : ∀ k, k ≠ i → row xs' w k = row xs w k
  right : ∀ k, k ≠ i' → row ys' w k = row ys w k

theorem Stored.of_splice {α : Type} {w i i' : ℕ} {xs ys r : List α} (hr : r.length = w)
    (hx : i * w + w ≤ xs.length) (hy : i' * w + w ≤ ys.length) :
    Stored w i i' xs ys (splice xs (i * w) r) (splice ys (i' * w) r) := by
  refine ⟨?_, fun k hk => ?_, fun k hk => ?_⟩
  · rw [row_splice hr hx, row_splice hr hy, if_pos rfl, if_pos rfl]
  · rw [row_splice hr hx, if_neg hk]
  · rw [row_splice hr hy, if_neg hk]

/-- A row of an array is taken out on the two sides. -/
theorem agree_slice {α : Type} (xs ys : List α) (w i i' : ℕ) :
    Agree (fun r r' => (r.length = w ∧ i * w + w ≤ xs.length) ∧
        r'.length = w ∧ i' * w + w ≤ ys.length)
      (slice xs (i * w) (i * w + w)) (slice ys (i' * w) (i' * w + w)) := by
  intro r r' hr hr'
  obtain ⟨hlen, -, hle⟩ := (reaches_slice _ _).holds _ hr
  obtain ⟨hlen', -, hle'⟩ := (reaches_slice _ _).holds _ hr'
  exact ⟨⟨by omega, hle⟩, by omega, hle'⟩

theorem agree_storeF32 (kv i i' : ℕ) (x cache cache' : List F) :
    Agree (Stored kv i i' cache cache') (storeF32 M.strict kv (i * kv) x cache)
      (storeF32 M.strict kv (i' * kv) x cache') := by
  refine (agree_add (i * kv) kv (i' * kv) kv).bind ?_
  rintro _ _ ⟨rfl, rfl⟩
  refine (agree_slice cache cache' kv i i').bind fun dst dst' hdst => ?_
  obtain ⟨⟨-, hle⟩, -, hle'⟩ := hdst
  intro r r' hr hr'
  obtain ⟨y, hy, hr⟩ := Option.bind_eq_some_iff.mp hr
  obtain ⟨y', hy', hr'⟩ := Option.bind_eq_some_iff.mp hr'
  obtain rfl : y = y' := Option.some_inj.mp (hy.symm.trans hy')
  have hlen := ((reaches_slice _ _).holds _ hy).1
  obtain ⟨u, hu, hr⟩ := Option.bind_eq_some_iff.mp hr
  obtain ⟨u', hu', hr'⟩ := Option.bind_eq_some_iff.mp hr'
  unfold copyFromSlice at hu hu'
  split_ifs at hu hu' with hsame hsame'
  rw [← Option.some_inj.mp hr, ← Option.some_inj.mp hr', ← Option.some_inj.mp hu,
    ← Option.some_inj.mp hu']
  exact Stored.of_splice (by omega) hle hle'

theorem agree_storeInt8 {kv headSize nkv : ℕ} (hdvd : headSize ∣ kv) (hnkv : kv / headSize = nkv)
    (i i' : ℕ) (x : List F) (cache cache' : List Int8) (scales scales' : List F) :
    Agree (fun p p' => Stored kv i i' cache cache' p.1 p'.1 ∧ Stored nkv i i' scales scales' p.2 p'.2)
      (storeInt8 ops M.strict kv headSize nkv (i * kv) (i * nkv) x cache scales)
      (storeInt8 ops M.strict kv headSize nkv (i' * kv) (i' * nkv) x cache' scales') := by
  refine (agree_add (i * kv) kv (i' * kv) kv).bind ?_
  rintro _ _ ⟨rfl, rfl⟩
  refine (agree_slice cache cache' kv i i').bind fun q q' hq => ?_
  obtain ⟨⟨hq, hle⟩, hq', hle'⟩ := hq
  refine (agree_add (i * nkv) nkv (i' * nkv) nkv).bind ?_
  rintro _ _ ⟨rfl, rfl⟩
  refine (agree_slice scales scales' nkv i i').bind fun sc sc' hsc => ?_
  obtain ⟨⟨hsc, hsle⟩, hsc', hsle'⟩ := hsc
  intro p p' hp hp'
  obtain ⟨y, hy, hp⟩ := Option.bind_eq_some_iff.mp hp
  obtain ⟨y', hy', hp'⟩ := Option.bind_eq_some_iff.mp hp'
  obtain rfl : y = y' := Option.some_inj.mp (hy.symm.trans hy')
  have hlen := ((reaches_slice _ _).holds _ hy).1
  obtain ⟨⟨u, v⟩, hu, hp⟩ := Option.bind_eq_some_iff.mp hp
  obtain ⟨⟨u', v'⟩, hu', hp'⟩ := Option.bind_eq_some_iff.mp hp'
  have hy : y.length = kv := by omega
  obtain ⟨rfl, rfl⟩ := Prod.mk.inj (agree_quantize hy hdvd hq hq' (hnkv ▸ hsc) (hnkv ▸ hsc') _ _ hu hu')
  rw [← Option.some_inj.mp hp, ← Option.some_inj.mp hp']
  obtain ⟨hu, hv⟩ := length_quantize hu
  exact ⟨Stored.of_splice (hu.trans hq) hle hle', Stored.of_splice (hv.trans hsc) hsle hsle'⟩

/-! ## Attention -/

variable {c : Config} {kv n n' : ℕ} {seen : ℕ → ℕ → Prop}

/-- Two states in the attention of a layer, with caches for `n` and `n'` positions that agree
on what was seen. -/
structure Attending (c : Config) (kv n n' : ℕ) (seen : ℕ → ℕ → Prop) (s s' : RunState F) :
    Prop where
  ctx : s.ctx = n
  ctx' : s'.ctx = n'
  x : s.x = s'.x
  xb : s.xb = s'.xb
  q : s.q = s'.q
  k : s.k = s'.k
  v : s.v = s'.v
  int8 : s.int8 = s'.int8
  cached : ∀ l t, seen l t → s.cachedAt n kv c.nKvHeads l t = s'.cachedAt n' kv c.nKvHeads l t

/-! ### Keys and values of a position -/

theorem Attending.ropePair {headSize pos i : ℕ} {s s' : RunState F}
    (h : Attending c kv n n' seen s s') :
    Agree (Attending c kv n n' seen) (ropePair ops M kv headSize pos i s)
      (ropePair ops M kv headSize pos i s') := by
  refine (Agree.refl _).bind_eq fun headDim => ?_
  refine Agree.upTo (R := fun _ => Attending c kv n n' seen) (fun vsel _ s s' h => ?_) h
  split_ifs
  · rw [h.q]
    exact (Agree.refl _).bind_eq fun q => Agree.pure { h with q := rfl }
  · rw [h.k]
    exact (Agree.refl _).bind_eq fun k => Agree.pure { h with k := rfl }

theorem Attending.rope {headSize pos : ℕ} {s s' : RunState F} (h : Attending c kv n n' seen s s') :
    Agree (Attending c kv n n' seen) (rope ops M c.dim kv headSize pos s)
      (rope ops M c.dim kv headSize pos s') :=
  Agree.whileBelow (fun _ _ _ h => h.ropePair) _ _ h

/-- A position of another layer, or another position, is in another row. -/
theorem row_ne {n l t l' t' : ℕ} (ht : t < n) (ht' : t' < n) (h : ¬(l' = l ∧ t' = t)) :
    l' * n + t' ≠ l * n + t := by
  intro heq
  rcases lt_trichotomy l' l with hl | rfl | hl
  · have := Nat.mul_le_mul_right n hl
    rw [Nat.succ_mul] at this
    omega
  · exact h ⟨rfl, by omega⟩
  · have := Nat.mul_le_mul_right n hl
    rw [Nat.succ_mul] at this
    omega

/-- **The row of this position is added** to what was seen. -/
theorem Attending.appendKv {headSize l pos : ℕ} {s s' : RunState F}
    (h : Attending c kv n n' seen s s') (hdvd : headSize ∣ kv) (hnkv : kv / headSize = c.nKvHeads)
    (hpos : pos < n) (hpos' : pos < n') (hseen : ∀ l t, seen l t → t < n ∧ t < n') :
    Agree (Attending c kv n n' fun l' t => seen l' t ∨ l' = l ∧ t = pos)
      (appendKv ops M.strict c kv headSize l pos s)
      (appendKv ops M.strict c kv headSize l pos s') := by
  -- another row stays, in caches of either length
  have hother : ∀ l' t, seen l' t ∨ l' = l ∧ t = pos → ¬(l' = l ∧ t = pos) →
      l' * n + t ≠ l * n + pos ∧ l' * n' + t ≠ l * n' + pos ∧ seen l' t := by
    intro l' t hor hne
    rcases hor with hor | hor
    · obtain ⟨ht, ht'⟩ := hseen l' t hor
      exact ⟨row_ne hpos ht hne, row_ne hpos' ht' hne, hor⟩
    · exact absurd hor hne
  unfold TinyLlm.appendKv
  rw [h.ctx, h.ctx']
  refine (agree_mul l n l n').bind ?_
  rintro _ _ ⟨rfl, rfl⟩
  refine (agree_mul (l * n) kv (l * n') kv).bind ?_
  rintro _ _ ⟨rfl, rfl⟩
  refine (agree_mul pos kv pos kv).bind ?_
  rintro _ _ ⟨rfl, rfl⟩
  refine (agree_add (l * n * kv) (pos * kv) (l * n' * kv) (pos * kv)).bind ?_
  rintro _ _ ⟨rfl, rfl⟩
  rw [← Nat.add_mul, ← Nat.add_mul, ← h.int8, ← h.k, ← h.v]
  split_ifs with hint
  · -- the cache of bytes: keys and values with their scales
    refine (agree_mul l n l n').bind ?_
    rintro _ _ ⟨rfl, rfl⟩
    refine (agree_add (l * n) pos (l * n') pos).bind ?_
    rintro _ _ ⟨rfl, rfl⟩
    refine (agree_mul _ c.nKvHeads _ c.nKvHeads).bind ?_
    rintro _ _ ⟨rfl, rfl⟩
    refine (agree_storeInt8 hdvd hnkv (l * n + pos) (l * n' + pos) _ _ _ _ _).bind ?_
    rintro ⟨keyQ, keyS⟩ ⟨keyQ', keyS'⟩ ⟨hkeyQ, hkeyS⟩
    refine (agree_storeInt8 hdvd hnkv (l * n + pos) (l * n' + pos) _ _ _ _ _).bind ?_
    rintro ⟨valQ, valS⟩ ⟨valQ', valS'⟩ ⟨hvalQ, hvalS⟩
    refine Agree.pure { h with
      ctx := rfl, ctx' := rfl, k := rfl, v := rfl, int8 := rfl, cached := fun l' t hor => ?_ }
    have hint' : s'.int8 = true := h.int8 ▸ hint
    rw [RunState.cachedAt, RunState.cachedAt, if_pos hint, if_pos hint]
    by_cases heq : l' = l ∧ t = pos
    · obtain ⟨rfl, rfl⟩ := heq
      dsimp only at hkeyQ hkeyS hvalQ hvalS ⊢
      rw [hkeyQ.same, hvalQ.same, hkeyS.same, hvalS.same]
    · obtain ⟨hne, hne', hold⟩ := hother l' t hor heq
      have hcached := h.cached l' t hold
      rw [RunState.cachedAt, RunState.cachedAt, if_pos hint, if_pos hint', CacheRow.int8.injEq]
        at hcached
      dsimp only at hkeyQ hkeyS hvalQ hvalS ⊢
      rw [hkeyQ.left _ hne, hvalQ.left _ hne, hkeyS.left _ hne, hvalS.left _ hne,
        hkeyQ.right _ hne', hvalQ.right _ hne', hkeyS.right _ hne', hvalS.right _ hne',
        hcached.1, hcached.2.1, hcached.2.2.1, hcached.2.2.2]
  · -- the cache of words
    refine (agree_storeF32 kv (l * n + pos) (l * n' + pos) _ _ _).bind fun key key' hkey => ?_
    refine (agree_storeF32 kv (l * n + pos) (l * n' + pos) _ _ _).bind fun value value' hvalue => ?_
    refine Agree.pure { h with
      ctx := rfl, ctx' := rfl, k := rfl, v := rfl, int8 := rfl, cached := fun l' t hor => ?_ }
    have hint' : ¬s'.int8 = true := h.int8 ▸ hint
    rw [RunState.cachedAt, RunState.cachedAt, if_neg hint, if_neg hint]
    by_cases heq : l' = l ∧ t = pos
    · obtain ⟨rfl, rfl⟩ := heq
      dsimp only
      rw [hkey.same, hvalue.same]
    · obtain ⟨hne, hne', hold⟩ := hother l' t hor heq
      have hcached := h.cached l' t hold
      rw [RunState.cachedAt, RunState.cachedAt, if_neg hint, if_neg hint', CacheRow.f32.injEq]
        at hcached
      dsimp only
      rw [hkey.left _ hne, hvalue.left _ hne, hkey.right _ hne', hvalue.right _ hne', hcached.1,
        hcached.2]

/-! ### Positions that agree -/

theorem agree_dot {α : Type} {term : F → α → F} {qoff koff koff' len : ℕ} {q : List F}
    {cache cache' : List α} (h : ∀ j < len, cache[koff + j]? = cache'[koff' + j]?) :
    Agree Eq (dot ops M.strict term qoff koff len q cache)
      (dot ops M.strict term qoff koff' len q cache') := by
  refine Agree.upTo (R := fun _ => Eq) (fun j hj score _ hscore => ?_) rfl
  rw [hscore]
  refine (Agree.refl _).bind_eq fun _ => (Agree.refl _).bind_eq fun _ => ?_
  refine (agree_add koff j koff' j).bind ?_
  rintro _ _ ⟨rfl, rfl⟩
  exact (Agree.of_eq (h j hj)).bind_eq fun _ => Agree.refl _

theorem agree_blend {α : Type} {term : α → F} {xboff voff voff' len : ℕ} {cache cache' : List α}
    {xb : List F} (h : ∀ j < len, cache[voff + j]? = cache'[voff' + j]?) :
    Agree Eq (blend ops M.strict term xboff voff len cache xb)
      (blend ops M.strict term xboff voff' len cache' xb) := by
  refine Agree.upTo (R := fun _ => Eq) (fun j hj xb _ hxb => ?_) rfl
  rw [hxb]
  refine (Agree.refl _).bind_eq fun _ => (Agree.refl _).bind_eq fun _ => ?_
  refine (agree_add voff j voff' j).bind ?_
  rintro _ _ ⟨rfl, rfl⟩
  exact (Agree.of_eq (h j hj)).bind_eq fun _ => Agree.refl _

theorem agree_cachedScale {kvMul l t hd : ℕ} {scales scales' : List F}
    (hrow : row scales c.nKvHeads (l * n + t) = row scales' c.nKvHeads (l * n' + t))
    (hlt : hd / kvMul < c.nKvHeads) :
    Agree Eq (cachedScale M.strict c kvMul l t hd n scales)
      (cachedScale M.strict c kvMul l t hd n' scales') := by
  refine (agree_mul l n l n').bind ?_
  rintro _ _ ⟨rfl, rfl⟩
  refine (agree_add (l * n) t (l * n') t).bind ?_
  rintro _ _ ⟨rfl, rfl⟩
  refine (agree_mul _ c.nKvHeads _ c.nKvHeads).bind ?_
  rintro _ _ ⟨rfl, rfl⟩
  have hdiv : Agree (fun a b => a = hd / kvMul ∧ b = hd / kvMul) (div hd kvMul) (div hd kvMul) :=
    fun a b ha hb => ⟨(reaches_div _ _).holds _ ha, (reaches_div _ _).holds _ hb⟩
  refine hdiv.bind ?_
  rintro _ _ ⟨rfl, rfl⟩
  refine (agree_add _ (hd / kvMul) _ (hd / kvMul)).bind ?_
  rintro _ _ ⟨rfl, rfl⟩
  exact Agree.of_eq (getElem?_of_row hrow hlt)

/-- A head reads within the row of a position. -/
structure HeadWithin (c : Config) (kv headSize kvMul hd kvh : ℕ) : Prop where
  shared : hd / kvMul < c.nKvHeads
  within : kvh + headSize ≤ kv

variable {headSize kvMul l hd kvh t : ℕ}

/-- What is read of two rows that agree, from an offset on. -/
theorem getElem?_offset {α : Type} {xs ys : List α} {w i i' off : ℕ}
    (h : row xs w i = row ys w i') (hoff : off + headSize ≤ w) (j : ℕ) (hj : j < headSize) :
    xs[i * w + off + j]? = ys[i' * w + off + j]? := by
  rw [Nat.add_assoc, Nat.add_assoc]
  exact getElem?_of_row h (by omega)

theorem Attending.headScore {qoff : ℕ} {s s' : RunState F} (h : Attending c kv n n' seen s s')
    (ht : seen l t) (hin : HeadWithin c kv headSize kvMul hd kvh) :
    Agree Eq (headScore ops M.strict c headSize kvMul l hd t qoff ((l * n + t) * kv + kvh) s)
      (headScore ops M.strict c headSize kvMul l hd t qoff ((l * n' + t) * kv + kvh) s') := by
  have hcached := h.cached l t ht
  unfold RunState.cachedAt at hcached
  unfold TinyLlm.headScore
  rw [h.ctx, h.ctx', h.q]
  rw [← h.int8] at hcached ⊢
  split_ifs at hcached ⊢ with hint
  · rw [CacheRow.int8.injEq] at hcached
    exact (agree_cachedScale hcached.2.2.1 hin.shared).bind_eq fun _ =>
      agree_dot (getElem?_offset hcached.1 hin.within)
  · rw [CacheRow.f32.injEq] at hcached
    exact agree_dot (getElem?_offset hcached.1 hin.within)

theorem Attending.headBlend {xboff : ℕ} {a : F} {s s' : RunState F}
    (h : Attending c kv n n' seen s s') (ht : seen l t)
    (hin : HeadWithin c kv headSize kvMul hd kvh) :
    Agree Eq (headBlend ops M.strict c headSize kvMul l hd t xboff ((l * n + t) * kv + kvh) a s)
      (headBlend ops M.strict c headSize kvMul l hd t xboff ((l * n' + t) * kv + kvh) a s') := by
  have hcached := h.cached l t ht
  unfold RunState.cachedAt at hcached
  unfold TinyLlm.headBlend
  rw [h.ctx, h.ctx', h.xb]
  rw [← h.int8] at hcached ⊢
  split_ifs at hcached ⊢ with hint
  · rw [CacheRow.int8.injEq] at hcached
    exact (agree_cachedScale hcached.2.2.2 hin.shared).bind_eq fun _ =>
      agree_blend (getElem?_offset hcached.2.1 hin.within)
  · rw [CacheRow.f32.injEq] at hcached
    exact agree_blend (getElem?_offset hcached.2 hin.within)

/-! ### Scores -/

/-- The scores of a head agree, up to a position. -/
structure Scored (c : Config) (kv n n' : ℕ) (seen : ℕ → ℕ → Prop) (aoff aoff' t : ℕ)
    (s s' : RunState F) : Prop extends Attending c kv n n' seen s s' where
  att : ∀ i < t, s.att[aoff + i]? = s'.att[aoff' + i]?

variable {aoff aoff' : ℕ}

theorem Scored.scoreAt {qoff : ℕ} {s s' : RunState F} (h : Scored c kv n n' seen aoff aoff' t s s')
    (ht : seen l t) (hin : HeadWithin c kv headSize kvMul hd kvh) :
    Agree (Scored c kv n n' seen aoff aoff' (t + 1))
      (scoreAt ops M.strict c kv headSize kvMul (l * n * kv) l hd qoff aoff kvh t s)
      (scoreAt ops M.strict c kv headSize kvMul (l * n' * kv) l hd qoff aoff' kvh t s') := by
  refine (agree_mul t kv t kv).bind ?_
  rintro _ _ ⟨rfl, rfl⟩
  refine (agree_add (l * n * kv) (t * kv) (l * n' * kv) (t * kv)).bind ?_
  rintro _ _ ⟨rfl, rfl⟩
  rw [← Nat.add_mul, ← Nat.add_mul]
  refine (agree_add _ kvh _ kvh).bind ?_
  rintro _ _ ⟨rfl, rfl⟩
  refine (h.toAttending.headScore ht hin).bind_eq fun score => ?_
  refine (agree_add aoff t aoff' t).bind ?_
  rintro _ _ ⟨rfl, rfl⟩
  generalize ops.mul score _ = w
  intro r r' hr hr'
  obtain ⟨att, hatt, hr⟩ := Option.bind_eq_some_iff.mp hr
  obtain ⟨att', hatt', hr'⟩ := Option.bind_eq_some_iff.mp hr'
  rw [← Option.some_inj.mp hr, ← Option.some_inj.mp hr']
  unfold setAt at hatt hatt'
  split_ifs at hatt hatt' with hlt hlt'
  refine ⟨{ h with }, fun i hi => ?_⟩
  dsimp only
  rw [← Option.some_inj.mp hatt, ← Option.some_inj.mp hatt']
  rcases Nat.lt_succ_iff_lt_or_eq.mp hi with hi | rfl
  · rw [List.getElem?_set_ne (by omega), List.getElem?_set_ne (by omega)]
    exact h.att i hi
  · rw [List.getElem?_set_self hlt, List.getElem?_set_self hlt']

/-- The scores up to `pos` agree, and so do the weights that they are turned into. -/
theorem Scored.weighScores {pos : ℕ} {s s' : RunState F}
    (h : Scored c kv n n' seen aoff aoff' (pos + 1) s s') :
    Agree (Scored c kv n n' seen aoff aoff' (pos + 1)) (weighScores ops M.strict aoff pos s)
      (weighScores ops M.strict aoff' pos s') := by
  refine (agree_add aoff pos aoff' pos).bind ?_
  rintro _ _ ⟨rfl, rfl⟩
  refine (agree_add (aoff + pos) 1 (aoff' + pos) 1).bind ?_
  rintro _ _ ⟨rfl, rfl⟩
  intro r r' hr hr'
  obtain ⟨w, hw, hr⟩ := Option.bind_eq_some_iff.mp hr
  obtain ⟨w', hw', hr'⟩ := Option.bind_eq_some_iff.mp hr'
  obtain ⟨hlen, -, hle⟩ := (reaches_slice _ _).holds _ hw
  obtain ⟨hlen', -, hle'⟩ := (reaches_slice _ _).holds _ hw'
  rw [← Option.some_inj.mp hr, ← Option.some_inj.mp hr']
  have hsame : w = w' := by
    unfold slice at hw hw'
    split_ifs at hw hw'
    rw [← Option.some_inj.mp hw, ← Option.some_inj.mp hw']
    apply List.ext_getElem?
    intro j
    rw [List.getElem?_take, List.getElem?_take]
    by_cases hj : j < pos + 1
    · rw [if_pos (by omega), if_pos (by omega), List.getElem?_drop, List.getElem?_drop]
      exact h.att j hj
    · rw [if_neg (by omega), if_neg (by omega)]
  have hsoft : (softmax ops w).length = pos + 1 := by
    rw [length_softmax]
    omega
  refine ⟨{ h with }, fun i hi => ?_⟩
  dsimp only
  rw [← hsame, getElem?_splice (by omega), getElem?_splice (by omega), if_neg (by omega),
    if_pos (by omega), if_neg (by omega), if_pos (by omega), Nat.add_sub_cancel_left,
    Nat.add_sub_cancel_left]

theorem Scored.blendAt {xboff pos : ℕ} {s s' : RunState F}
    (h : Scored c kv n n' seen aoff aoff' (pos + 1) s s') (ht : seen l t) (hpos : t < pos + 1)
    (hin : HeadWithin c kv headSize kvMul hd kvh) :
    Agree (Scored c kv n n' seen aoff aoff' (pos + 1))
      (blendAt ops M.strict c kv headSize kvMul (l * n * kv) l hd xboff aoff kvh t s)
      (blendAt ops M.strict c kv headSize kvMul (l * n' * kv) l hd xboff aoff' kvh t s') := by
  refine (agree_mul t kv t kv).bind ?_
  rintro _ _ ⟨rfl, rfl⟩
  refine (agree_add (l * n * kv) (t * kv) (l * n' * kv) (t * kv)).bind ?_
  rintro _ _ ⟨rfl, rfl⟩
  rw [← Nat.add_mul, ← Nat.add_mul]
  refine (agree_add _ kvh _ kvh).bind ?_
  rintro _ _ ⟨rfl, rfl⟩
  refine (agree_add aoff t aoff' t).bind ?_
  rintro _ _ ⟨rfl, rfl⟩
  refine (Agree.of_eq (h.att t hpos)).bind_eq fun a => ?_
  exact (h.toAttending.headBlend ht hin).bind_eq fun xb => Agree.pure { h with xb := rfl }

/-- **A head attends to what was seen.** -/
theorem Attending.attendHead {pos : ℕ} {s s' : RunState F} (h : Attending c kv n n' seen s s')
    (hseen : ∀ t < pos + 1, seen l t)
    (hin : HeadWithin c kv headSize kvMul hd (hd / kvMul * headSize)) :
    Agree (Attending c kv n n' seen)
      (attendHead ops M.strict c kv headSize kvMul (l * n * kv) l pos hd s)
      (attendHead ops M.strict c kv headSize kvMul (l * n' * kv) l pos hd s') := by
  unfold TinyLlm.attendHead
  rw [h.ctx, h.ctx']
  refine (Agree.refl _).bind_eq fun qoff => ?_
  refine (agree_mul hd n hd n').bind ?_
  rintro _ _ ⟨rfl, rfl⟩
  have hdiv : Agree (fun a b => a = hd / kvMul ∧ b = hd / kvMul) (div hd kvMul) (div hd kvMul) :=
    fun a b ha hb => ⟨(reaches_div _ _).holds _ ha, (reaches_div _ _).holds _ hb⟩
  refine hdiv.bind ?_
  rintro _ _ ⟨rfl, rfl⟩
  refine (agree_mul (hd / kvMul) headSize (hd / kvMul) headSize).bind ?_
  rintro _ _ ⟨rfl, rfl⟩
  have hstart : Scored c kv n n' seen (hd * n) (hd * n') 0 s s' :=
    ⟨h, fun i hi => absurd hi (Nat.not_lt_zero i)⟩
  refine (Agree.upTo (fun t ht _ _ h => h.scoreAt (hseen t ht) hin) hstart).bind fun s s' h => ?_
  refine h.weighScores.bind fun s s' h => ?_
  refine (Agree.refl _).bind_eq fun xboff => ?_
  rw [h.xb]
  refine (Agree.refl _).bind_eq fun xb => ?_
  have hcleared : Scored c kv n n' seen (hd * n) (hd * n') (pos + 1) { s with xb } { s' with xb } :=
    { h with xb := rfl }
  refine (Agree.upTo (R := fun _ => Scored c kv n n' seen (hd * n) (hd * n') (pos + 1))
    (fun t ht _ _ h => ?_) hcleared).mono fun _ _ h => h.toAttending
  exact h.blendAt (hseen t ht) ht hin

/-! ## The pass -/

/-- The sizes of a state, for a model and a position. -/
structure Sizes.Fit (M : Machine) (z : Sizes) (pos : ℕ) : Prop where
  kvWord : z.kv < 2 ^ M.width
  att : z.att < 2 ^ M.width
  cache : z.cache < 2 ^ M.width
  scales : z.scales < 2 ^ M.width
  pos : pos < z.ctx

/-- The shape of the heads: whole groups, and each head with a cached vector of its own size. -/
structure Config.Shared (c : Config) (kv kvMul headSize : ℕ) : Prop where
  whole : c.Whole
  pos : 0 < kv
  head : 0 < headSize
  dvd : headSize ∣ kv
  heads : kv / headSize = c.nKvHeads
  within : ∀ hd < c.nHeads, HeadWithin c kv headSize kvMul hd (hd / kvMul * headSize)

/-! ### States that differ in old positions only -/

/-- The caches agree on what was seen. -/
structure Primed (c : Config) (z z' : Sizes) (seen : ℕ → ℕ → Prop) (s s' : RunState F) : Prop where
  left : s.Sized c z
  right : s'.Sized c z'
  int8 : s.int8 = s'.int8
  cached : ∀ l t, seen l t →
    s.cachedAt z.ctx z.kv c.nKvHeads l t = s'.cachedAt z'.ctx z.kv c.nKvHeads l t

/-- **The invariant**: the residual stream agrees too. -/
structure Alike (c : Config) (z z' : Sizes) (seen : ℕ → ℕ → Prop) (s s' : RunState F) : Prop
    extends Primed c z z' seen s s' where
  x : s.x = s'.x

theorem Alike.mono {z z' : Sizes} {seen' : ℕ → ℕ → Prop} {s s' : RunState F}
    (h : Alike c z z' seen s s') (hseen : ∀ l t, seen' l t → seen l t) :
    Alike c z z' seen' s s' :=
  { h with cached := fun l t ht => h.cached l t (hseen l t ht) }

theorem Attending.alike {z z' : Sizes} {s s' : RunState F}
    (h : Attending c z.kv z.ctx z'.ctx seen s s') (hs : s.Sized c z) (hs' : s'.Sized c z') :
    Alike c z z' seen s s' := ⟨⟨hs, hs', h.int8, h.cached⟩, h.x⟩

variable {m : Model} {z z' : Sizes} {pos : ℕ}

section Layer

variable (hc : m.config.Shared z.kv kvMul headSize)

include hc

/-! ### The parts of a layer -/

theorem Alike.project (hkv : z'.kv = z.kv) {s s' : RunState F}
    (h : Alike m.config z z' seen s s') (l : ℕ) :
    Agree (Attending m.config z.kv z.ctx z'.ctx seen) (project ops M.strict m z.kv l s)
      (project ops M.strict m z.kv l s') := by
  have hs := h.left
  have hs' := h.right
  refine (Agree.refl (m.rmsAttRow M.strict l)).bind_eq fun w => ?_
  rw [← h.x]
  refine (agree_rmsnorm w (hs.xb.trans hs.x.symm) (hs'.xb.trans hs.x.symm)).bind_array
    fun xb hxb => ?_
  refine (agree_quantize (hxb.trans hs.x) hc.whole.dim hs.xqQ hs'.xqQ hs.xqS hs'.xqS).bind_eq
    fun p => ?_
  refine (Agree.refl _).bind_eq fun tq => ?_
  refine (agree_matmul _ _ _ _ _ hs.q hs'.q).bind_array fun q _ => ?_
  refine (Agree.refl _).bind_eq fun tk => ?_
  refine (agree_matmul _ _ _ _ _ hs.k (hs'.k.trans hkv)).bind_array fun k _ => ?_
  refine (Agree.refl _).bind_eq fun tv => ?_
  refine (agree_matmul _ _ _ _ _ hs.v (hs'.v.trans hkv)).bind_array fun v _ => ?_
  exact Agree.pure ⟨hs.ctx, hs'.ctx, rfl, rfl, rfl, rfl, rfl, h.int8, h.cached⟩

theorem Attending.projectOut {s s' : RunState F}
    (h : Attending m.config z.kv z.ctx z'.ctx seen s s') (hs : s.Sized m.config z)
    (hs' : s'.Sized m.config z') (l : ℕ) :
    Agree (Attending m.config z.kv z.ctx z'.ctx seen) (projectOut ops M.strict m l s)
      (projectOut ops M.strict m l s') := by
  unfold TinyLlm.projectOut
  rw [← h.xb, ← h.x]
  refine (agree_quantize hs.xb hc.whole.dim hs.xqQ hs'.xqQ hs.xqS hs'.xqS).bind_eq fun p => ?_
  refine (Agree.refl _).bind_eq fun tw => ?_
  refine (agree_matmul _ _ _ _ _ hs.xb2 hs'.xb2).bind_array fun xb2 _ => ?_
  refine (Agree.refl _).bind_eq fun x => ?_
  exact Agree.pure { h with x := rfl, xb := rfl }

theorem Attending.feedForward {s s' : RunState F}
    (h : Attending m.config z.kv z.ctx z'.ctx seen s s') (hs : s.Sized m.config z)
    (hs' : s'.Sized m.config z') (l : ℕ) :
    Agree (Attending m.config z.kv z.ctx z'.ctx seen) (feedForward ops M.strict m l s)
      (feedForward ops M.strict m l s') := by
  have hxb := hs.xb.trans hs.x.symm
  unfold TinyLlm.feedForward
  rw [← h.xb, ← h.x]
  refine (Agree.refl (m.rmsFfnRow M.strict l)).bind_eq fun w => ?_
  refine (agree_rmsnorm w hxb hxb).bind_array fun xb hxb => ?_
  refine (agree_quantize (hxb.trans hs.x) hc.whole.dim hs.xqQ hs'.xqQ hs.xqS hs'.xqS).bind_eq
    fun p => ?_
  refine (Agree.refl _).bind_eq fun t1 => ?_
  refine (agree_matmul _ _ _ _ _ hs.hb hs'.hb).bind_array fun hb hhb => ?_
  refine (Agree.refl _).bind_eq fun t3 => ?_
  refine (agree_matmul _ _ _ _ _ hs.hb2 hs'.hb2).bind_array fun hb2 hhb2 => ?_
  refine ((Agree.refl _).and_holds (reaches_zipInto hhb hhb2) (reaches_zipInto hhb hhb2)).bind ?_
  rintro hb _ ⟨hhb, -, rfl⟩
  refine (agree_quantize hhb hc.whole.hidden hs.hqQ hs'.hqQ hs.hqS hs'.hqS).bind_eq fun p' => ?_
  refine (Agree.refl _).bind_eq fun t2 => ?_
  refine (Agree.refl _).bind_eq fun xb => ?_
  refine (Agree.refl _).bind_eq fun x => ?_
  exact Agree.pure { h with x := rfl, xb := rfl }

/-- Rotation, the cache and the heads: the row of this position is seen after them. -/
theorem Attending.attend (hz : z.Fit M pos) (hz' : z'.Fit M pos) {l : ℕ} {s s' : RunState F}
    (h : Attending m.config z.kv z.ctx z'.ctx seen s s')
    (hbelow : ∀ l t, seen l t → t < z.ctx ∧ t < z'.ctx) (hseen : ∀ t < pos, seen l t) :
    Agree (Attending m.config z.kv z.ctx z'.ctx fun l' t => seen l' t ∨ l' = l ∧ t = pos)
      (attend ops M.strict m.config z.kv kvMul headSize pos l s)
      (attend ops M.strict m.config z.kv kvMul headSize pos l s') := by
  refine h.rope.bind fun s s' h => ?_
  refine (h.appendKv hc.dvd hc.heads hz.pos hz'.pos hbelow).bind fun s s' h => ?_
  rw [h.ctx, h.ctx']
  refine (agree_mul l z.ctx l z'.ctx).bind ?_
  rintro _ _ ⟨rfl, rfl⟩
  refine (agree_mul (l * z.ctx) z.kv (l * z'.ctx) z.kv).bind ?_
  rintro _ _ ⟨rfl, rfl⟩
  refine Agree.upTo (R := fun _ => Attending m.config z.kv z.ctx z'.ctx
    fun l' t => seen l' t ∨ l' = l ∧ t = pos) (fun hd hhd s s' h => ?_) h
  refine h.attendHead (fun t ht => ?_) (hc.within hd hhd)
  rcases Nat.lt_succ_iff_lt_or_eq.mp ht with ht | rfl
  · exact .inl (hseen t ht)
  · exact .inr ⟨rfl, rfl⟩

/-- **One layer.** -/
theorem Alike.layer (hm : m.Loaded M) (hkv : z'.kv = z.kv) (hz : z.Fit M pos) (hz' : z'.Fit M pos)
    {l : ℕ} {s s' : RunState F} (h : Alike m.config z z' seen s s')
    (hbelow : ∀ l t, seen l t → t < z.ctx ∧ t < z'.ctx) (hseen : ∀ t < pos, seen l t) :
    Agree (Alike m.config z z' fun l' t => seen l' t ∨ l' = l ∧ t = pos)
      (layer ops M.strict m z.kv kvMul headSize pos l s)
      (layer ops M.strict m z.kv kvMul headSize pos l s') := by
  have hpos' : 0 < z'.kv := hkv ▸ hc.pos
  refine ((h.project hc hkv l).and_holds (reaches_project hm h.left hc.pos l)
    (hkv ▸ reaches_project hm h.right hpos' l)).bind ?_
  rintro s s' ⟨hs, hs', h⟩
  refine ((h.attend hc hz hz' hbelow hseen).and_holds
    (reaches_attend hm hc.head hs hc.heads.le hz.kvWord hz.att hz.cache hz.scales)
    (hkv ▸ reaches_attend hm hc.head hs' (hkv ▸ hc.heads.le) hz'.kvWord hz'.att hz'.cache
      hz'.scales)).bind ?_
  rintro s s' ⟨hs, hs', h⟩
  refine ((h.projectOut hc hs hs' l).and_holds (reaches_projectOut hm hs l)
    (reaches_projectOut hm hs' l)).bind ?_
  rintro s s' ⟨hs, hs', h⟩
  refine ((h.feedForward hc hs hs' l).and_holds (reaches_feedForward hm hs l)
    (reaches_feedForward hm hs' l)).mono ?_
  rintro s s' ⟨hs, hs', h⟩
  exact h.alike hs hs'

/-- The classifier: the logits agree. -/
theorem Alike.classify (hm : m.Loaded M) {s s' : RunState F} (h : Alike m.config z z' seen s s') :
    Agree (fun s s' => Primed m.config z z' seen s s' ∧ s.logits = s'.logits)
      (classify ops M.strict m s) (classify ops M.strict m s') := by
  have hs := h.left
  have hs' := h.right
  have hkeep : Agree (fun t t' : RunState F => (t.int8 = t'.int8 ∧ ∀ l i, seen l i →
        t.cachedAt z.ctx z.kv m.config.nKvHeads l i = t'.cachedAt z'.ctx z.kv m.config.nKvHeads l i) ∧
        t.logits = t'.logits) (TinyLlm.classify ops M.strict m s)
        (TinyLlm.classify ops M.strict m s') := by
    have hcopy : copyFromSlice s'.xb s.x = copyFromSlice s.xb s.x := by
      rw [copyFromSlice, copyFromSlice, if_pos (hs.xb.trans hs.x.symm),
        if_pos (hs'.xb.trans hs.x.symm)]
    unfold TinyLlm.classify
    rw [← h.x, hcopy]
    refine ((Agree.refl _).and_holds (reaches_copyFromSlice s.x) (reaches_copyFromSlice s.x)).bind ?_
    rintro xb _ ⟨hxb, -, rfl⟩
    refine (Agree.refl (m.rmsFinalRow M.strict)).bind_eq fun w => ?_
    have hx : s.x.length = xb.length := by rw [hxb, hs.x, hs.xb]
    refine (agree_rmsnorm w hx hx).bind_array fun x hlen => ?_
    have hdim : x.length = m.config.dim := by rw [hlen, hxb, hs.xb]
    refine (agree_quantize hdim hc.whole.dim hs.xqQ hs'.xqQ hs.xqS hs'.xqS).bind_eq fun p => ?_
    refine (Agree.refl _).bind_eq fun tw => ?_
    refine (agree_matmul _ _ _ _ _ hs.logits hs'.logits).bind_array fun logits _ => ?_
    exact Agree.pure ⟨⟨h.int8, h.cached⟩, rfl⟩
  refine (hkeep.and_holds (reaches_classify hm hs) (reaches_classify hm hs')).mono ?_
  rintro t t' ⟨ht, ht', ⟨hint, hcached⟩, hlogits⟩
  exact ⟨⟨ht, ht', hint, hcached⟩, hlogits⟩

/-! ### The whole pass -/

/-- **The pass**: what was seen grows by this position, and the logits agree. -/
theorem Primed.forward (hm : m.Loaded M) (hkv : z'.kv = z.kv) (hz : z.Fit M pos)
    (hz' : z'.Fit M pos) (hkvDim : m.config.kvDim M.strict = some z.kv)
    (hmul : kvMul = m.config.nHeads / m.config.nKvHeads)
    (hhead : headSize = m.config.dim / m.config.nHeads) {s s' : RunState F}
    (h : Primed m.config z z' (fun l t => l < m.config.nLayers ∧ t < pos) s s') (token : ℕ) :
    Agree (fun s s' => Primed m.config z z' (fun l t => l < m.config.nLayers ∧ t < pos + 1) s s' ∧
        s.logits = s'.logits)
      (forward ops M.strict m s token pos) (forward ops M.strict m s' token pos) := by
  have hdivs {a b k : ℕ} (hk : k = a / b) : Agree (fun i j => i = k ∧ j = k) (div a b) (div a b) :=
    fun i j hi hj => ⟨((reaches_div a b).holds i hi).trans hk.symm,
      ((reaches_div a b).holds j hj).trans hk.symm⟩
  unfold TinyLlm.forward
  dsimp only
  rw [hkvDim]
  refine (Agree.pure (R := fun i j => i = z.kv ∧ j = z.kv) ⟨rfl, rfl⟩).bind ?_
  rintro _ _ ⟨rfl, rfl⟩
  refine (hdivs hmul).bind ?_
  rintro _ _ ⟨rfl, rfl⟩
  refine (hdivs hhead).bind ?_
  rintro _ _ ⟨rfl, rfl⟩
  refine (agree_embedRow token h.left.x h.right.x).bind_array fun x hx => ?_
  -- before the first layer the states agree on the positions before this one
  have hstart : Alike m.config z z' (fun l t => l < m.config.nLayers ∧ t < pos ∨ l < 0 ∧ t = pos)
      { s with x } { s' with x } := by
    refine ⟨⟨{ h.left with x := hx }, { h.right with x := hx }, h.int8, fun l t hseen => ?_⟩, rfl⟩
    rcases hseen with hseen | ⟨hl, -⟩
    · exact h.cached l t hseen
    · exact absurd hl (Nat.not_lt_zero l)
  have hlow := hz.pos
  have hlow' := hz'.pos
  refine (Agree.upTo (R := fun n => Alike m.config z z'
    fun l t => l < m.config.nLayers ∧ t < pos ∨ l < n ∧ t = pos) (fun l hl s s' h => ?_)
    hstart).bind fun s s' h => ?_
  · refine (h.layer hc hm hkv hz hz' (fun l' t hseen => ?_) (fun t ht => .inl ⟨hl, ht⟩)).mono
      fun s s' h => h.mono fun l' t hseen => ?_
    · rcases hseen with ⟨-, ht⟩ | ⟨-, rfl⟩
      · exact ⟨by omega, by omega⟩
      · exact ⟨hlow, hlow'⟩
    · rcases hseen with hseen | ⟨hl', rfl⟩
      · exact .inl (.inl hseen)
      · rcases Nat.lt_succ_iff_lt_or_eq.mp hl' with hl' | rfl
        · exact .inl (.inr ⟨hl', rfl⟩)
        · exact .inr ⟨rfl, rfl⟩
  · -- behind the last layer they agree on this one as well
    have hall : Alike m.config z z' (fun l t => l < m.config.nLayers ∧ t < pos + 1) s s' := by
      refine h.mono fun l t hseen => ?_
      rcases Nat.lt_succ_iff_lt_or_eq.mp hseen.2 with ht | rfl
      · exact .inl ⟨hseen.1, ht⟩
      · exact .inr ⟨hseen.1, rfl⟩
    exact hall.classify hc hm

end Layer

/-! ## The theorem -/

/-- The passes over a list of tokens, from a position on. -/
def feed (ops : FloatOps F) (M : Machine) (m : Model) : List ℕ → ℕ → RunState F → Option (RunState F)
  | [], _, s => some s
  | token :: tokens, pos, s => do
    let s ← forward ops M m s token pos
    feed ops M m tokens (pos + 1) s

/-- What the reader and the allocation say of the sizes. -/
theorem Sizes.Allocated.fit (hz : z.Allocated M m.config) (hkv : z.kv < 2 ^ M.width)
    (hpos : pos < z.ctx) : z.Fit M pos := by
  obtain ⟨_, -, hcache⟩ := hz.cache
  obtain ⟨_, -, hscales⟩ := hz.scales
  exact ⟨hkv, (Machine.fit_eq_some hz.att).2, (Machine.fit_eq_some hcache).2,
    (Machine.fit_eq_some hscales).2, hpos⟩

/-- The heads of a checkpoint that can be run. -/
theorem Runnable.shared {n : ℕ} (hrun : Runnable M m n) (hm : m.Loaded M) :
    m.config.Shared m.config.kvWidth (m.config.nHeads / m.config.nKvHeads)
      (m.config.dim / m.config.nHeads) := by
  obtain ⟨hdim, hwidth⟩ := headSize_mul hm
  have hhead : 0 < m.config.dim / m.config.nHeads :=
    Nat.div_pos (Nat.le_of_dvd hm.dim hm.headsDvd) hm.heads
  have hmul := Nat.div_mul_cancel hrun.heads
  have hlt : ∀ hd < m.config.nHeads,
      hd / (m.config.nHeads / m.config.nKvHeads) < m.config.nKvHeads := by
    intro hd hhd
    refine Nat.div_lt_of_lt_mul ?_
    rwa [hmul]
  refine ⟨hrun.whole, hwidth ▸ Nat.mul_pos hhead hm.kvHeads, hhead, ⟨_, hwidth⟩, ?_, ?_⟩
  · rw [hwidth, Nat.mul_div_cancel_left _ hhead]
  · intro hd hhd
    refine ⟨hlt hd hhd, ?_⟩
    rw [hwidth, Nat.mul_comm (m.config.dim / m.config.nHeads), ← Nat.add_one_mul]
    exact Nat.mul_le_mul_right _ (hlt hd hhd)

/-- The vectors of a checkpoint that can be run have the width that was allocated. -/
theorem Runnable.kvDim {n : ℕ} (hrun : Runnable M m n) (hm : m.Loaded M) {M' : Machine}
    (hwidth : M'.width = M.width) : m.config.kvDim M' = some m.config.kvWidth := by
  refine kvDim_eq hm ?_
  have hle := (Nat.le_of_dvd hm.heads hrun.heads).trans (Nat.le_of_dvd hm.dim hm.headsDvd)
  rw [hwidth]
  exact (Nat.mul_le_mul_left _ hle).trans_lt
    ((m.config.size_le (i := 1) rfl hm.layers).trans_lt (hrun.file.trans_lt hm.buf))

section Feed

variable {buf : List UInt8} {width stop off : ℕ} (haccepted : Accepted M buf m width stop off)
  (hbuf : buf.length < 2 ^ M.width) (hz : z.Allocated M m.config) (hz' : z'.Allocated M m.config)
  (hrun : Runnable M m z.ctx) (hrun' : Runnable M m z'.ctx) (hgs : m.config.groupSize < 2 ^ 17)

include haccepted hbuf hz hz' hrun hrun' hgs

/-! ### Prompts that share a beginning -/

/-- **The passes over the tokens**: they all end, and the last logits agree. -/
theorem feed_of_primed (tokens : List ℕ) :
    ∀ {pos : ℕ} {s s' : RunState F},
      Primed m.config z z' (fun l t => l < m.config.nLayers ∧ t < pos) s s' →
      tokens ≠ [] ∨ s.logits = s'.logits → (∀ token ∈ tokens, token < m.config.vocabSize) →
      pos + tokens.length ≤ z.ctx → pos + tokens.length ≤ z'.ctx →
      ∃ t t', feed ops M.strict m tokens pos s = some t ∧
        feed ops M.strict m tokens pos s' = some t' ∧ t.logits = t'.logits := by
  have hm := haccepted.loaded hbuf
  have hkv : z.kv = m.config.kvWidth :=
    Option.some_inj.mp (hz.kv.symm.trans (hrun.kvDim hm rfl))
  have hkv' : z'.kv = z.kv :=
    (Option.some_inj.mp (hz'.kv.symm.trans (hrun.kvDim hm rfl))).trans hkv.symm
  have hstrict : m.config.kvDim M.strict = some z.kv := by
    rw [hkv]
    exact hrun.kvDim hm rfl
  have hshared := hrun.shared hm
  rw [← hkv] at hshared
  have hword : z.kv < 2 ^ M.width := by
    obtain ⟨product, hproduct, hdiv⟩ := Option.bind_eq_some_iff.mp hz.kv
    rw [(reaches_div _ _).holds _ hdiv]
    exact (Nat.div_le_self _ _).trans_lt (Machine.fit_eq_some hproduct).2
  -- induction on the tokens; each pass moves what was seen on by one position
  induction tokens with
  | nil =>
    intro pos s s' h hor _ _ _
    rcases hor with hne | hlogits
    · exact absurd rfl hne
    · exact ⟨s, s', rfl, rfl, hlogits⟩
  | cons token tokens ih =>
    intro pos s s' h _ htokens hlen hlen'
    rw [List.length_cons] at hlen hlen'
    have htoken := htokens token List.mem_cons_self
    have hsome : (forward ops M.strict m s token pos).isSome :=
      forward_of_runnable haccepted hbuf hz h.left hrun hgs htoken (by omega)
    have hsome' : (forward ops M.strict m s' token pos).isSome :=
      forward_of_runnable haccepted hbuf hz' h.right hrun' hgs htoken (by omega)
    obtain ⟨t, ht⟩ := Option.isSome_iff_exists.mp hsome
    obtain ⟨t', ht'⟩ := Option.isSome_iff_exists.mp hsome'
    obtain ⟨hprimed, hlogits⟩ := h.forward hshared hm hkv' (hz.fit hword (by omega))
      (hz'.fit (hkv' ▸ hword) (by omega)) hstrict rfl rfl token t t' ht ht'
    obtain ⟨u, u', hu, hu', hsame⟩ := ih hprimed (.inr hlogits)
      (fun a ha => htokens a (List.mem_cons_of_mem _ ha)) (by omega) (by omega)
    exact ⟨u, u', bind_eq_of_some ht hu, bind_eq_of_some ht' hu', hsame⟩

end Feed

/-- **The logits depend on the tokens alone**: whatever the two states were allocated for,
and whatever was run on them before. -/
theorem logits_of_tokens (ops : FloatOps F) {buf : List UInt8} (hparse : Model.parse M buf = .ok m)
    (hbuf : buf.length < 2 ^ M.width) {heap heap' : ℕ → Bool} {s s' : RunState F}
    (hs : Reached ops M heap m n s) (hs' : Reached ops M heap' m n' s') (hint8 : s.int8 = s'.int8)
    (hrun : Runnable M m n) (hrun' : Runnable M m n')
    (hsmall : m.config.groupSize < 2 ^ 17 ∨ M.width ≤ 34) {tokens : List ℕ} (hne : tokens ≠ [])
    (htokens : ∀ token ∈ tokens, token < m.config.vocabSize) (hlen : tokens.length ≤ n)
    (hlen' : tokens.length ≤ n') :
    ∃ t t', feed ops M.strict m tokens 0 s = some t ∧ feed ops M.strict m tokens 0 s' = some t' ∧
      t.logits = t'.logits := by
  obtain ⟨width, stop, off, haccepted⟩ := accepted_of_parse hparse
  have hm := haccepted.loaded hbuf
  obtain ⟨z, rfl, hz, hsized⟩ := hs.sized hm
  obtain ⟨z', rfl, hz', hsized'⟩ := hs'.sized hm
  exact feed_of_primed haccepted hbuf hz hz' hrun hrun' (hrun.small hm hsmall) tokens
    ⟨hsized, hsized', hint8, fun _ _ hseen => absurd hseen.2 (Nat.not_lt_zero _)⟩ (.inl hne) htokens
    (by omega) (by omega)

/-- A state for one position, and one for two positions that was used before. -/
theorem logits_of_tokens_small : ∃ s s₀ s' t t' : RunState UInt32,
    RunState.tryWithCache zeroOps usize32 (fun _ => true) smallConfig 1 true = some s ∧
    RunState.tryWithCache zeroOps usize32 (fun _ => true) smallConfig 2 true = some s₀ ∧
    forward zeroOps usize32.strict (Model.laidOut smallConfig (blankFile smallConfig)) s₀ 0 1 =
      some s' ∧
    feed zeroOps usize32.strict (Model.laidOut smallConfig (blankFile smallConfig)) [0] 0 s =
      some t ∧
    feed zeroOps usize32.strict (Model.laidOut smallConfig (blankFile smallConfig)) [0] 0 s' =
      some t' ∧ t.logits = t'.logits := by
  obtain ⟨s, hs⟩ := Option.isSome_iff_exists.mp (show (RunState.tryWithCache zeroOps usize32
    (fun _ => true) smallConfig 1 true).isSome by decide)
  obtain ⟨s₀, hs₀⟩ := Option.isSome_iff_exists.mp (show (RunState.tryWithCache zeroOps usize32
    (fun _ => true) smallConfig 2 true).isSome by decide)
  have hparse : Model.parse usize32 (blankFile smallConfig) = _ :=
    parse_blankFile smallConfig_valid (by decide)
  have hlen : (blankFile smallConfig).length < 2 ^ usize32.width := by
    rw [length_blankFile]
    decide
  obtain ⟨kv, stop, off, haccepted⟩ := accepted_of_parse hparse
  have hm := haccepted.loaded hlen
  have hrun : Runnable usize32 (Model.laidOut smallConfig (blankFile smallConfig)) 1 :=
    ⟨⟨by decide, by decide, by decide⟩, by decide, by decide, (length_blankFile _).ge, by decide,
      by decide⟩
  have hrun' : Runnable usize32 (Model.laidOut smallConfig (blankFile smallConfig)) 2 :=
    { hrun with cache := by decide, scores := by decide }
  have hreached : Reached zeroOps usize32 (fun _ => true)
      (Model.laidOut smallConfig (blankFile smallConfig)) 1 s := Reached.fresh hs
  have hreached₀ : Reached zeroOps usize32 (fun _ => true)
      (Model.laidOut smallConfig (blankFile smallConfig)) 2 s₀ := Reached.fresh hs₀
  obtain ⟨z, hctx, hz, hsized⟩ := hreached₀.sized hm
  have hsome : (forward zeroOps usize32.strict (Model.laidOut smallConfig (blankFile smallConfig)) s₀
      0 1).isSome :=
    forward_of_runnable haccepted hlen hz hsized (hctx ▸ hrun') (by decide) (by decide) (by omega)
  obtain ⟨s', hs'⟩ := Option.isSome_iff_exists.mp hsome
  have hint : (RunState.tryWithCache zeroOps usize32 (fun _ => true) smallConfig 1 true).map
      RunState.int8 = some true := by decide +kernel
  have hint' : ((RunState.tryWithCache zeroOps usize32 (fun _ => true) smallConfig 2 true).bind
      fun s => forward zeroOps usize32.strict (Model.laidOut smallConfig (blankFile smallConfig)) s
        0 1).map RunState.int8 = some true := by decide +kernel
  rw [hs, Option.map_some] at hint
  rw [hs₀, Option.bind_some, hs', Option.map_some] at hint'
  have hint8 : s.int8 = s'.int8 := Option.some_inj.mp (hint.trans hint'.symm)
  obtain ⟨t, t', ht, ht', hsame⟩ := logits_of_tokens zeroOps hparse hlen hreached
    (hreached₀.step hs') hint8 hrun hrun' (.inl (by decide)) (List.cons_ne_nil 0 []) (by decide)
    (by decide) (by decide)
  exact ⟨s, s₀, s', t, t', hs, hs₀, hs', ht, ht', hsame⟩

end TinyLlm
