/-
# Computations that may panic on an index or on an overflow

A computation of type `Option α` ends with a value or panics.  Numbers are machine words:
`Machine.fit` says what happens to a result that is too large, a panic when overflow is
checked and a wrapped word when it is not.  Arrays are lists of a fixed length whose
accesses panic out of bounds.

`Reaches post suff nec x` is the rule set for such computations: a value that `x` ends with
satisfies `post`, `x` does end with a value when `suff` holds, and it can only when `nec`
does.  The rules for sequencing and for loops collect the two conditions, so that the
conditions of a long computation are read off its steps.
-/
import Mathlib.Algebra.Order.Floor.Div
import Mathlib.Algebra.Order.Ring.Nat

namespace Checked

variable {α β σ : Type}

/-! ## Machine words -/

/-- The size of a machine word, and whether overflow is checked. -/
structure Machine where
  width : ℕ
  checks : Bool
  le_width : 32 ≤ width

namespace Machine

/-- The bound on the width of a machine whose words have 32 bits. -/
theorem le_width_32 : 32 ≤ 32 := Nat.le_refl 32

/-- A result that does not fit in a word panics or wraps. -/
def fit (M : Machine) (n : ℕ) : Option ℕ :=
  if n < 2 ^ M.width then some n else if M.checks then none else some (n % 2 ^ M.width)

def add (M : Machine) (a b : ℕ) : Option ℕ := M.fit (a + b)

def mul (M : Machine) (a b : ℕ) : Option ℕ := M.fit (a * b)

/-- The same machine with overflow checks. -/
def strict (M : Machine) : Machine := { M with checks := true }

@[simp] theorem width_strict (M : Machine) : M.strict.width = M.width := rfl

variable {M : Machine}

theorem fit_of_lt {n : ℕ} (h : n < 2 ^ M.width) : M.fit n = some n := if_pos h

theorem add_of_lt {a b : ℕ} (h : a + b < 2 ^ M.width) : M.add a b = some (a + b) := fit_of_lt h

theorem mul_of_lt {a b : ℕ} (h : a * b < 2 ^ M.width) : M.mul a b = some (a * b) := fit_of_lt h

/-- A result is the number itself, or wrapped and smaller. -/
theorem fit_eq_some {n k : ℕ} (h : M.fit n = some k) : k ≤ n ∧ k < 2 ^ M.width := by
  unfold fit at h
  split_ifs at h with hn
  · obtain rfl := Option.some_inj.mp h
    exact ⟨le_rfl, hn⟩
  · obtain rfl := Option.some_inj.mp h
    exact ⟨Nat.mod_le _ _, Nat.mod_lt _ (Nat.two_pow_pos _)⟩

theorem eq_of_fit {n k : ℕ} (h : M.fit n = some k) (hn : n < 2 ^ M.width) : k = n :=
  Option.some_inj.mp (h.symm.trans (fit_of_lt hn))

theorem fit_strict_eq_some {n k : ℕ} : M.strict.fit n = some k ↔ n < 2 ^ M.width ∧ k = n := by
  unfold fit strict
  split_ifs with hn h
  · rw [Option.some_inj]
    exact ⟨fun h => ⟨hn, h.symm⟩, fun h => h.2.symm⟩
  · simp [hn]
  · exact absurd rfl h

/-! ### Signed words -/

/-- A signed result that does not fit in a word panics or wraps. -/
def fitInt (M : Machine) (n : ℤ) : Option ℤ :=
  if -2 ^ (M.width - 1) ≤ n ∧ n < 2 ^ (M.width - 1) then some n
  else if M.checks then none else some (n.bmod (2 ^ M.width))

def addInt (M : Machine) (a b : ℤ) : Option ℤ := M.fitInt (a + b)

def subInt (M : Machine) (a b : ℤ) : Option ℤ := M.fitInt (a - b)

def mulInt (M : Machine) (a b : ℤ) : Option ℤ := M.fitInt (a * b)

theorem fitInt_of_le {n : ℤ} (h : -2 ^ (M.width - 1) ≤ n ∧ n < 2 ^ (M.width - 1)) :
    M.fitInt n = some n := if_pos h

theorem fitInt_eq_some (hchecks : M.checks = true) {n k : ℤ} (h : M.fitInt n = some k) :
    (-2 ^ (M.width - 1) ≤ n ∧ n < 2 ^ (M.width - 1)) ∧ k = n := by
  unfold fitInt at h
  split_ifs at h with hn
  exact ⟨hn, (Option.some_inj.mp h).symm⟩

end Machine

/-- `a / b`. -/
def div (a b : ℕ) : Option ℕ := if b = 0 then none else some (a / b)

/-- `a % b`. -/
def mod (a b : ℕ) : Option ℕ := if b = 0 then none else some (a % b)

/-! ## Arrays -/

/-- `xs[i] = a`. -/
def setAt (xs : List α) (i : ℕ) (a : α) : Option (List α) :=
  if i < xs.length then some (xs.set i a) else none

/-- `&xs[a..b]`. -/
def slice (xs : List α) (a b : ℕ) : Option (List α) :=
  if a ≤ b ∧ b ≤ xs.length then some ((xs.drop a).take (b - a)) else none

/-- What was written through `&mut xs[a..]`. -/
def splice (xs : List α) (a : ℕ) (ys : List α) : List α :=
  xs.take a ++ ys ++ xs.drop (a + ys.length)

/-- `xs.copy_from_slice(ys)`. -/
def copyFromSlice (xs ys : List α) : Option (List α) :=
  if xs.length = ys.length then some ys else none

theorem length_splice {xs ys : List α} {a : ℕ} (h : a + ys.length ≤ xs.length) :
    (splice xs a ys).length = xs.length := by
  rw [splice, List.length_append, List.length_append, List.length_take, List.length_drop]
  omega

/-! ## Loops -/

/-- `for i in 0..n`. -/
def upTo (body : ℕ → σ → Option σ) : ℕ → σ → Option σ
  | 0, s => some s
  | n + 1, s => do
    let s ← upTo body n s
    body n s

/-- `while j < n { body; j += step }`, with a bound on the number of rounds. -/
def whileBelow (M : Machine) (n step : ℕ) (body : ℕ → σ → Option σ) : ℕ → ℕ → σ → Option σ
  | 0, _, _ => none
  | fuel + 1, j, s =>
    if j < n then do
      let s ← body j s
      let j ← M.add j step
      whileBelow M n step body fuel j s
    else some s

/-- A first part that ends with a value is left behind. -/
theorem bind_eq_of_some {x : Option α} {f : α → Option β} {a : α} {r : Option β} (hx : x = some a)
    (hf : f a = r) : (x >>= f) = r := by
  rw [hx]
  exact hf

/-- **A loop that fills an array**: round `i` writes place `i`. -/
theorem upTo_eq_map {body : ℕ → List α → Option (List α)} {v : ℕ → α} {n : ℕ}
    (hbody : ∀ i < n, ∀ xs : List α, xs.length = n → body i xs = some (xs.set i (v i)))
    {xs : List α} (hxs : xs.length = n) : upTo body n xs = some ((List.range n).map v) := by
  have hrounds : ∀ k ≤ n, upTo body k xs = some ((List.range k).map v ++ xs.drop k) := by
    intro k
    induction k with
    | zero => exact fun _ => rfl
    | succ k ih =>
      intro hk
      have hlen : ((List.range k).map v ++ xs.drop k).length = n := by
        rw [List.length_append, List.length_map, List.length_range, List.length_drop]
        omega
      refine bind_eq_of_some (ih (by omega)) ?_
      rw [hbody k hk _ hlen, List.set_append_right _ _ (by simp), List.length_map,
        List.length_range, Nat.sub_self, List.drop_eq_getElem_cons (by omega), List.set_cons_zero,
        List.range_succ, List.map_append, List.append_assoc]
      rfl
  rw [hrounds n le_rfl, List.drop_eq_nil_of_le hxs.le, List.append_nil]

/-- **Two loops side by side**: what their rounds keep holds in the end, or both have no
value. -/
theorem rel_upTo {τ : Type} {R : σ → τ → Prop} {body : ℕ → σ → Option σ}
    {body' : ℕ → τ → Option τ} {n : ℕ}
    (hbody : ∀ i < n, ∀ s t, R s t → Option.Rel R (body i s) (body' i t)) {s : σ} {t : τ}
    (h : R s t) : Option.Rel R (upTo body n s) (upTo body' n t) := by
  induction n with
  | zero => exact .some h
  | succ n ih =>
    rw [upTo, upTo]
    have hrel := ih fun i hi => hbody i (hi.trans (Nat.lt_succ_self n))
    generalize upTo body n s = x at hrel ⊢
    generalize upTo body' n t = y at hrel ⊢
    cases hrel with
    | some hst => exact hbody n (Nat.lt_succ_self n) _ _ hst
    | none => exact .none

/-- **A loop over a range ends** when each round does, with what the rounds keep. -/
theorem exists_upTo (inv : ℕ → σ → Prop) {body : ℕ → σ → Option σ} {n : ℕ}
    (hbody : ∀ i < n, ∀ s, inv i s → ∃ s', body i s = some s' ∧ inv (i + 1) s') {s : σ}
    (hs : inv 0 s) : ∃ s', upTo body n s = some s' ∧ inv n s' := by
  induction n with
  | zero => exact ⟨s, rfl, hs⟩
  | succ n ih =>
    obtain ⟨s', hs', hinv⟩ := ih fun i hi => hbody i (hi.trans (Nat.lt_succ_self n))
    obtain ⟨s'', hs'', hinv'⟩ := hbody n (Nat.lt_succ_self n) s' hinv
    exact ⟨s'', bind_eq_of_some hs' hs'', hinv'⟩

/-- **A loop that counts up by a divisor of its bound** ends when each round does. -/
theorem exists_whileBelow {M : Machine} (inv : ℕ → σ → Prop) {body : ℕ → σ → Option σ}
    {n step : ℕ} (hstep : 0 < step) (hdvd : step ∣ n) (hn : n < 2 ^ M.width)
    (hbody : ∀ k < n / step, ∀ s, inv k s → ∃ s', body (k * step) s = some s' ∧ inv (k + 1) s')
    {s : σ} (hs : inv 0 s) :
    ∃ s', whileBelow M n step body (n + 1) 0 s = some s' ∧ inv (n / step) s' := by
  obtain ⟨m, rfl⟩ := hdvd
  rw [Nat.mul_div_cancel_left m hstep] at hbody ⊢
  rw [Nat.mul_comm step m] at hn ⊢
  -- induction on the rounds that are left; a round moves `k` on by one
  have hfrom : ∀ fuel k s, m ≤ k + fuel → k ≤ m → inv k s →
      ∃ s', whileBelow M (m * step) step body (fuel + 1) (k * step) s = some s' ∧ inv m s' := by
    intro fuel
    induction fuel with
    | zero =>
      intro k s hfuel hk hinv
      obtain rfl : k = m := by omega
      exact ⟨s, if_neg (lt_irrefl _), hinv⟩
    | succ fuel ih =>
      intro k s hfuel hk hinv
      rw [whileBelow]
      rcases hk.eq_or_lt with rfl | hlt
      · exact ⟨s, if_neg (lt_irrefl _), hinv⟩
      · obtain ⟨s', hs', hinv'⟩ := hbody k hlt s hinv
        obtain ⟨s'', hs'', hinv''⟩ := ih (k + 1) s' (by omega) hlt hinv'
        have hle : k * step + step ≤ m * step := by
          rw [← Nat.add_one_mul]
          exact Nat.mul_le_mul_right step hlt
        rw [Nat.add_one_mul] at hs''
        refine ⟨s'', ?_, hinv''⟩
        rw [if_pos (by omega)]
        exact bind_eq_of_some hs' (bind_eq_of_some (Machine.add_of_lt (by omega)) hs'')
  have hfuel : m ≤ 0 + m * step := by
    rw [Nat.zero_add]
    exact Nat.le_mul_of_pos_right m hstep
  have h := hfrom (m * step) 0 s hfuel (Nat.zero_le m) hs
  rwa [Nat.zero_mul] at h

/-! ## Conditions -/

/-- A value that `x` ends with satisfies `post`; `suff` is enough for one, and `nec` is
needed. -/
structure Reaches (post : α → Prop) (suff nec : Prop) (x : Option α) : Prop where
  holds : ∀ a, x = some a → post a
  succeeds : suff → ∃ a, x = some a
  needs : ∀ a, x = some a → nec

namespace Reaches

variable {post : α → Prop} {suff nec : Prop} {x : Option α}

theorem mono {post' : α → Prop} {suff' nec' : Prop} (h : Reaches post suff nec x)
    (hpost : ∀ a, post a → post' a) (hsuff : suff' → suff) (hnec : nec → nec') :
    Reaches post' suff' nec' x where
  holds a ha := hpost a (h.holds a ha)
  succeeds hs := h.succeeds (hsuff hs)
  needs a ha := hnec (h.needs a ha)

theorem pure {a : α} (h : post a) : Reaches post True True (some a) where
  holds _ hb := Option.some_inj.mp hb ▸ h
  succeeds _ := ⟨a, rfl⟩
  needs _ _ := trivial

/-- **Sequencing**: the second part needs its condition whatever the first one ends with. -/
theorem bind {post' : β → Prop} {suff' nec' : Prop} {f : α → Option β}
    (h : Reaches post suff nec x) (hf : ∀ a, post a → Reaches post' suff' nec' (f a)) :
    Reaches post' (suff ∧ suff') (nec ∧ nec') (x >>= f) where
  holds b hb := by
    obtain ⟨a, ha, hfa⟩ := Option.bind_eq_some_iff.mp hb
    exact (hf a (h.holds a ha)).holds b hfa
  succeeds hs := by
    obtain ⟨a, ha⟩ := h.succeeds hs.1
    obtain ⟨b, hb⟩ := (hf a (h.holds a ha)).succeeds hs.2
    exact ⟨b, Option.bind_eq_some_iff.mpr ⟨a, ha, hb⟩⟩
  needs b hb := by
    obtain ⟨a, ha, hfa⟩ := Option.bind_eq_some_iff.mp hb
    exact ⟨h.needs a ha, (hf a (h.holds a ha)).needs b hfa⟩

/-- Sequencing after a first part whose value is known. -/
theorem bind_eq {post' : β → Prop} {suff' nec' : Prop} {f : α → Option β} {a : α}
    (h : Reaches (· = a) suff nec x) (hf : Reaches post' suff' nec' (f a)) :
    Reaches post' (suff ∧ suff') (nec ∧ nec') (x >>= f) :=
  h.bind fun b hb => (show b = a from hb) ▸ hf

/-- A condition that decides. -/
theorem ite {c : Prop} [Decidable c] {a : α} (h : c → post a) :
    Reaches post c c (if c then some a else none) where
  holds _ hb := by
    split_ifs at hb with hc
    exact Option.some_inj.mp hb ▸ h hc
  succeeds hc := ⟨a, if_pos hc⟩
  needs _ hb := by
    split_ifs at hb with hc
    exact hc

end Reaches

/-! ### Words and arrays -/

section Rules

variable {M : Machine} {xs : List α}

theorem reaches_fit (n : ℕ) :
    Reaches (· = n) (n < 2 ^ M.width) (n < 2 ^ M.width) (M.strict.fit n) where
  holds _ hk := (Machine.fit_strict_eq_some.mp hk).2
  succeeds h := ⟨n, Machine.fit_of_lt h⟩
  needs _ hk := (Machine.fit_strict_eq_some.mp hk).1

theorem reaches_add (a b : ℕ) :
    Reaches (· = a + b) (a + b < 2 ^ M.width) (a + b < 2 ^ M.width) (M.strict.add a b) :=
  reaches_fit _

theorem reaches_mul (a b : ℕ) :
    Reaches (· = a * b) (a * b < 2 ^ M.width) (a * b < 2 ^ M.width) (M.strict.mul a b) :=
  reaches_fit _

theorem reaches_div (a b : ℕ) : Reaches (· = a / b) (b ≠ 0) (b ≠ 0) (div a b) := by
  unfold div
  rw [← ite_not]
  exact Reaches.ite fun _ => rfl

theorem reaches_mod (a b : ℕ) : Reaches (· = a % b) (b ≠ 0) (b ≠ 0) (mod a b) := by
  unfold mod
  rw [← ite_not]
  exact Reaches.ite fun _ => rfl

theorem reaches_get (i : ℕ) : Reaches (fun _ => True) (i < xs.length) (i < xs.length) xs[i]? where
  holds _ _ := trivial
  succeeds h := ⟨xs[i], List.getElem?_eq_getElem h⟩
  needs _ h := (List.getElem?_eq_some_iff.mp h).1

theorem reaches_setAt (i : ℕ) (a : α) :
    Reaches (fun ys => ys.length = xs.length) (i < xs.length) (i < xs.length) (setAt xs i a) :=
  Reaches.ite fun _ => List.length_set

theorem reaches_slice (a b : ℕ) :
    Reaches (fun ys => ys.length = b - a ∧ a ≤ b ∧ b ≤ xs.length) (a ≤ b ∧ b ≤ xs.length)
      (a ≤ b ∧ b ≤ xs.length) (slice xs a b) := by
  refine Reaches.ite fun h => ⟨?_, h⟩
  rw [List.length_take, List.length_drop]
  omega

theorem reaches_copyFromSlice (ys : List α) :
    Reaches (fun zs => zs.length = xs.length) (xs.length = ys.length) (xs.length = ys.length)
      (copyFromSlice xs ys) :=
  Reaches.ite fun h => h.symm

end Rules

/-! ### Rounds -/

section Loops

variable {inv : σ → Prop} {body : ℕ → σ → Option σ} {suff nec : ℕ → Prop}

/-- **A loop over a range**: the invariant counts the rounds, and each round needs its own
condition. -/
theorem reaches_upTo_count {inv : ℕ → σ → Prop} {n : ℕ}
    (hbody : ∀ i < n, ∀ s, inv i s → Reaches (inv (i + 1)) (suff i) (nec i) (body i s)) {s : σ}
    (hs : inv 0 s) : Reaches (inv n) (∀ i < n, suff i) (∀ i < n, nec i) (upTo body n s) := by
  induction n with
  | zero => exact (Reaches.pure hs).mono (fun _ h => h) (fun _ => trivial) (by simp)
  | succ n ih =>
    have hinit := ih fun i hi => hbody i (hi.trans (Nat.lt_succ_self n))
    refine (hinit.bind (hbody n (Nat.lt_succ_self n))).mono (fun _ h => h) ?_ ?_
    · exact fun h => ⟨fun i hi => h i (hi.trans (Nat.lt_succ_self n)), h n (Nat.lt_succ_self n)⟩
    · rintro ⟨hlt, hn⟩ i hi
      rcases Nat.lt_succ_iff_lt_or_eq.mp hi with hi | rfl
      exacts [hlt i hi, hn]

theorem reaches_upTo {n : ℕ}
    (hbody : ∀ i < n, ∀ s, inv s → Reaches inv (suff i) (nec i) (body i s)) {s : σ} (hs : inv s) :
    Reaches inv (∀ i < n, suff i) (∀ i < n, nec i) (upTo body n s) :=
  reaches_upTo_count hbody hs

/-- From the `k`-th multiple of the step on. -/
theorem reaches_whileBelow_from {M : Machine} {n step : ℕ} (hstep : 0 < step)
    (hbody : ∀ j < n, ∀ s, inv s → Reaches inv (suff j) (nec j) (body j s)) {fuel : ℕ} :
    ∀ {k : ℕ} {s : σ}, n ≤ k + fuel → inv s →
      Reaches inv (∀ i, k ≤ i → i * step < n → suff (i * step) ∧ (i + 1) * step < 2 ^ M.width)
        (∀ i, k ≤ i → i * step < n → nec (i * step))
        (whileBelow M.strict n step body (fuel + 1) (k * step) s) := by
  -- induction on the rounds that are left; a round moves `k` on by one
  induction fuel with
  | zero =>
    intro k s hfuel hs
    have hend : ∀ i, k ≤ i → ¬ i * step < n := by
      intro i hi
      have := Nat.le_mul_of_pos_right i hstep
      omega
    rw [whileBelow, if_neg (hend k le_rfl)]
    exact (Reaches.pure hs).mono (fun _ h => h) (fun _ => trivial)
      fun _ i hi hlt => absurd hlt (hend i hi)
  | succ fuel ih =>
    intro k s hfuel hs
    rw [whileBelow]
    split_ifs with hlt
    · have hnext (s : σ) (hs : inv s) : Reaches inv
          (∀ i, k + 1 ≤ i → i * step < n → suff (i * step) ∧ (i + 1) * step < 2 ^ M.width)
          (∀ i, k + 1 ≤ i → i * step < n → nec (i * step))
          (whileBelow M.strict n step body (fuel + 1) (k * step + step) s) := by
        rw [← Nat.succ_mul]
        exact ih (k := k + 1) (by omega) hs
      have hround := (hbody _ hlt s hs).bind fun s' hs' =>
        (reaches_add (M := M) (k * step) step).bind fun j hj => hj ▸ hnext s' hs'
      refine hround.mono (fun _ h => h) ?_ ?_
      · intro h
        refine ⟨(h k le_rfl hlt).1, ?_, fun i hi => h i (by omega)⟩
        rw [← Nat.succ_mul]
        exact (h k le_rfl hlt).2
      · rintro ⟨hk, -, hrest⟩ i hi hilt
        rcases hi.eq_or_lt with rfl | hi
        · exact hk
        · exact hrest i hi hilt
    · have hend : ∀ i, k ≤ i → ¬ i * step < n := by
        intro i hi
        have := Nat.mul_le_mul_right step hi
        omega
      exact (Reaches.pure hs).mono (fun _ h => h) (fun _ => trivial)
        fun _ i hi hlt => absurd hlt (hend i hi)

/-- **A loop that counts up by a step**: there is a round for each multiple below the
bound. -/
theorem reaches_whileBelow {M : Machine} {n step : ℕ} (hstep : 0 < step)
    (hbody : ∀ j < n, ∀ s, inv s → Reaches inv (suff j) (nec j) (body j s)) {s : σ} (hs : inv s) :
    Reaches inv (∀ i, i * step < n → suff (i * step) ∧ (i + 1) * step < 2 ^ M.width)
      (∀ i, i * step < n → nec (i * step)) (whileBelow M.strict n step body (n + 1) 0 s) := by
  have h := reaches_whileBelow_from (M := M) hstep hbody (k := 0) (Nat.zero_add n).ge hs
  rw [Nat.zero_mul] at h
  exact h.mono (fun _ h => h) (fun h i _ => h i) fun h i => h i (Nat.zero_le i)

end Loops

end Checked
