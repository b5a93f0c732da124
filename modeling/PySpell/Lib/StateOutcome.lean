/-
# Stateful computations that keep their state when they fail

A `StateOutcome σ ε α` runs on a state and ends with an outcome and a state; an error
or a panic cuts the rest off and leaves the state as it was at that point.  This
is how a function with a mutable frame and early returns behaves, and it lets one
speak about the state after a failure.

The module has six rules for such computations, each closed under sequencing:

* `Sim`, a simulation between computations over two kinds of state, up to errors
  that are exempt;
* `Cuts`, the same with the history of the two computations: one that is cut short
  has done a part of what the other does;
* `Returning`, a triple: from a state with a property the computation returns, with a
  value and a state that have one;
* `ReturnsUnless`, for a computation that logs its operations: it returns unless
  one of them is bad;
* `Spends`, for a computation that logs what it builds and pays for it from a
  budget;
* `Logs`, for a computation that logs operations of a kind only.

`Instruments` is the rule for a computation that keeps a trace beside another one.
-/
import Mathlib.Algebra.BigOperators.Group.List.Basic
import PySpell.Lib.Outcome

/-- A stateful computation; the final state is there also after a failure. -/
def StateOutcome (σ ε α : Type) : Type := σ → Outcome ε α × σ

namespace StateOutcome

variable {σ τ ε α β : Type}

/-- Sequencing: the second part runs on the value and the state of the first. -/
def bind (m : StateOutcome σ ε α) (k : α → StateOutcome σ ε β) : StateOutcome σ ε β := fun s =>
  match m s with
  | (.ok a, s') => k a s'
  | (.err e, s') => (.err e, s')
  | (.panic, s') => (.panic, s')
  | (.outOfFuel, s') => (.outOfFuel, s')

instance : Monad (StateOutcome σ ε) where
  pure a := fun s => (.ok a, s)
  bind := bind

@[simp] theorem pure_run (a : α) (s : σ) : (pure a : StateOutcome σ ε α) s = (.ok a, s) := rfl

theorem bind_run (m : StateOutcome σ ε α) (k : α → StateOutcome σ ε β) (s : σ) :
    (m >>= k) s = match m s with
      | (.ok a, s') => k a s'
      | (.err e, s') => (.err e, s')
      | (.panic, s') => (.panic, s')
      | (.outOfFuel, s') => (.outOfFuel, s') := rfl

/-- The first part returned a value. -/
theorem bind_run_of_ok {m : StateOutcome σ ε α} {k : α → StateOutcome σ ε β} {s s' : σ} {a : α}
    (h : m s = (.ok a, s')) : (m >>= k) s = k a s' := by
  rw [bind_run, h]

/-- A computation has a value, or none. -/
theorem ok_or_none (m : StateOutcome σ ε α) (s : σ) :
    (∃ a s', m s = (.ok a, s')) ∨ (m s).1.toOption = none := by
  rcases m s with ⟨a | e | _ | _, s'⟩
  · exact Or.inl ⟨a, s', rfl⟩
  · exact Or.inr rfl
  · exact Or.inr rfl
  · exact Or.inr rfl

/-- Without a value of the first part the second does not run. -/
theorem bind_run_of_none {m : StateOutcome σ ε α} {s : σ} (h : (m s).1.toOption = none)
    (k : α → StateOutcome σ ε β) :
    ((m >>= k) s).1.toOption = none ∧ ((m >>= k) s).2 = (m s).2 := by
  rw [bind_run]
  rcases hm : m s with ⟨a | e | _ | _, s'⟩
  · rw [hm] at h
    cases h
  · exact ⟨rfl, rfl⟩
  · exact ⟨rfl, rfl⟩
  · exact ⟨rfl, rfl⟩

theorem bind_assoc {γ : Type} (m : StateOutcome σ ε α) (k : α → StateOutcome σ ε β)
    (l : β → StateOutcome σ ε γ) : (m >>= k >>= l) = (m >>= fun a => k a >>= l) := by
  funext s
  rw [bind_run, bind_run, bind_run]
  rcases m s with ⟨a | e | _ | _, s'⟩ <;> rfl

/-- Returning the value again changes nothing. -/
theorem bind_pure (m : StateOutcome σ ε α) : (m >>= fun a => pure a) = m := by
  funext s
  rw [bind_run]
  rcases m s with ⟨a | e | _ | _, s'⟩ <;> rfl

/-- The outcome of a pure computation. -/
def lift (x : Outcome ε α) : StateOutcome σ ε α := fun s => (x, s)

def fail (e : ε) : StateOutcome σ ε α := fun s => (.err e, s)

/-- Read a part of the state. -/
def gets (f : σ → α) : StateOutcome σ ε α := fun s => (.ok (f s), s)

def modify (f : σ → σ) : StateOutcome σ ε Unit := fun s => (.ok (), f s)

/-! ## Simulation -/

/-- `n` simulates `m` along `R`: from related states they end alike and in related
states, unless `m` ends with an exempt error. -/
def Sim (R : σ → τ → Prop) (exempt : ε → Prop) (m : StateOutcome σ ε α)
    (n : StateOutcome τ ε α) : Prop :=
  ∀ s t, R s t →
    (∃ e, exempt e ∧ (m s).1 = .err e) ∨ ((m s).1 = (n t).1 ∧ R (m s).2 (n t).2)

namespace Sim

variable {R : σ → τ → Prop} {exempt : ε → Prop}

theorem pure (a : α) : Sim R exempt (pure a : StateOutcome σ ε α) (pure a) := fun _ _ h =>
  Or.inr ⟨rfl, h⟩

theorem lift (x : Outcome ε α) : Sim R exempt (lift x) (lift x) := fun _ _ h => Or.inr ⟨rfl, h⟩

theorem fail (e : ε) : Sim R exempt (fail e : StateOutcome σ ε α) (fail e) := fun _ _ h =>
  Or.inr ⟨rfl, h⟩

/-- **Simulation is closed under sequencing.** -/
theorem bind {m : StateOutcome σ ε α} {n : StateOutcome τ ε α} {k : α → StateOutcome σ ε β}
    {l : α → StateOutcome τ ε β} (h : Sim R exempt m n) (hk : ∀ a, Sim R exempt (k a) (l a)) :
    Sim R exempt (m >>= k) (n >>= l) := by
  intro s t hR
  rw [bind_run, bind_run]
  have hmn := h s t hR
  rcases hm : m s with ⟨o, s'⟩
  rcases hn : n t with ⟨o', t'⟩
  rw [hm, hn] at hmn
  rcases hmn with ⟨e, he, heq⟩ | ⟨heq, hR'⟩
  · obtain rfl : o = .err e := heq
    exact Or.inl ⟨e, he, rfl⟩
  · obtain rfl : o = o' := heq
    cases o with
    | ok a => exact hk a s' t' hR'
    | _ => exact Or.inr ⟨rfl, hR'⟩

/-- A part of the left side without a counterpart, when it keeps the relation or
ends with an exempt error. -/
theorem bind_left {m : StateOutcome σ ε α} {k : α → StateOutcome σ ε β} {n : StateOutcome τ ε β}
    (h : ∀ s t, R s t → (∃ e, exempt e ∧ (m s).1 = .err e) ∨ ∃ a s', m s = (.ok a, s') ∧ R s' t)
    (hk : ∀ a, Sim R exempt (k a) n) : Sim R exempt (m >>= k) n := by
  intro s t hR
  rcases h s t hR with ⟨e, he, heq⟩ | ⟨a, s', hm, hR'⟩
  · refine Or.inl ⟨e, he, ?_⟩
    rw [bind_run]
    rcases hm : m s with ⟨o, s'⟩
    rw [hm] at heq
    obtain rfl : o = .err e := heq
    rfl
  · rw [bind_run_of_ok hm]
    exact hk a s' t hR'

end Sim

/-! ## Computations that are cut short -/

section History

variable {η : Type} (history : σ → List η)

/-- The computation only adds to the history. -/
def Grows (m : StateOutcome σ ε α) : Prop := ∀ s, history s <+: history (m s).2

variable {history}

theorem Grows.of_silent {m : StateOutcome σ ε α} (h : ∀ s, history (m s).2 = history s) :
    Grows history m := by
  intro s
  exact ⟨[], by rw [List.append_nil, h s]⟩

theorem Grows.pure (a : α) : Grows history (Pure.pure a : StateOutcome σ ε α) :=
  .of_silent fun _ => rfl

theorem Grows.lift (x : Outcome ε α) : Grows history (lift x : StateOutcome σ ε α) :=
  .of_silent fun _ => rfl

theorem Grows.fail (e : ε) : Grows history (fail e : StateOutcome σ ε α) :=
  .of_silent fun _ => rfl

theorem Grows.bind {m : StateOutcome σ ε α} {k : α → StateOutcome σ ε β} (h : Grows history m)
    (hk : ∀ a, Grows history (k a)) : Grows history (m >>= k) := by
  intro s
  have hs := h s
  rw [bind_run]
  rcases hm : m s with ⟨o, s'⟩
  rw [hm] at hs
  cases o with
  | ok a => exact hs.trans (hk a s')
  | _ => exact hs

variable (history)

/-- From related states `m` ends like `n` and in related states, or it is cut short:
it ends with an exempt error, after a part of what `n` does.  And `n` only adds to the
history. -/
structure Cuts (R : σ → σ → Prop) (exempt : ε → Prop) (m n : StateOutcome σ ε α) : Prop where
  grows : Grows history n
  run : ∀ s t, R s t →
    (∃ e, exempt e ∧ (m s).1 = .err e ∧ history (m s).2 <+: history (n t).2) ∨
      ((m s).1 = (n t).1 ∧ R (m s).2 (n t).2)

namespace Cuts

variable {history} {R : σ → σ → Prop} {exempt : ε → Prop}

theorem pure (a : α) : Cuts history R exempt (Pure.pure a : StateOutcome σ ε α) (Pure.pure a) :=
  ⟨.pure a, fun _ _ h => Or.inr ⟨rfl, h⟩⟩

theorem lift (x : Outcome ε α) :
    Cuts history R exempt (lift x : StateOutcome σ ε α) (lift x) :=
  ⟨.lift x, fun _ _ h => Or.inr ⟨rfl, h⟩⟩

/-- **The rule for sequencing.** -/
theorem bind {m n : StateOutcome σ ε α} {k l : α → StateOutcome σ ε β}
    (h : Cuts history R exempt m n) (hk : ∀ a, Cuts history R exempt (k a) (l a)) :
    Cuts history R exempt (m >>= k) (n >>= l) := by
  refine ⟨h.grows.bind fun a => (hk a).grows, fun s t hR => ?_⟩
  have hmn := h.run s t hR
  rw [bind_run, bind_run]
  rcases hm : m s with ⟨o, s'⟩
  rcases hn : n t with ⟨o', t'⟩
  rw [hm, hn] at hmn
  rcases hmn with ⟨e, he, heq, hpre⟩ | ⟨heq, hR'⟩
  · -- the first part is cut short; the other side may go on
    obtain rfl : o = .err e := heq
    refine Or.inl ⟨e, he, rfl, hpre.trans ?_⟩
    cases o' with
    | ok a => exact (hk a).grows t'
    | _ => exact List.prefix_rfl
  · obtain rfl : o = o' := heq
    cases o with
    | ok a => exact (hk a).run s' t' hR'
    | _ => exact Or.inr ⟨rfl, hR'⟩

end Cuts

end History

/-! ## Computations that return -/

/-- From a state in `pre` the computation returns; a value has the property, and leaves a
state in `post`. -/
def Returning (pre : σ → Prop) (value : α → Prop) (post : σ → Prop) (m : StateOutcome σ ε α) :
    Prop :=
  ∀ s, pre s → (m s).1.Returns ∧ ∀ a s', m s = (.ok a, s') → value a ∧ post s'

namespace Returning

variable {pre mid post : σ → Prop} {value : α → Prop}

theorem pure {a : α} (h : value a) : Returning pre value pre (pure a : StateOutcome σ ε α) := by
  rintro s hs
  refine ⟨trivial, ?_⟩
  rintro a' s' ⟨⟩
  exact ⟨h, hs⟩

theorem lift {x : Outcome ε α} (hr : x.Returns) (hv : ∀ a, x = .ok a → value a) :
    Returning pre value pre (lift x) := by
  rintro s hs
  refine ⟨hr, ?_⟩
  rintro a s' heq
  obtain ⟨hx, rfl⟩ := Prod.mk.inj heq
  exact ⟨hv a hx, hs⟩

theorem mono {value' : α → Prop} {m : StateOutcome σ ε α} (h : Returning pre value post m)
    (hv : ∀ a, value a → value' a) : Returning pre value' post m := by
  intro s hs
  obtain ⟨hr, hvalue⟩ := h s hs
  refine ⟨hr, fun a s' heq => ?_⟩
  obtain ⟨ha, hs'⟩ := hvalue a s' heq
  exact ⟨hv a ha, hs'⟩

/-- **The rule for sequencing**: the second part starts where the first ends. -/
theorem bind {value' : β → Prop} {m : StateOutcome σ ε α} {k : α → StateOutcome σ ε β}
    (h : Returning pre value mid m) (hk : ∀ a, value a → Returning mid value' post (k a)) :
    Returning pre value' post (m >>= k) := by
  intro s hs
  obtain ⟨hr, hv⟩ := h s hs
  rw [bind_run]
  rcases hm : m s with ⟨o, s'⟩
  rw [hm] at hr hv
  cases o with
  | ok a =>
    obtain ⟨ha, hs'⟩ := hv a s' rfl
    exact hk a ha s' hs'
  | err e => exact ⟨trivial, fun _ _ heq => by cases heq⟩
  | panic => exact hr.elim
  | outOfFuel => exact hr.elim

end Returning

/-! ## Logs of operations -/

section Log

variable {ω : Type} (log : σ → List ω)

/-- The computation extends the log, and it returns unless a new entry is bad. -/
def ReturnsUnless (bad : ω → Prop) (m : StateOutcome σ ε α) : Prop :=
  ∀ s, ∃ l, log (m s).2 = log s ++ l ∧ ((m s).1.Returns ↔ ∀ o ∈ l, ¬ bad o)

namespace ReturnsUnless

variable {log} {bad : ω → Prop}

/-- A computation that logs nothing and returns. -/
theorem of_silent {m : StateOutcome σ ε α} (hlog : ∀ s, log (m s).2 = log s)
    (hr : ∀ s, (m s).1.Returns) : ReturnsUnless log bad m := fun s =>
  ⟨[], by rw [hlog, List.append_nil], by simp [hr]⟩

theorem pure (a : α) : ReturnsUnless log bad (pure a : StateOutcome σ ε α) :=
  of_silent (fun _ => rfl) fun _ => trivial

theorem lift {x : Outcome ε α} (h : x.Returns) : ReturnsUnless log bad (lift x) :=
  of_silent (fun _ => rfl) fun _ => h

/-- A computation that logs one operation and panics at a bad one. -/
theorem of_op {m : StateOutcome σ ε α}
    (h : ∀ s, ∃ o, log (m s).2 = log s ++ [o] ∧ ((m s).1.Returns ↔ ¬ bad o)) :
    ReturnsUnless log bad m := fun s => by
  obtain ⟨o, hlog, hr⟩ := h s
  exact ⟨[o], hlog, by simpa using hr⟩

/-- **The rule for sequencing**: the log of the parts, one after the other. -/
theorem bind {m : StateOutcome σ ε α} {k : α → StateOutcome σ ε β} (h : ReturnsUnless log bad m)
    (hk : ∀ a, ReturnsUnless log bad (k a)) : ReturnsUnless log bad (m >>= k) := by
  intro s
  obtain ⟨l, hl, hr⟩ := h s
  rcases hm : m s with ⟨o, s'⟩
  rw [hm] at hl hr
  cases o with
  | ok a =>
    obtain ⟨l', hl', hr'⟩ := hk a s'
    rw [bind_run_of_ok hm]
    refine ⟨l ++ l', by rw [hl', hl, List.append_assoc], ?_⟩
    have hgood : ∀ o ∈ l, ¬ bad o := hr.mp trivial
    rw [hr']
    simp only [List.mem_append]
    exact ⟨fun h o ho => ho.elim (hgood o) (h o), fun h o ho => h o (Or.inr ho)⟩
  | _ => exact ⟨l, by rw [bind_run, hm]; exact hl, by rw [bind_run, hm]; exact hr⟩

end ReturnsUnless

/-- The computation extends the log, and what its new entries cost, with what is
left of the budget, is within the budget before, as long as each new entry fits. -/
def Spends (left : σ → ℕ) (cost : ω → ℕ) (fits : ω → Prop) (m : StateOutcome σ ε α) : Prop :=
  ∀ s, ∃ l, log (m s).2 = log s ++ l ∧
    ((∀ o ∈ l, fits o) → (l.map cost).sum + left (m s).2 ≤ left s)

namespace Spends

variable {log} {left : σ → ℕ} {cost : ω → ℕ} {fits : ω → Prop}

/-- A computation that logs nothing and adds nothing to the budget. -/
theorem of_silent {m : StateOutcome σ ε α} (hlog : ∀ s, log (m s).2 = log s)
    (hleft : ∀ s, left (m s).2 ≤ left s) : Spends log left cost fits m := fun s =>
  ⟨[], by rw [hlog, List.append_nil], fun _ => by simpa using hleft s⟩

theorem pure (a : α) : Spends log left cost fits (pure a : StateOutcome σ ε α) :=
  of_silent (fun _ => rfl) fun _ => le_rfl

theorem lift (x : Outcome ε α) : Spends log left cost fits (lift x) :=
  of_silent (fun _ => rfl) fun _ => le_rfl

/-- **The rule for sequencing**: costs add up. -/
theorem bind {m : StateOutcome σ ε α} {k : α → StateOutcome σ ε β} (h : Spends log left cost fits m)
    (hk : ∀ a, Spends log left cost fits (k a)) : Spends log left cost fits (m >>= k) := by
  intro s
  obtain ⟨l, hl, hc⟩ := h s
  rcases hm : m s with ⟨o, s'⟩
  rw [hm] at hl hc
  cases o with
  | ok a =>
    obtain ⟨l', hl', hc'⟩ := hk a s'
    rw [bind_run_of_ok hm]
    refine ⟨l ++ l', by rw [hl', hl, List.append_assoc], fun hfit => ?_⟩
    have h1 := hc fun o ho => hfit o (List.mem_append_left l' ho)
    have h2 := hc' fun o ho => hfit o (List.mem_append_right l ho)
    rw [List.map_append, List.sum_append]
    dsimp only at h1
    omega
  | _ => exact ⟨l, by rw [bind_run, hm]; exact hl, by rw [bind_run, hm]; exact hc⟩

end Spends

/-- The computation extends the log by entries of a kind. -/
def Logs (kind : ω → Prop) (m : StateOutcome σ ε α) : Prop :=
  ∀ s, ∃ l, log (m s).2 = log s ++ l ∧ ∀ o ∈ l, kind o

namespace Logs

variable {log} {kind kind' : ω → Prop}

theorem mono {m : StateOutcome σ ε α} (h : Logs log kind m) (hkind : ∀ o, kind o → kind' o) :
    Logs log kind' m := by
  intro s
  obtain ⟨l, hl, hk⟩ := h s
  exact ⟨l, hl, fun o ho => hkind o (hk o ho)⟩

/-- A computation that logs nothing. -/
theorem of_silent {m : StateOutcome σ ε α} (hlog : ∀ s, log (m s).2 = log s) : Logs log kind m :=
  fun s => ⟨[], by rw [hlog, List.append_nil], fun _ ho => by cases ho⟩

theorem pure (a : α) : Logs log kind (pure a : StateOutcome σ ε α) := of_silent fun _ => rfl

theorem lift (x : Outcome ε α) : Logs log kind (lift x : StateOutcome σ ε α) :=
  of_silent fun _ => rfl

/-- A computation that logs one operation. -/
theorem of_op {m : StateOutcome σ ε α} (h : ∀ s, ∃ o, log (m s).2 = log s ++ [o] ∧ kind o) :
    Logs log kind m := by
  intro s
  obtain ⟨o, hlog, ho⟩ := h s
  exact ⟨[o], hlog, fun o' ho' => by rwa [List.mem_singleton.mp ho']⟩

/-- **The rule for sequencing**: the entries of the parts. -/
theorem bind {m : StateOutcome σ ε α} {k : α → StateOutcome σ ε β} (h : Logs log kind m)
    (hk : ∀ a, Logs log kind (k a)) : Logs log kind (m >>= k) := by
  intro s
  obtain ⟨l, hl, hkind⟩ := h s
  rw [bind_run]
  rcases hm : m s with ⟨o, s'⟩
  rw [hm] at hl
  cases o with
  | ok a =>
    obtain ⟨l', hl', hkind'⟩ := hk a s'
    refine ⟨l ++ l', by rw [hl', hl, List.append_assoc], fun o ho => ?_⟩
    rcases List.mem_append.mp ho with ho | ho
    · exact hkind o ho
    · exact hkind' o ho
  | _ => exact ⟨l, hl, hkind⟩

end Logs

end Log

/-! ## Instrumentation -/

section Instrumentation

variable {ω : Type}

/-- Run beside a trace. -/
def untraced (m : StateOutcome σ ε α) : StateOutcome (σ × List ω) ε α := fun s =>
  ((m s.1).1, ((m s.1).2, s.2))

theorem untraced_bind (m : StateOutcome σ ε α) (k : α → StateOutcome σ ε β) :
    (untraced (m >>= k) : StateOutcome (σ × List ω) ε β) =
      untraced m >>= fun a => untraced (k a) := by
  funext s
  simp only [untraced, bind_run]
  rcases m s.1 with ⟨a | e | _ | _, s'⟩ <;> rfl

/-- Run, and note the outcome in the trace. -/
def traced (note : Outcome ε α → ω) (m : StateOutcome σ ε α) : StateOutcome (σ × List ω) ε α :=
  fun s => ((m s.1).1, ((m s.1).2, s.2 ++ [note (m s.1).1]))

/-- **`m` does what `n` does**, and adds to a trace. -/
def Instruments (m : StateOutcome (σ × List ω) ε α) (n : StateOutcome σ ε α) : Prop :=
  ∀ s t, ∃ t', m (s, t) = ((n s).1, ((n s).2, t ++ t'))

namespace Instruments

theorem pure (a : α) :
    Instruments (Pure.pure a : StateOutcome (σ × List ω) ε α) (Pure.pure a) := fun s t =>
  ⟨[], by rw [List.append_nil]; rfl⟩

theorem lift (x : Outcome ε α) :
    Instruments (lift x : StateOutcome (σ × List ω) ε α) (lift x) := fun s t =>
  ⟨[], by rw [List.append_nil]; rfl⟩

theorem untraced (m : StateOutcome σ ε α) :
    Instruments (untraced m : StateOutcome (σ × List ω) ε α) m := fun s t =>
  ⟨[], by rw [List.append_nil]; rfl⟩

theorem traced (note : Outcome ε α → ω) (m : StateOutcome σ ε α) :
    Instruments (traced note m) m := fun s _ => ⟨[note (m s).1], rfl⟩

/-- **The rule for sequencing.** -/
theorem bind {m : StateOutcome (σ × List ω) ε α} {n : StateOutcome σ ε α}
    {k : α → StateOutcome (σ × List ω) ε β} {l : α → StateOutcome σ ε β} (h : Instruments m n)
    (hk : ∀ a, Instruments (k a) (l a)) : Instruments (m >>= k) (n >>= l) := by
  intro s t
  obtain ⟨t', ht⟩ := h s t
  rw [bind_run, bind_run, ht]
  rcases n s with ⟨a | e | _ | _, s'⟩
  · obtain ⟨t'', ht''⟩ := hk a s' (t ++ t')
    exact ⟨t' ++ t'', by rw [← List.append_assoc]; exact ht''⟩
  · exact ⟨t', rfl⟩
  · exact ⟨t', rfl⟩
  · exact ⟨t', rfl⟩

/-- The trace only grows. -/
theorem grows {m : StateOutcome (σ × List ω) ε α} {n : StateOutcome σ ε α}
    (h : Instruments m n) : Grows Prod.snd m := by
  rintro ⟨s, t⟩
  obtain ⟨t', ht⟩ := h s t
  exact ⟨t', by rw [ht]⟩

end Instruments

end Instrumentation

end StateOutcome
