/-
# The deadline

Both evaluators poll the deadline once in so many nodes.  `visits` is the trace of a
run: the states in which the walk enters a node and pays for it, in order.  It is
written once for any evaluator, over the parts that the two have in common.

Along a trace the counter of an evaluator goes up by one at each node, and starts again
at a node that polls (`Walked`); a node that polls and is told that the time is over is
the last.  Both facts hold of every part of the walk (`Paces`), by induction on the
expression.
-/
import PySpell.EvalAsync

open StateOutcome

namespace Deadline

open Eval

/-! ## Traces -/

/-- What the two evaluators have in common. -/
structure Evaluator (σ : Type) where
  budget : σ → UInt32
  sinceCheck : σ → UInt32
  events : σ → List Event
  tick : StateOutcome σ DslError Unit
  eval : Expr → StateOutcome σ DslError Value
  /-- What comes before the items of a list literal. -/
  spine : ℕ → StateOutcome σ DslError Unit
  store : UInt16 → Value → StateOutcome σ DslError Unit

/-- The sync evaluator. -/
def sync (host : Host) : Evaluator Frame where
  budget := Frame.budget
  sinceCheck := Frame.sinceCheck
  events := Frame.events
  tick := Eval.tick host
  eval := Eval.eval host
  spine := Eval.buildSpine host
  store := Eval.storeLocal

/-- The async evaluator. -/
def async (host : Host) : Evaluator AsyncCtx where
  budget := AsyncCtx.budget
  sinceCheck := AsyncCtx.sinceCheck
  events := AsyncCtx.events
  tick := EvalAsync.tick host
  eval := EvalAsync.evalAsync host
  spine := fun _ => pure ()
  store := EvalAsync.storeLocal

variable {σ α β : Type}

/-- What is visited after a part that returned. -/
def after (m : StateOutcome σ DslError α) (s : σ) (k : α → σ → List σ) : List σ :=
  match m s with
  | (.ok a, s') => k a s'
  | _ => []

namespace Evaluator

variable (ev : Evaluator σ)

/-- A node is visited when there is a step left to pay for it. -/
def enter (s : σ) : List σ := if ev.budget s = 0 then [] else [s]

/-- A node is visited, and what is visited after its step. -/
def node (s : σ) (k : σ → List σ) : List σ := ev.enter s ++ after ev.tick s fun _ => k

mutual

/-- The states in which the walk visits a node, in order. -/
def visits : Expr → σ → List σ
  | .const _, s => ev.node s fun _ => []
  | .local _, s => ev.node s fun _ => []
  | .var _, s => ev.node s fun _ => []
  | .bin _ a b, s => ev.node s fun s =>
    visits a s ++ after (ev.eval a) s fun _ s => visits b s
  | .cmp _ a b, s => ev.node s fun s =>
    visits a s ++ after (ev.eval a) s fun _ s => visits b s
  | .bool op a b, s => ev.node s fun s =>
    visits a s ++ after (ev.eval a) s fun l s =>
      match op, asBool l with
      | .and, false => []
      | .or, true => []
      | _, _ => visits b s
  | .unary _ a, s => ev.node s fun s => visits a s
  | .index l i, s => ev.node s fun s =>
    visits l s ++ after (ev.eval l) s fun _ s => visits i s
  | .ite c t e, s => ev.node s fun s =>
    visits c s ++ after (ev.eval c) s fun b s =>
      match asBool b with
      | true => visits t s
      | false => visits e s
  | .call _ args, s => ev.node s fun s => visitsArgs args s
  | .list items, s => ev.node s fun s =>
    after (ev.spine items.length) s fun _ s => visitsArgs items s

def visitsArgs : List Expr → σ → List σ
  | [], _ => []
  | e :: es, s => visits e s ++ after (ev.eval e) s fun _ s => visitsArgs es s

end

def visitsBody : List LetBinding → σ → List σ
  | [], _ => []
  | b :: bs, s => ev.visits b.expr s ++ after (ev.eval b.expr) s fun v s =>
    after (ev.store b.slot v) s fun _ s => visitsBody bs s

/-- The bindings of a program, in the evaluator. -/
def body : List LetBinding → StateOutcome σ DslError Unit
  | [] => pure ()
  | b :: bs => do
    let v ← ev.eval b.expr
    ev.store b.slot v
    body bs

/-- The states in which a run visits a node, in order. -/
def visitsRun (p : Program) (s : σ) : List σ :=
  ev.visitsBody p.body s ++ after (ev.body p.body) s fun _ s => ev.visits p.ret s

/-- The step of a node polls the deadline. -/
def Polls (s : σ) : Prop := ev.events (ev.tick s).2 = ev.events s ++ [.poll]

end Evaluator

/-! ## The counter -/

/-- What a step does to the counter, with a deadline installed. -/
structure Ticks (ev : Evaluator σ) (deadline : List Event → Bool) : Prop where
  gives_up : ∀ s, ev.budget s = 0 → ev.tick s = (.err .budget, s)
  waits : ∀ s, ev.budget s ≠ 0 → ¬ deadlineCheckInterval ≤ ev.sinceCheck s + 1 →
    ∃ s', ev.tick s = (.ok (), s') ∧ ev.budget s' = ev.budget s - 1 ∧
      ev.sinceCheck s' = ev.sinceCheck s + 1 ∧ ev.events s' = ev.events s
  polls : ∀ s, ev.budget s ≠ 0 → deadlineCheckInterval ≤ ev.sinceCheck s + 1 →
    ∃ s', ev.tick s = (if deadline (ev.events s) then .err .timeout else .ok (), s') ∧
      ev.budget s' = ev.budget s - 1 ∧ ev.sinceCheck s' = 0 ∧
      ev.events s' = ev.events s ++ [.poll]

/-- The synchronous evaluator looks at the clock as the rule says. -/
theorem ticks_sync {host : Host} {deadline : List Event → Bool}
    (h : host.deadline = some deadline) : Ticks (sync host) deadline where
  gives_up s hs := by
    show Eval.tick host s = _
    rw [Eval.tick, if_pos (show s.budget = 0 from hs)]
  waits s hs hc := by
    have hs' : ¬ s.budget = 0 := hs
    have hc' : ¬ deadlineCheckInterval ≤ s.sinceCheck + 1 := hc
    refine ⟨{ s with budget := s.budget - 1, sinceCheck := s.sinceCheck + 1 }, ?_, rfl, rfl, rfl⟩
    show Eval.tick host s = _
    rw [Eval.tick, if_neg hs', h]
    dsimp only
    rw [if_neg hc']
  polls s hs hc := by
    have hs' : ¬ s.budget = 0 := hs
    have hc' : deadlineCheckInterval ≤ s.sinceCheck + 1 := hc
    refine ⟨{ s with
      budget := s.budget - 1
      sinceCheck := 0
      events := s.events ++ [.poll] }, ?_, rfl, rfl, rfl⟩
    show Eval.tick host s = _
    rw [Eval.tick, if_neg hs', h]
    dsimp only
    rw [if_pos hc']
    show (if deadline s.events = true then _ else _) = (if deadline s.events = true then _ else _, _)
    split_ifs
    · rfl
    · rfl

/-- So does the asynchronous one. -/
theorem ticks_async {host : Host} {deadline : List Event → Bool}
    (h : host.deadline = some deadline) : Ticks (async host) deadline where
  gives_up s hs := by
    show EvalAsync.tick host s = _
    rw [EvalAsync.tick, if_pos (show s.budget = 0 from hs)]
  waits s hs hc := by
    have hs' : ¬ s.budget = 0 := hs
    have hc' : ¬ deadlineCheckInterval ≤ s.sinceCheck + 1 := hc
    refine ⟨{ s with budget := s.budget - 1, sinceCheck := s.sinceCheck + 1 }, ?_, rfl, rfl, rfl⟩
    show EvalAsync.tick host s = _
    rw [EvalAsync.tick, if_neg hs', h]
    dsimp only
    rw [if_neg hc']
  polls s hs hc := by
    have hs' : ¬ s.budget = 0 := hs
    have hc' : deadlineCheckInterval ≤ s.sinceCheck + 1 := hc
    refine ⟨{ s with
      budget := s.budget - 1
      sinceCheck := 0
      events := s.events ++ [.poll] }, ?_, rfl, rfl, rfl⟩
    show EvalAsync.tick host s = _
    rw [EvalAsync.tick, if_neg hs', h]
    dsimp only
    rw [if_pos hc']
    show (if deadline s.events = true then _ else _) = (if deadline s.events = true then _ else _, _)
    split_ifs
    · rfl
    · rfl

/-- The deadline is polled in this state, and the answer is that the time is over. -/
def TimesOut (ev : Evaluator σ) (deadline : List Event → Bool) (s : σ) : Prop :=
  deadlineCheckInterval ≤ ev.sinceCheck s + 1 ∧ deadline (ev.events s) = true

/-- A trace on which the counter goes from one value to another: up by one at each node,
and back at a node that polls.  A node at which the time is over is the last. -/
inductive Walked (ev : Evaluator σ) (deadline : List Event → Bool) :
    UInt32 → List σ → UInt32 → Prop
  | nil (c : UInt32) : Walked ev deadline c [] c
  | cons {s : σ} {l : List σ} {c : UInt32} (hpaid : ev.budget s ≠ 0)
      (hover : TimesOut ev deadline s → l = [])
      (hrest : Walked ev deadline
        (if deadlineCheckInterval ≤ ev.sinceCheck s + 1 then 0 else ev.sinceCheck s + 1) l c) :
      Walked ev deadline (ev.sinceCheck s) (s :: l) c

namespace Walked

variable {ev : Evaluator σ} {deadline : List Event → Bool} {c c' c'' : UInt32} {l l' : List σ}

/-- A walk goes on with another when no deadline passed in the first. -/
theorem append (h : Walked ev deadline c l c') (hover : ∀ s ∈ l, ¬ TimesOut ev deadline s)
    (h' : Walked ev deadline c' l' c'') : Walked ev deadline c (l ++ l') c'' := by
  induction h with
  | nil c => exact h'
  | @cons s l c hpaid _ hrest ih =>
    refine .cons hpaid (fun hs => absurd hs (hover s (List.mem_cons_self ..))) ?_
    exact ih (fun t ht => hover t (List.mem_cons_of_mem s ht)) h'

/-- The counter stays below the interval. -/
theorem counter_next {n : UInt32} (h : n.toNat < 256) :
    (deadlineCheckInterval ≤ n + 1 ↔ n.toNat = 255) ∧ (n + 1).toNat = n.toNat + 1 := by
  have hone : (1 : UInt32).toNat = 1 := rfl
  have hint : deadlineCheckInterval.toNat = 256 := rfl
  have hadd : (n + 1).toNat = n.toNat + 1 := by
    rw [UInt32.toNat_add, hone, Nat.mod_eq_of_lt (by omega)]
  refine ⟨?_, hadd⟩
  rw [UInt32.le_iff_toNat_le, hadd, hint]
  omega

/-- What is left of a trace behind a part of it. -/
theorem drop (h : Walked ev deadline c (l ++ l') c') (hc : c.toNat < 256) :
    ∃ c'' : UInt32, c''.toNat < 256 ∧ Walked ev deadline c'' l' c' := by
  induction l generalizing c with
  | nil => exact ⟨c, hc, h⟩
  | cons s l ih =>
    rw [List.cons_append] at h
    cases h with
    | cons hpaid hover hrest =>
      refine ih hrest ?_
      obtain ⟨hpoll, hadd⟩ := counter_next hc
      split_ifs with hle
      · exact Nat.zero_lt_succ _
      · rw [hpoll] at hle
        omega

/-- **A poll is near**: a trace as long as the rest of the interval has one. -/
theorem exists_poll (h : Walked ev deadline c (l ++ l') c') (hc : c.toNat < 256)
    (hlen : 256 ≤ c.toNat + l.length) :
    ∃ s ∈ l, ev.budget s ≠ 0 ∧ deadlineCheckInterval ≤ ev.sinceCheck s + 1 := by
  induction l generalizing c with
  | nil =>
    rw [List.length_nil] at hlen
    omega
  | cons s l ih =>
    rw [List.cons_append] at h
    cases h with
    | cons hpaid hover hrest =>
      by_cases hpoll : deadlineCheckInterval ≤ ev.sinceCheck s + 1
      · exact ⟨s, List.mem_cons_self .., hpaid, hpoll⟩
      · rw [if_neg hpoll] at hrest
        obtain ⟨hiff, hadd⟩ := counter_next hc
        rw [hiff] at hpoll
        rw [List.length_cons] at hlen
        obtain ⟨t, ht, htpoll⟩ := ih hrest (by omega) (by omega)
        exact ⟨t, List.mem_cons_of_mem s ht, htpoll⟩

end Walked

/-! ## Parts of the walk -/

/-- A computation keeps the pace of the counter along its trace: it pays for each node on
it, and it does not return once the time is over. -/
structure PacesFrom (ev : Evaluator σ) (deadline : List Event → Bool)
    (m : StateOutcome σ DslError α) (s : σ) (l : List σ) : Prop where
  walked : Walked ev deadline (ev.sinceCheck s) l (ev.sinceCheck (m s).2)
  paid : l.length + (ev.budget (m s).2).toNat = (ev.budget s).toNat
  returns : ∀ a, (m s).1 = .ok a → ∀ t ∈ l, ¬ TimesOut ev deadline t

/-- It does so from every state. -/
def Paces (ev : Evaluator σ) (deadline : List Event → Bool) (m : StateOutcome σ DslError α)
    (trace : σ → List σ) : Prop := ∀ s, PacesFrom ev deadline m s (trace s)

/-- The computation visits no node. -/
def Still (ev : Evaluator σ) (m : StateOutcome σ DslError α) : Prop :=
  ∀ s, ev.sinceCheck (m s).2 = ev.sinceCheck s ∧ ev.budget (m s).2 = ev.budget s

namespace Paces

variable {ev : Evaluator σ} {deadline : List Event → Bool}

/-- What keeps the counters visits nothing. -/
theorem of_still {m : StateOutcome σ DslError α} (h : Still ev m) :
    Paces ev deadline m fun _ => [] := by
  intro s
  obtain ⟨hsince, hbudget⟩ := h s
  exact ⟨by rw [hsince]; exact .nil _, by rw [hbudget]; simp, fun _ _ t ht => by cases ht⟩

/-- A value visits nothing. -/
theorem pure (a : α) : Paces ev deadline (Pure.pure a : StateOutcome σ DslError α) fun _ => [] :=
  of_still fun _ => ⟨rfl, rfl⟩

/-- **The rule for sequencing**: one trace after the other. -/
theorem bind {m : StateOutcome σ DslError α} {k : α → StateOutcome σ DslError β}
    {trace : σ → List σ} {next : α → σ → List σ} (h : Paces ev deadline m trace)
    (hk : ∀ a, Paces ev deadline (k a) (next a)) :
    Paces ev deadline (m >>= k) fun s => trace s ++ after m s next := by
  intro s
  obtain ⟨hwalked, hpaid, hreturns⟩ := h s
  show PacesFrom ev deadline (m >>= k) s (trace s ++ after m s next)
  rcases hm : m s with ⟨o, s'⟩
  rw [hm] at hwalked hpaid hreturns
  cases o with
  | ok a =>
    have hafter : after m s next = next a s' := by unfold after; rw [hm]
    rw [hafter]
    obtain ⟨hwalked', hpaid', hreturns'⟩ := hk a s'
    have hrun : (m >>= k) s = k a s' := bind_run_of_ok hm
    have hover := hreturns a rfl
    refine ⟨?_, ?_, fun b hb t ht => ?_⟩
    · rw [hrun]
      exact hwalked.append hover hwalked'
    · rw [hrun, List.length_append]
      dsimp only at hpaid ⊢
      omega
    · rw [hrun] at hb
      rcases List.mem_append.mp ht with ht | ht
      · exact hover t ht
      · exact hreturns' b hb t ht
  | _ =>
    have hafter : after m s next = [] := by unfold after; rw [hm]
    rw [hafter, List.append_nil]
    have hrun := bind_run m k s
    rw [hm] at hrun
    dsimp only at hrun
    exact ⟨by rw [hrun]; exact hwalked, by rw [hrun]; exact hpaid,
      fun b hb => by rw [hrun] at hb; cases hb⟩

/-- A part at the end that visits no node. -/
theorem still {m : StateOutcome σ DslError α} {k : α → StateOutcome σ DslError β}
    {trace : σ → List σ} (h : Paces ev deadline m trace) (hk : ∀ a, Still ev (k a)) :
    Paces ev deadline (m >>= k) trace := by
  intro s
  have hbind := h.bind (fun a => of_still (hk a)) s
  dsimp only at hbind
  have hnil : after m s (fun _ _ => []) = ([] : List σ) := by
    unfold after
    rcases m s with ⟨o, s'⟩
    cases o <;> rfl
  rwa [hnil, List.append_nil] at hbind

/-- **A step** visits its node. -/
theorem tick (hticks : Ticks ev deadline) : Paces ev deadline ev.tick ev.enter := by
  intro s
  have hone : (1 : UInt32).toNat = 1 := rfl
  by_cases hzero : ev.budget s = 0
  · have hrun := hticks.gives_up s hzero
    rw [Evaluator.enter, if_pos hzero]
    exact ⟨by rw [hrun]; exact .nil _, by rw [hrun]; simp, fun _ _ t ht => by cases ht⟩
  · rw [Evaluator.enter, if_neg hzero]
    have hpos : (ev.budget s).toNat ≠ 0 := fun h0 => hzero (UInt32.toNat_inj.mp h0)
    have hless : 1 + (ev.budget s - 1).toNat = (ev.budget s).toNat := by
      rw [UInt32.toNat_sub_of_le, hone]
      · omega
      · rw [UInt32.le_iff_toNat_le, hone]
        omega
    by_cases hpoll : deadlineCheckInterval ≤ ev.sinceCheck s + 1
    · obtain ⟨s', hrun, hbudget, hsince, -⟩ := hticks.polls s hzero hpoll
      refine ⟨.cons hzero (fun _ => rfl) ?_, ?_, fun a ha t ht hover => ?_⟩
      · rw [if_pos hpoll, hrun]
        dsimp only
        rw [hsince]
        exact .nil 0
      · rw [hrun]
        dsimp only
        rw [hbudget]
        exact hless
      · rw [hrun] at ha
        dsimp only at ha
        rw [List.mem_singleton.mp ht] at hover
        rw [if_pos hover.2] at ha
        cases ha
    · obtain ⟨s', hrun, hbudget, hsince, -⟩ := hticks.waits s hzero hpoll
      refine ⟨.cons hzero (fun _ => rfl) ?_, ?_, fun a ha t ht hover => ?_⟩
      · rw [if_neg hpoll, hrun]
        dsimp only
        rw [hsince]
        exact .nil _
      · rw [hrun]
        dsimp only
        rw [hbudget]
        exact hless
      · rw [List.mem_singleton.mp ht] at hover
        exact hpoll hover.1

/-- **A node**, and what is visited behind its step. -/
theorem node {k : StateOutcome σ DslError α} {next : σ → List σ} (hticks : Ticks ev deadline)
    (hk : Paces ev deadline k next) :
    Paces ev deadline (do ev.tick; k) fun s => ev.node s next :=
  (tick hticks).bind fun _ => hk

/-- A leaf is one visit. -/
theorem leaf {k : StateOutcome σ DslError α} (hticks : Ticks ev deadline) (hk : Still ev k) :
    Paces ev deadline (do ev.tick; k) fun s => ev.node s fun _ => [] :=
  node hticks (of_still hk)

end Paces

/-- Parts that keep the counters make a whole that keeps them. -/
theorem Still.bind {ev : Evaluator σ} {m : StateOutcome σ DslError α}
    {k : α → StateOutcome σ DslError β} (h : Still ev m) (hk : ∀ a, Still ev (k a)) :
    Still ev (m >>= k) := by
  intro s
  obtain ⟨hsince, hbudget⟩ := h s
  rw [bind_run]
  rcases hm : m s with ⟨o, s'⟩
  rw [hm] at hsince hbudget
  cases o with
  | ok a => exact ⟨(hk a s').1.trans hsince, (hk a s').2.trans hbudget⟩
  | _ => exact ⟨hsince, hbudget⟩

/-! ## The sync evaluator -/

/-- Memory is no step, and does not bring the next poll nearer. -/
theorem still_charge (host : Host) (bytes : ℕ) : Still (sync host) (charge bytes) := by
  intro f
  show (charge bytes f).2.sinceCheck = f.sinceCheck ∧ (charge bytes f).2.budget = f.budget
  unfold charge
  dsimp only
  split_ifs
  · exact ⟨rfl, rfl⟩
  · exact ⟨rfl, rfl⟩

/-- Neither is the charge for a result. -/
theorem still_chargeResult (host : Host) (built : Bool) (v : Value) :
    Still (sync host) (chargeResult host built v) := by
  intro f
  unfold chargeResult
  split
  · exact still_charge host (valueBytes host v) _
  · exact still_charge host (valueBytes host v) f

/-- Nor for what was computed in between. -/
theorem still_charged {host : Host} {m : Run Value} {built : Value → Bool}
    (hm : Still (sync host) m) :
    Still (sync host) (do
      let r ← m
      chargeResult host (built r) r
      pure r) :=
  hm.bind fun r => (still_chargeResult host (built r) r).bind fun _ _ => ⟨rfl, rfl⟩

/-- Operations on values take no step beyond their node. -/
theorem still_evalBin (host : Host) (op : BinOp) (x y : Value) :
    Still (sync host) (evalBin host op x y) := still_charged fun _ => ⟨rfl, rfl⟩

/-- Nor do calls. -/
theorem still_evalCall (host : Host) (b : Builtin) (vals : List Value) :
    Still (sync host) (evalCall host b vals) := still_charged fun _ => ⟨rfl, rfl⟩

/-- Nor the spine of a list. -/
theorem still_buildSpine (host : Host) (n : ℕ) : Still (sync host) (buildSpine host n) :=
  fun _ => ⟨rfl, rfl⟩

/-- Nor the list. -/
theorem still_evalList (host : Host) (vals : List Value) :
    Still (sync host) (evalList host vals) :=
  (still_charge host _).bind fun _ _ => ⟨rfl, rfl⟩

/-- Nor storing a local. -/
theorem still_storeLocal (host : Host) (slot : UInt16) (v : Value) :
    Still (sync host) (storeLocal slot v) := by
  intro f
  show (storeLocal slot v f).2.sinceCheck = f.sinceCheck ∧
    (storeLocal slot v f).2.budget = f.budget
  unfold storeLocal
  dsimp only
  split_ifs
  · exact ⟨rfl, rfl⟩
  · exact ⟨rfl, rfl⟩

/-- The right operand of a Boolean operator is visited only when it decides. -/
theorem paces_bool {host : Host} {deadline : List Event → Bool} {op : BoolOp} {b : Expr}
    (hb : Paces (sync host) deadline (eval host b) ((sync host).visits b)) (l : Value) :
    Paces (sync host) deadline (match op, asBool l with
      | .and, false => pure (.bool false)
      | .or, true => pure (.bool true)
      | _, _ => do
        let r ← eval host b
        pure (.bool (asBool r)) : Run Value)
      (fun s => match op, asBool l with
        | .and, false => []
        | .or, true => []
        | _, _ => (sync host).visits b s) := by
  have hright : Paces (sync host) deadline (do let r ← eval host b; pure (.bool (asBool r)) : Run Value)
      ((sync host).visits b) := hb.still fun _ _ => ⟨rfl, rfl⟩
  split
  · exact .pure _
  · exact .pure _
  · exact hright

mutual

/-- **The walk keeps the pace**, by induction on the expression. -/
theorem paces_eval {host : Host} {deadline : List Event → Bool}
    (hticks : Ticks (sync host) deadline) :
    ∀ e : Expr, Paces (sync host) deadline (eval host e) ((sync host).visits e)
  | .const _ => .leaf hticks fun _ => ⟨rfl, rfl⟩
  | .local _ => .leaf hticks fun _ => ⟨rfl, rfl⟩
  | .var _ => .leaf hticks fun _ => ⟨rfl, rfl⟩
  | .bin op a b => .node hticks <| (paces_eval hticks a).bind fun x =>
      (paces_eval hticks b).still fun y => still_evalBin host op x y
  | .cmp op a b => .node hticks <| (paces_eval hticks a).bind fun _ =>
      (paces_eval hticks b).still fun _ _ => ⟨rfl, rfl⟩
  | .bool op a b => .node hticks <| (paces_eval hticks a).bind fun l =>
      paces_bool (paces_eval hticks b) l
  | .unary op a => .node hticks <| (paces_eval hticks a).still fun v f => by
      cases op with
      | neg => exact ⟨rfl, rfl⟩
      | not => exact ⟨rfl, rfl⟩
  | .index l i => .node hticks <| (paces_eval hticks l).bind fun _ =>
      (paces_eval hticks i).still fun _ _ => ⟨rfl, rfl⟩
  | .ite c t e => .node hticks <| (paces_eval hticks c).bind fun b => by
      cases asBool b
      · exact paces_eval hticks e
      · exact paces_eval hticks t
  | .call b args => .node hticks <| (paces_evalArgs hticks args).still fun vals =>
      still_evalCall host b vals
  | .list items => .node hticks <| (Paces.of_still (still_buildSpine host _)).bind fun _ =>
      (paces_evalArgs hticks items).still fun vals => still_evalList host vals

/-- **Arguments keep the pace of expressions**: the clock is looked at once in every interval of
visits. -/
theorem paces_evalArgs {host : Host} {deadline : List Event → Bool}
    (hticks : Ticks (sync host) deadline) : ∀ es : List Expr,
    Paces (sync host) deadline (evalArgs host es) ((sync host).visitsArgs es)
  | [] => .pure []
  | e :: es => (paces_eval hticks e).bind fun _ => (paces_evalArgs hticks es).still fun _ _ => ⟨rfl, rfl⟩

end

/-! ## The async evaluator -/

/-- The right operand of a Boolean operator is visited only when it decides. -/
theorem paces_asyncBool {host : Host} {deadline : List Event → Bool} {op : BoolOp} {b : Expr}
    (hb : Paces (async host) deadline (EvalAsync.evalAsync host b) ((async host).visits b)) (l : Value) :
    Paces (async host) deadline (match op, asBool l with
      | .and, false => pure (.bool false)
      | .or, true => pure (.bool true)
      | _, _ => do
        let r ← EvalAsync.evalAsync host b
        pure (.bool (asBool r)) : AsyncRun Value)
      (fun s => match op, asBool l with
        | .and, false => []
        | .or, true => []
        | _, _ => (async host).visits b s) := by
  have hright : Paces (async host) deadline
      (do let r ← EvalAsync.evalAsync host b; pure (.bool (asBool r)) : AsyncRun Value)
      ((async host).visits b) := hb.still fun _ _ => ⟨rfl, rfl⟩
  split
  · exact .pure _
  · exact .pure _
  · exact hright

mutual

/-- **The walk keeps the pace**, by induction on the expression. -/
theorem paces_evalAsync {host : Host} {deadline : List Event → Bool}
    (hticks : Ticks (async host) deadline) :
    ∀ e : Expr, Paces (async host) deadline (EvalAsync.evalAsync host e) ((async host).visits e)
  | .const _ => .leaf hticks fun _ => ⟨rfl, rfl⟩
  | .local _ => .leaf hticks fun _ => ⟨rfl, rfl⟩
  | .var _ => .leaf hticks fun _ => ⟨rfl, rfl⟩
  | .bin op a b => .node hticks <| (paces_evalAsync hticks a).bind fun x =>
      (paces_evalAsync hticks b).still fun y _ => ⟨rfl, rfl⟩
  | .cmp op a b => .node hticks <| (paces_evalAsync hticks a).bind fun _ =>
      (paces_evalAsync hticks b).still fun _ _ => ⟨rfl, rfl⟩
  | .bool op a b => .node hticks <| (paces_evalAsync hticks a).bind fun l =>
      paces_asyncBool (paces_evalAsync hticks b) l
  | .unary op a => .node hticks <| (paces_evalAsync hticks a).still fun v f => by
      cases op with
      | neg => exact ⟨rfl, rfl⟩
      | not => exact ⟨rfl, rfl⟩
  | .index l i => .node hticks <| (paces_evalAsync hticks l).bind fun _ =>
      (paces_evalAsync hticks i).still fun _ _ => ⟨rfl, rfl⟩
  | .ite c t e => .node hticks <| (paces_evalAsync hticks c).bind fun b => by
      cases asBool b
      · exact paces_evalAsync hticks e
      · exact paces_evalAsync hticks t
  | .call b args => .node hticks <| (paces_evalAsyncArgs hticks args).still fun vals _ =>
      ⟨rfl, rfl⟩
  | .list items => .node hticks <| (paces_evalAsyncArgs hticks items).still fun vals _ =>
      ⟨rfl, rfl⟩

/-- The asynchronous evaluator keeps it in the same way. -/
theorem paces_evalAsyncArgs {host : Host} {deadline : List Event → Bool}
    (hticks : Ticks (async host) deadline) : ∀ es : List Expr,
    Paces (async host) deadline (EvalAsync.evalAsyncArgs host es) ((async host).visitsArgs es)
  | [] => .pure []
  | e :: es => (paces_evalAsync hticks e).bind fun _ =>
    (paces_evalAsyncArgs hticks es).still fun _ _ => ⟨rfl, rfl⟩

end

/-! ## Runs -/

/-- The bindings of the rule are those of the evaluator. -/
theorem body_sync (host : Host) (bs : List LetBinding) :
    (sync host).body bs = runBody host bs := by
  induction bs with
  | nil => rfl
  | cons b bs ih =>
    rw [Evaluator.body, ih]
    rfl

/-- Also of the asynchronous one. -/
theorem body_async (host : Host) (bs : List LetBinding) :
    (async host).body bs = EvalAsync.runBody host bs := by
  induction bs with
  | nil => rfl
  | cons b bs ih =>
    rw [Evaluator.body, ih]
    rfl

/-- The bindings keep the pace, and with the return expression the run does. -/
theorem paces_run {ev : Evaluator σ} {deadline : List Event → Bool}
    (heval : ∀ e, Paces ev deadline (ev.eval e) (ev.visits e))
    (hstore : ∀ slot v, Still ev (ev.store slot v)) (p : Program) :
    Paces ev deadline (do ev.body p.body; ev.eval p.ret) (ev.visitsRun p) := by
  have hbody : ∀ bs, Paces ev deadline (ev.body bs) (ev.visitsBody bs) := by
    intro bs
    induction bs with
    | nil => exact .pure ()
    | cons b bs ih =>
      exact (heval b.expr).bind fun v => (Paces.of_still (hstore b.slot v)).bind fun _ => ih
  exact (hbody p.body).bind fun _ => heval p.ret

/-- **A run keeps the pace from end to end**, across its bindings and its result. -/
theorem paces_sync {host : Host} {deadline : List Event → Bool}
    (h : host.deadline = some deadline) (p : Program) :
    Paces (sync host) deadline (runProgram host p) ((sync host).visitsRun p) := by
  have hrun := paces_run (paces_eval (ticks_sync h)) (still_storeLocal host) p
  rwa [body_sync] at hrun

/-- Storing a local takes no step in the asynchronous evaluator either. -/
theorem still_asyncStoreLocal (host : Host) (slot : UInt16) (v : Value) :
    Still (async host) (EvalAsync.storeLocal slot v) := by
  intro c
  show (EvalAsync.storeLocal slot v c).2.sinceCheck = c.sinceCheck ∧
    (EvalAsync.storeLocal slot v c).2.budget = c.budget
  unfold EvalAsync.storeLocal
  split_ifs
  · exact ⟨rfl, rfl⟩
  · exact ⟨rfl, rfl⟩

/-- The asynchronous run keeps the same pace. -/
theorem paces_async {host : Host} {deadline : List Event → Bool}
    (h : host.deadline = some deadline) (p : Program) :
    Paces (async host) deadline (EvalAsync.runProgram host p) ((async host).visitsRun p) := by
  have hrun := paces_run (paces_evalAsync (ticks_async h)) (still_asyncStoreLocal host) p
  rwa [body_async] at hrun

/-- A run visits as many nodes as it pays steps for. -/
theorem visits_paid {host : Host} {deadline : List Event → Bool}
    (h : host.deadline = some deadline) (p : Program) (maxSteps maxBytes : UInt32) :
    ((sync host).visitsRun p (initialFrame p maxSteps maxBytes)).length +
      (runWith host p maxSteps maxBytes).2.budget.toNat = maxSteps.toNat :=
  (paces_sync h p _).paid

/-- The asynchronous run pays one step a visit, too. -/
theorem asyncVisits_paid {host : Host} {deadline : List Event → Bool}
    (h : host.deadline = some deadline) (p : Program) (maxSteps : UInt32) :
    ((async host).visitsRun p (EvalAsync.initialCtx p maxSteps)).length +
      (EvalAsync.runAsync host p maxSteps).2.budget.toNat = maxSteps.toNat :=
  (paces_async h p _).paid

/-! ## The deadline is kept -/

/-- A trace that keeps a deadline. -/
structure Kept (ev : Evaluator σ) (deadline : List Event → Bool) (trace : List σ) : Prop where
  /-- Of 256 nodes in a row one polls. -/
  polled : ∀ before window behind, trace = before ++ (window ++ behind) → window.length = 256 →
    ∃ s ∈ window, ev.Polls s
  /-- From a moment on from which every answer is that the time is over, at most 256 nodes
  are visited. -/
  ends : ∀ before behind, trace = before ++ behind →
    (∀ s ∈ behind, ev.Polls s → deadline (ev.events s) = true) → behind.length ≤ 256

/-- The clock is looked at when the interval is up and the step is paid for. -/
theorem polls_of_interval {ev : Evaluator σ} {deadline : List Event → Bool}
    (hticks : Ticks ev deadline) {s : σ} (hpaid : ev.budget s ≠ 0)
    (hpoll : deadlineCheckInterval ≤ ev.sinceCheck s + 1) : ev.Polls s := by
  obtain ⟨s', hrun, -, -, hevents⟩ := hticks.polls s hpaid hpoll
  rw [Evaluator.Polls, hrun]
  exact hevents

/-- **A trace on which the counter runs keeps the deadline.** -/
theorem Walked.kept {ev : Evaluator σ} {deadline : List Event → Bool} {c c' : UInt32}
    {trace : List σ} (hticks : Ticks ev deadline) (h : Walked ev deadline c trace c')
    (hc : c.toNat < 256) : Kept ev deadline trace := by
  refine ⟨fun before window behind htrace hlen => ?_, fun before behind htrace hover => ?_⟩
  · rw [htrace] at h
    obtain ⟨d, hd, hrest⟩ := h.drop hc
    obtain ⟨s, hs, hpaid, hpoll⟩ := hrest.exists_poll hd (by omega)
    exact ⟨s, hs, polls_of_interval hticks hpaid hpoll⟩
  · by_contra hlong
    rw [htrace] at h
    obtain ⟨d, hd, hbehind⟩ := h.drop hc
    -- one of the first 256 nodes polls, so it is the last
    rw [← List.take_append_drop 256 behind] at hbehind
    obtain ⟨s, hs, hpaid, hpoll⟩ := hbehind.exists_poll hd (by rw [List.length_take]; omega)
    obtain ⟨first, rest, hsplit⟩ := List.append_of_mem hs
    rw [hsplit, List.append_assoc] at hbehind
    obtain ⟨e, -, hfrom⟩ := hbehind.drop hd
    have hmem : s ∈ behind := List.mem_of_mem_take hs
    cases hfrom with
    | cons _ hlast _ =>
      have hnil := hlast ⟨hpoll, hover s hmem (polls_of_interval hticks hpaid hpoll)⟩
      have hdrop := (List.append_eq_nil_iff.mp hnil).2
      rw [List.drop_eq_nil_iff] at hdrop
      exact hlong hdrop

/-- **The deadline is polled at least once in 256 nodes, and it ends a run within 256
nodes**: of every program, on every host that has one, in both evaluators. -/
theorem deadline_kept (host : Host) (deadline : List Event → Bool) (p : Program)
    (maxSteps maxBytes : UInt32) :
    let host := { host with deadline := some deadline }
    Kept (sync host) deadline ((sync host).visitsRun p (initialFrame p maxSteps maxBytes)) ∧
      Kept (async host) deadline ((async host).visitsRun p (EvalAsync.initialCtx p maxSteps)) := by
  intro host
  have hstart : (0 : UInt32).toNat < 256 := by decide
  have hdeadline : host.deadline = some deadline := rfl
  constructor
  · exact (paces_sync hdeadline p _).walked.kept (ticks_sync hdeadline) hstart
  · exact (paces_async hdeadline p _).walked.kept (ticks_async hdeadline) hstart

end Deadline
