/-
# The async evaluator

`eval_async.rs` evaluates the same programs with a context of its own: no memory
budget and no actuator, and a network whose replies are awaited.  A single job
awaits each reply before it goes on, so a run is again a sequence of effects on
the host.

`runAsync_simulates` compares the two evaluators: unless the sync one runs out of
memory, they end with the same value or error (or panic), after the same effects
in the same order and with the same steps left.  The relation between a frame and
a context (`SameRun`) forgets the memory budget and the log; each helper of one
side simulates its counterpart, and the tree walks by induction on the expression.
-/
import PySpell.Eval

open StateOutcome

/-- `AsyncCtx`. -/
structure AsyncCtx where
  locals : List Value
  budget : UInt32
  sinceCheck : UInt32
  events : List Event

/-- A computation of the async evaluator. -/
abbrev AsyncRun (α : Type) := StateOutcome AsyncCtx DslError α

namespace EvalAsync

open Eval

/-! ## Steps -/

/-- Run an effect on the history of the context, awaiting its reply. -/
def liftEffect {α : Type} (m : Effect α) : AsyncRun α := fun c =>
  ((m c.events).1, { c with events := (m c.events).2 })

/-- `tick`. -/
def tick (host : Host) : AsyncRun Unit := fun c =>
  if c.budget = 0 then (.err .budget, c)
  else
    let c := { c with budget := c.budget - 1 }
    match host.deadline with
    | none => (.ok (), c)
    | some deadline =>
      let sc := c.sinceCheck + 1
      if deadlineCheckInterval ≤ sc then
        let polled := { c with sinceCheck := 0, events := c.events ++ [.poll] }
        if deadline c.events then (.err .timeout, polled) else (.ok (), polled)
      else (.ok (), { c with sinceCheck := sc })

/-- `c.locals.borrow()[i]`. -/
def readLocal (slot : UInt16) : AsyncRun Value := fun c => (.unwrap c.locals[slot.toNat]?, c)

/-- `c.locals.borrow_mut()[i] = v`. -/
def storeLocal (slot : UInt16) (v : Value) : AsyncRun Unit := fun c =>
  if slot.toNat < c.locals.length then
    (.ok (), { c with locals := c.locals.set slot.toNat v })
  else (.panic, c)

/-- `call_builtin_async` on evaluated arguments: the network builtins, or
`apply_builtin` without an actuator. -/
def callBuiltin (host : Host) (b : Builtin) (vals : List Value) : Effect Value :=
  match b with
  | .fetch =>
    match vals with
    | [v] => do
      let url ← .lift (.ofExcept (expectStr v "fetch() expects a url string"))
      match host.net with
      | none => .fail (.net "no network capability installed")
      | some net => do
        let body ← perform (.fetch url) fun events => net.fetch events url
        pure (.str body)
    | _ => .lift (arityErr .fetch vals.length)
  | .fetchJson =>
    match vals with
    | [v, w] => do
      let url ← .lift (.ofExcept (expectStr v "fetch_json() expects a url string"))
      let path ← .lift (.ofExcept (expectStr w "fetch_json() expects a path string"))
      match host.net with
      | none => .fail (.net "no network capability installed")
      | some net =>
        perform (.fetchExtract url path) fun events =>
          net.fetchExtract events url (Json.jsonProbe path)
    | _ => .lift (arityErr .fetchJson vals.length)
  | b => applyBuiltin host none b vals

/-! ## The tree walk -/

mutual

/-- `eval_async`. -/
def evalAsync (host : Host) : Expr → AsyncRun Value
  | .const v => do
    tick host
    pure v
  | .local i => do
    tick host
    readLocal i
  | .var name => do
    tick host
    liftEffect (lookup host name)
  | .bin op a b => do
    tick host
    let x ← evalAsync host a
    let y ← evalAsync host b
    StateOutcome.lift (numBinop op x y)
  | .cmp op a b => do
    tick host
    let x ← evalAsync host a
    let y ← evalAsync host b
    StateOutcome.lift (.ofExcept ((compare op x y).map .bool))
  | .bool op a b => do
    tick host
    let l ← evalAsync host a
    match op, asBool l with
    | .and, false => pure (.bool false)
    | .or, true => pure (.bool true)
    | _, _ => do
      let r ← evalAsync host b
      pure (.bool (asBool r))
  | .unary op a => do
    tick host
    let v ← evalAsync host a
    match op with
    | .neg => StateOutcome.lift (negate v)
    | .not => pure (.bool (!asBool v))
  | .index l i => do
    tick host
    let list ← evalAsync host l
    let idx ← evalAsync host i
    StateOutcome.lift (.ofExcept (index list idx))
  | .ite c t e => do
    tick host
    let b ← evalAsync host c
    match asBool b with
    | true => evalAsync host t
    | false => evalAsync host e
  | .call b args => do
    tick host
    let vals ← evalAsyncArgs host args
    liftEffect (callBuiltin host b vals)
  | .list items => do
    tick host
    let vals ← evalAsyncArgs host items
    pure (.list vals)

/-- Arguments and items, from left to right. -/
def evalAsyncArgs (host : Host) : List Expr → AsyncRun (List Value)
  | [] => pure []
  | e :: es => do
    let v ← evalAsync host e
    let vs ← evalAsyncArgs host es
    pure (v :: vs)

end

def runBody (host : Host) : List LetBinding → AsyncRun Unit
  | [] => pure ()
  | b :: bs => do
    let v ← evalAsync host b.expr
    storeLocal b.slot v
    runBody host bs

def runProgram (host : Host) (p : Program) : AsyncRun Value := do
  runBody host p.body
  evalAsync host p.ret

/-- The context in which a run starts. -/
def initialCtx (p : Program) (maxSteps : UInt32) : AsyncCtx where
  locals := List.replicate p.nLocals.toNat (.int 0)
  budget := maxSteps
  sinceCheck := 0
  events := []

/-- `run_async`: the result and the final context. -/
def runAsync (host : Host) (p : Program) (maxSteps : UInt32) :
    Outcome DslError Value × AsyncCtx :=
  runProgram host p (initialCtx p maxSteps)

/-! ## Simulation -/

/-- A frame of one evaluator and a context of the other, up to the memory budget. -/
structure SameRun (f : Frame) (c : AsyncCtx) : Prop where
  locals : f.locals = c.locals
  budget : f.budget = c.budget
  sinceCheck : f.sinceCheck = c.sinceCheck
  events : f.events = c.events

/-- The async computation simulates the sync one, unless memory runs out. -/
abbrev Simulates {α : Type} (m : Run α) (n : AsyncRun α) : Prop :=
  Sim SameRun (· = DslError.memoryLimit) m n

/-! ### Budgets and slots -/

/-- Both evaluators pay for a step and poll the clock alike. -/
theorem sim_tick (host : Host) : Simulates (Eval.tick host) (tick host) := by
  intro f c h
  right
  unfold Eval.tick tick
  rw [h.budget, h.sinceCheck, h.events]
  split_ifs with h0
  · exact ⟨rfl, h⟩
  · dsimp only
    cases host.deadline with
    | none => exact ⟨rfl, h.locals, rfl, rfl, rfl⟩
    | some deadline =>
      dsimp only
      split_ifs
      all_goals exact ⟨rfl, h.locals, rfl, rfl, rfl⟩

/-- An effect sees the same history on both sides. -/
theorem sim_liftEffect {α : Type} (m : Effect α) :
    Simulates (Eval.liftEffect m) (liftEffect m) := by
  intro f c h
  right
  unfold Eval.liftEffect liftEffect
  rw [h.events]
  exact ⟨rfl, h.locals, h.budget, h.sinceCheck, rfl⟩

/-- Both read the same slots. -/
theorem sim_readLocal (slot : UInt16) : Simulates (Eval.readLocal slot) (readLocal slot) := by
  intro f c h
  right
  unfold Eval.readLocal readLocal
  rw [h.locals]
  exact ⟨rfl, rfl, h.budget, h.sinceCheck, h.events⟩

/-- And store them alike. -/
theorem sim_storeLocal (slot : UInt16) (v : Value) :
    Simulates (Eval.storeLocal slot v) (storeLocal slot v) := by
  intro f c h
  right
  unfold Eval.storeLocal storeLocal
  rw [h.locals]
  split_ifs
  · exact ⟨rfl, rfl, h.budget, h.sinceCheck, h.events⟩
  · exact ⟨rfl, rfl, h.budget, h.sinceCheck, h.events⟩

/-- Recording an operation has no counterpart. -/
theorem sim_recorded {α : Type} {o : Operation} {m : Run α} {n : AsyncRun α}
    (h : Simulates m n) : Simulates (recorded o m) n := fun _ c hR =>
  h _ c ⟨hR.locals, hR.budget, hR.sinceCheck, hR.events⟩

/-- **A charge has no counterpart**: it keeps the relation, or memory runs out. -/
theorem charge_cases (bytes : ℕ) (f : Frame) (c : AsyncCtx) (h : SameRun f c) :
    (∃ e, e = DslError.memoryLimit ∧ (charge bytes f).1 = .err e) ∨
      ∃ a f', charge bytes f = (.ok a, f') ∧ SameRun f' c := by
  unfold charge
  dsimp only
  split_ifs
  · exact Or.inl ⟨_, rfl, rfl⟩
  · exact Or.inr ⟨(), _, rfl, h.locals, h.budget, h.sinceCheck, h.events⟩

/-- The synchronous evaluator also charges for memory: it stops there, or goes on where the other
one is. -/
theorem chargeResult_cases (host : Host) (built : Bool) (v : Value) (f : Frame) (c : AsyncCtx)
    (h : SameRun f c) :
    (∃ e, e = DslError.memoryLimit ∧ (chargeResult host built v f).1 = .err e) ∨
      ∃ a f', chargeResult host built v f = (.ok a, f') ∧ SameRun f' c := by
  unfold chargeResult
  split_ifs
  · exact charge_cases _ _ c ⟨h.locals, h.budget, h.sinceCheck, h.events⟩
  · exact charge_cases _ f c h

/-- A result that is charged and returned, against the result. -/
theorem sim_charged {host : Host} {m : Run Value} {n : AsyncRun Value} {built : Value → Bool}
    (h : Simulates m n) : Simulates (do
      let r ← m
      chargeResult host (built r) r
      pure r) n := by
  rw [← bind_pure n]
  exact h.bind fun r => Sim.bind_left (chargeResult_cases host (built r) r) fun _ => Sim.pure r

/-! ### Calls -/

/-- The two evaluators dispatch the same calls. -/
theorem callBuiltin_eq (host : Host) (b : Builtin) (vals : List Value) :
    callBuiltin host b vals = dispatch host none b vals := by
  cases b with
  | fetch =>
    match vals with
    | [v] =>
      unfold callBuiltin dispatch
      dsimp only
      congr 1
      funext url
      cases host.net <;> rfl
    | [] | _ :: _ :: _ => rfl
  | fetchJson =>
    match vals with
    | [v, w] =>
      unfold callBuiltin dispatch
      dsimp only
      congr 1
      funext url
      congr 1
      funext path
      cases host.net <;> rfl
    | [] | [_] | _ :: _ :: _ :: _ => rfl
  | _ => rfl

/-- A call does the same, since there is no actuator that the asynchronous one lacks. -/
theorem sim_call {host : Host} (hact : host.actuator = none) (b : Builtin) (vals : List Value) :
    Simulates (evalCall host b vals) (liftEffect (callBuiltin host b vals)) := by
  rw [callBuiltin_eq, ← hact]
  exact sim_charged (sim_recorded (sim_liftEffect _))

/-! ### The tree -/

/-- A spine has no counterpart. -/
theorem buildSpine_cases (host : Host) (n : ℕ) (f : Frame) (c : AsyncCtx) (h : SameRun f c) :
    (∃ e, e = DslError.memoryLimit ∧ (buildSpine host n f).1 = .err e) ∨
      ∃ a f', buildSpine host n f = (.ok a, f') ∧ SameRun f' c :=
  Or.inr ⟨(), _, rfl, h.locals, h.budget, h.sinceCheck, h.events⟩

/-- The asynchronous evaluator does not charge for a list. -/
theorem sim_list (host : Host) (vals : List Value) :
    Simulates (evalList host vals) (pure (.list vals)) :=
  Sim.bind_left (charge_cases (valueBytes host (.list vals))) fun _ _ _ h =>
    Or.inr ⟨rfl, h.locals, h.budget, h.sinceCheck, h.events⟩

/-- The right operand of a Boolean operator is evaluated only when it decides. -/
theorem sim_bool {host : Host} {op : BoolOp} {b : Expr}
    (hb : Simulates (eval host b) (evalAsync host b)) (l : Value) :
    Simulates (match op, asBool l with
      | .and, false => pure (.bool false)
      | .or, true => pure (.bool true)
      | _, _ => do
        let r ← eval host b
        pure (.bool (asBool r)) : Run Value)
      (match op, asBool l with
      | .and, false => pure (.bool false)
      | .or, true => pure (.bool true)
      | _, _ => do
        let r ← evalAsync host b
        pure (.bool (asBool r)) : AsyncRun Value) := by
  have hright : Simulates (do let r ← eval host b; pure (.bool (asBool r)) : Run Value)
      (do let r ← evalAsync host b; pure (.bool (asBool r)) : AsyncRun Value) :=
    hb.bind fun r => Sim.pure _
  split
  · exact Sim.pure _
  · exact Sim.pure _
  · exact hright

mutual

/-- **The tree walks agree**, by induction on the expression. -/
theorem sim_eval {host : Host} (hact : host.actuator = none) :
    ∀ e : Expr, Simulates (eval host e) (evalAsync host e)
  | .const v => (sim_tick host).bind fun _ => Sim.pure v
  | .local i => (sim_tick host).bind fun _ => sim_readLocal i
  | .var name => (sim_tick host).bind fun _ => sim_liftEffect _
  | .bin op a b => (sim_tick host).bind fun _ => (sim_eval hact a).bind fun x =>
      (sim_eval hact b).bind fun y => sim_charged (sim_recorded (Sim.lift (numBinop op x y)))
  | .cmp op a b => (sim_tick host).bind fun _ => (sim_eval hact a).bind fun _ =>
      (sim_eval hact b).bind fun _ => Sim.lift _
  | .bool op a b => (sim_tick host).bind fun _ => (sim_eval hact a).bind fun l =>
      sim_bool (sim_eval hact b) l
  | .unary op a => (sim_tick host).bind fun _ => (sim_eval hact a).bind fun v => by
      cases op with
      | neg => exact sim_recorded (Sim.lift _)
      | not => exact Sim.pure _
  | .index l i => (sim_tick host).bind fun _ => (sim_eval hact l).bind fun _ =>
      (sim_eval hact i).bind fun _ => Sim.lift _
  | .ite c t e => (sim_tick host).bind fun _ => (sim_eval hact c).bind fun b => by
      cases asBool b
      · exact sim_eval hact e
      · exact sim_eval hact t
  | .call b args => (sim_tick host).bind fun _ => (sim_evalArgs hact args).bind fun vals =>
      sim_call hact b vals
  | .list items => (sim_tick host).bind fun _ =>
      Sim.bind_left (buildSpine_cases host items.length) fun _ =>
        (sim_evalArgs hact items).bind fun vals => sim_list host vals

/-- Arguments are simulated one by one. -/
theorem sim_evalArgs {host : Host} (hact : host.actuator = none) :
    ∀ es : List Expr, Simulates (evalArgs host es) (evalAsyncArgs host es)
  | [] => Sim.pure []
  | e :: es => (sim_eval hact e).bind fun _ => (sim_evalArgs hact es).bind fun _ => Sim.pure _

end

/-! ### Programs -/

/-- So are the bindings. -/
theorem sim_runBody {host : Host} (hact : host.actuator = none) (bs : List LetBinding) :
    Simulates (Eval.runBody host bs) (runBody host bs) := by
  induction bs with
  | nil => exact Sim.pure ()
  | cons b bs ih =>
    exact (sim_eval hact b.expr).bind fun v => (sim_storeLocal b.slot v).bind fun _ => ih

/-- And with them a program. -/
theorem sim_runProgram {host : Host} (hact : host.actuator = none) (p : Program) :
    Simulates (Eval.runProgram host p) (runProgram host p) :=
  (sim_runBody hact p.body).bind fun _ => sim_eval hact p.ret

/-- **The async evaluator simulates the sync one**: on a host without an actuator,
unless the sync run ends with `MemoryLimit`, both runs end with the same value or
error, after the same effects on the host and with the same steps left. -/
theorem runAsync_simulates (host : Host) (p : Program) (maxSteps maxBytes : UInt32) :
    let host := { host with actuator := none }
    (runWith host p maxSteps maxBytes).1 = .err .memoryLimit ∨
      ((runWith host p maxSteps maxBytes).1 = (runAsync host p maxSteps).1 ∧
        (runWith host p maxSteps maxBytes).2.events = (runAsync host p maxSteps).2.events ∧
        (runWith host p maxSteps maxBytes).2.budget = (runAsync host p maxSteps).2.budget) := by
  intro host
  have hstart : SameRun (initialFrame p maxSteps maxBytes) (initialCtx p maxSteps) :=
    ⟨rfl, rfl, rfl, rfl⟩
  rcases sim_runProgram (show host.actuator = none from rfl) p _ _ hstart with ⟨e, rfl, he⟩ | ⟨ho, hR⟩
  · exact Or.inl he
  · exact Or.inr ⟨ho, hR.events, hR.budget⟩

end EvalAsync
