/-
# Budgets

A run with smaller budgets is the same run, or it is cut short: it ends with `Budget`
or `MemoryLimit`, after a part of the effects (`cuts_eval`).  The relation between the
two frames (`Within`) says that one has at most the budgets of the other; no step looks
at them except to give up.

The nodes that a run evaluates are counted by a recursion of their own (`nodes`), which
follows the walk but looks at nothing that it spends.
-/
import PySpell.Eval

open StateOutcome

namespace Eval

/-! ## Smaller budgets -/

/-- The same frame, with budgets that are not larger. -/
structure Within (f g : Frame) : Prop where
  locals : f.locals = g.locals
  budget : f.budget ≤ g.budget
  mem : f.mem ≤ g.mem
  sinceCheck : f.sinceCheck = g.sinceCheck
  events : f.events = g.events

/-- The errors of a run that gives up. -/
def Exhausted (e : DslError) : Prop := e = .budget ∨ e = .memoryLimit

/-- A computation with smaller budgets ends alike, or gives up after a part of the
effects. -/
abbrev Tight {α : Type} (m : Run α) : Prop := Cuts Frame.events Within Exhausted m m

/-! ## Effects -/

/-- An effect adds one event. -/
theorem grows_perform {α : Type} (e : Event) (answer : List Event → Except DslError α) :
    Grows id (perform e answer) := fun _ => ⟨[e], rfl⟩

/-- A name that is looked up adds events only at the end. -/
theorem grows_lookup (host : Host) (name : String) : Grows id (lookup host name) :=
  grows_perform _ _

/-- So does a builtin, whatever it does. -/
theorem grows_applyBuiltin (host : Host) (actuator : Option Actuator) (b : Builtin)
    (vals : List Value) : Grows id (applyBuiltin host actuator b vals) := by
  unfold applyBuiltin
  split
  · exact Grows.lift _
  · exact Grows.lift _
  · split
    · exact (grows_perform _ _).bind fun _ => Grows.pure _
    · exact Grows.fail _
  · split
    · exact (Grows.lift _).bind fun _ => (grows_perform _ _).bind fun _ => Grows.pure _
    · exact Grows.fail _
  · split
    · exact (grows_perform _ _).bind fun _ => Grows.pure _
    · exact Grows.fail _
  · exact Grows.lift _

/-- **A call only adds to the effects.** -/
theorem grows_dispatch (host : Host) (actuator : Option Actuator) (b : Builtin)
    (vals : List Value) : Grows id (dispatch host actuator b vals) := by
  unfold dispatch
  split
  · split
    · refine (Grows.lift _).bind fun url => ?_
      split
      · exact (grows_perform _ _).bind fun _ => Grows.pure _
      · exact Grows.fail _
    · exact Grows.lift _
  · split
    · refine (Grows.lift _).bind fun url => (Grows.lift _).bind fun path => ?_
      split
      · exact grows_perform _ _
      · exact Grows.fail _
    · exact Grows.lift _
  · exact grows_applyBuiltin host actuator _ vals

/-! ## Each step -/

/-- An effect does not look at the budget; with less of it the same happens or nothing does. -/
theorem tight_liftEffect {α : Type} {m : Effect α} (hm : Grows id m) : Tight (liftEffect m) := by
  refine ⟨fun f => hm f.events, fun f g h => Or.inr ?_⟩
  unfold liftEffect
  rw [h.events]
  exact ⟨rfl, h.locals, h.budget, h.mem, h.sinceCheck, rfl⟩

/-- A step that is paid for may add a poll. -/
theorem grows_tick (host : Host) : Grows Frame.events (tick host) := by
  intro f
  unfold tick
  split
  · exact List.prefix_rfl
  dsimp only
  split
  · exact List.prefix_rfl
  split
  · split
    · exact List.prefix_append _ _
    · exact List.prefix_append _ _
  · exact List.prefix_rfl

/-- **A step** is there in both budgets, or the smaller one is at its end. -/
theorem tight_tick (host : Host) : Tight (tick host) := by
  refine ⟨grows_tick host, fun f g h => ?_⟩
  by_cases hf : f.budget = 0
  · refine Or.inl ⟨.budget, Or.inl rfl, ?_, ?_⟩
    · rw [tick, if_pos hf]
    · have hgrows := grows_tick host g
      rw [← h.events] at hgrows
      rw [tick, if_pos hf]
      exact hgrows
  · have hbudget := UInt32.le_iff_toNat_le.mp h.budget
    have hpos : f.budget.toNat ≠ 0 := fun h0 => hf (UInt32.toNat_inj.mp h0)
    have hg : g.budget ≠ 0 := by
      intro hg
      rw [hg] at hbudget
      exact hpos (Nat.le_zero.mp hbudget)
    have hone : (1 : UInt32).toNat = 1 := rfl
    have hless : f.budget - 1 ≤ g.budget - 1 := by
      rw [UInt32.le_iff_toNat_le, UInt32.toNat_sub_of_le, UInt32.toNat_sub_of_le, hone]
      · omega
      · rw [UInt32.le_iff_toNat_le, hone]
        omega
      · rw [UInt32.le_iff_toNat_le, hone]
        omega
    right
    unfold tick
    rw [if_neg hf, if_neg hg, h.sinceCheck, h.events]
    dsimp only
    cases host.deadline with
    | none => exact ⟨rfl, h.locals, hless, h.mem, rfl, rfl⟩
    | some deadline =>
      dsimp only
      split_ifs
      all_goals exact ⟨rfl, h.locals, hless, h.mem, rfl, rfl⟩

/-- **A charge** is covered by both budgets, or the smaller one does not cover it. -/
theorem tight_charge (bytes : ℕ) : Tight (charge bytes) := by
  have hsilent : ∀ f : Frame, (charge bytes f).2.events = f.events := by
    intro f
    unfold charge
    dsimp only
    split_ifs <;> rfl
  refine ⟨.of_silent hsilent, fun f g h => ?_⟩
  by_cases hf : f.mem < UInt32.ofNat (min bytes (2 ^ 32 - 1))
  · refine Or.inl ⟨.memoryLimit, Or.inr rfl, ?_, ?_⟩
    · unfold charge
      dsimp only
      rw [if_pos hf]
    · exact ⟨[], by rw [List.append_nil, hsilent, hsilent, h.events]⟩
  · have hg : ¬ g.mem < UInt32.ofNat (min bytes (2 ^ 32 - 1)) := by
      rw [UInt32.not_lt] at hf ⊢
      exact UInt32.le_trans hf h.mem
    right
    unfold charge
    dsimp only
    rw [if_neg hf, if_neg hg]
    refine ⟨rfl, h.locals, h.budget, ?_, h.sinceCheck, h.events⟩
    have hmem := UInt32.le_iff_toNat_le.mp h.mem
    rw [UInt32.le_iff_toNat_le, UInt32.toNat_sub_of_le _ _ (UInt32.not_lt.mp hf),
      UInt32.toNat_sub_of_le _ _ (UInt32.not_lt.mp hg)]
    omega

/-! ### One node of the tree -/

/-- The log is no part of the relation. -/
theorem tight_recorded {α : Type} {o : Frame → Operation} {m : Run α} (hm : Tight m) :
    Tight (fun f => m { f with log := f.log ++ [o f] }) :=
  ⟨fun f => hm.grows { f with log := f.log ++ [o f] },
    fun _ _ h => hm.run _ _ ⟨h.locals, h.budget, h.mem, h.sinceCheck, h.events⟩⟩

/-- A charge for memory that fails with more steps fails with fewer. -/
theorem tight_chargeResult (host : Host) (built : Bool) (v : Value) :
    Tight (chargeResult host built v) := by
  unfold chargeResult
  split
  · exact tight_recorded (tight_charge (valueBytes host v))
  · exact tight_charge _

/-- Reading a local takes no step of its own. -/
theorem tight_readLocal (slot : UInt16) : Tight (readLocal slot) := by
  refine ⟨.of_silent fun _ => rfl, fun f g h => Or.inr ?_⟩
  unfold readLocal
  rw [h.locals]
  exact ⟨rfl, rfl, h.budget, h.mem, h.sinceCheck, h.events⟩

/-- Nor does storing one. -/
theorem tight_storeLocal (slot : UInt16) (v : Value) : Tight (storeLocal slot v) := by
  refine ⟨.of_silent fun f => ?_, fun f g h => Or.inr ?_⟩
  · unfold storeLocal
    split_ifs <;> rfl
  · unfold storeLocal
    rw [h.locals]
    split_ifs
    · exact ⟨rfl, rfl, h.budget, h.mem, h.sinceCheck, h.events⟩
    · exact ⟨rfl, rfl, h.budget, h.mem, h.sinceCheck, h.events⟩

/-- A result that is charged and returned. -/
theorem tight_charged {host : Host} {m : Run Value} {built : Value → Bool} (hm : Tight m) :
    Tight (do
      let r ← m
      chargeResult host (built r) r
      pure r) :=
  hm.bind fun r => (tight_chargeResult host (built r) r).bind fun _ => Cuts.pure r

/-- Operations on values are not counted. -/
theorem tight_evalNegate (v : Value) : Tight (evalNegate v) := tight_recorded (Cuts.lift _)

/-- Those of two values neither, but for the memory of their result. -/
theorem tight_evalBin (host : Host) (op : BinOp) (x y : Value) : Tight (evalBin host op x y) :=
  tight_charged (tight_recorded (Cuts.lift _))

/-- A call of a builtin is one node, which was paid for before. -/
theorem tight_evalCall (host : Host) (b : Builtin) (vals : List Value) :
    Tight (evalCall host b vals) :=
  tight_charged (tight_recorded (tight_liftEffect (grows_dispatch host host.actuator b vals)))

/-- Nor are the spines. -/
theorem tight_buildSpine (host : Host) (n : ℕ) : Tight (buildSpine host n) :=
  ⟨.of_silent fun _ => rfl, fun _ _ h =>
    Or.inr ⟨rfl, h.locals, h.budget, h.mem, h.sinceCheck, h.events⟩⟩

/-- The items of a list were paid for, one by one. -/
theorem tight_evalList (host : Host) (vals : List Value) : Tight (evalList host vals) :=
  (tight_charge _).bind fun _ => ⟨.of_silent fun _ => rfl, fun _ _ h =>
    Or.inr ⟨rfl, h.locals, h.budget, h.mem, h.sinceCheck, h.events⟩⟩

/-- The right operand of a Boolean operator is evaluated only when it decides. -/
theorem tight_bool {host : Host} {op : BoolOp} {b : Expr} (hb : Tight (eval host b)) (l : Value) :
    Tight (match op, asBool l with
      | .and, false => pure (.bool false)
      | .or, true => pure (.bool true)
      | _, _ => do
        let r ← eval host b
        pure (.bool (asBool r)) : Run Value) := by
  have hright : Tight (do let r ← eval host b; pure (.bool (asBool r)) : Run Value) :=
    hb.bind fun r => Cuts.pure _
  split
  · exact Cuts.pure _
  · exact Cuts.pure _
  · exact hright

/-! ## The tree walk -/

mutual

/-- **The tree walk with smaller budgets**, by induction on the expression. -/
theorem tight_eval (host : Host) : ∀ e : Expr, Tight (eval host e)
  | .const v => (tight_tick host).bind fun _ => Cuts.pure v
  | .local i => (tight_tick host).bind fun _ => tight_readLocal i
  | .var name => (tight_tick host).bind fun _ => tight_liftEffect (grows_lookup host name)
  | .bin op a b => (tight_tick host).bind fun _ => (tight_eval host a).bind fun x =>
      (tight_eval host b).bind fun y => tight_evalBin host op x y
  | .cmp op a b => (tight_tick host).bind fun _ => (tight_eval host a).bind fun _ =>
      (tight_eval host b).bind fun _ => Cuts.lift _
  | .bool op a b => (tight_tick host).bind fun _ => (tight_eval host a).bind fun l =>
      tight_bool (tight_eval host b) l
  | .unary op a => (tight_tick host).bind fun _ => (tight_eval host a).bind fun v => by
      cases op with
      | neg => exact tight_evalNegate v
      | not => exact Cuts.pure _
  | .index l i => (tight_tick host).bind fun _ => (tight_eval host l).bind fun _ =>
      (tight_eval host i).bind fun _ => Cuts.lift _
  | .ite c t e => (tight_tick host).bind fun _ => (tight_eval host c).bind fun b => by
      cases asBool b
      · exact tight_eval host e
      · exact tight_eval host t
  | .call b args => (tight_tick host).bind fun _ => (tight_evalArgs host args).bind fun vals =>
      tight_evalCall host b vals
  | .list items => (tight_tick host).bind fun _ => (tight_buildSpine host _).bind fun _ =>
      (tight_evalArgs host items).bind fun vals => tight_evalList host vals

/-- **Arguments are cut off like expressions**: with fewer steps the run stops on the way, and not
elsewhere. -/
theorem tight_evalArgs (host : Host) : ∀ es : List Expr, Tight (evalArgs host es)
  | [] => Cuts.pure []
  | e :: es => (tight_eval host e).bind fun _ => (tight_evalArgs host es).bind fun _ =>
      Cuts.pure _

end

/-- So are the bindings. -/
theorem tight_runBody (host : Host) (bs : List LetBinding) : Tight (runBody host bs) := by
  induction bs with
  | nil => exact Cuts.pure ()
  | cons b bs ih =>
    exact (tight_eval host b.expr).bind fun v => (tight_storeLocal b.slot v).bind fun _ => ih

/-- **A run with smaller budgets** ends alike after the same effects, or gives up after a
part of them. -/
theorem runWith_within (host : Host) (p : Program) {s s' m m' : UInt32} (hs : s ≤ s')
    (hm : m ≤ m') :
    (∃ e, Exhausted e ∧ (runWith host p s m).1 = .err e ∧
      (runWith host p s m).2.events <+: (runWith host p s' m').2.events) ∨
    ((runWith host p s m).1 = (runWith host p s' m').1 ∧
      (runWith host p s m).2.events = (runWith host p s' m').2.events) := by
  have htight : Tight (runProgram host p) :=
    (tight_runBody host p.body).bind fun _ => tight_eval host p.ret
  have hstart : Within (initialFrame p s m) (initialFrame p s' m') := ⟨rfl, hs, hm, rfl, rfl⟩
  rcases htight.run _ _ hstart with h | ⟨heq, hR⟩
  · exact Or.inl h
  · exact Or.inr ⟨heq, hR.events⟩

/-! ## Evaluated nodes -/

/-- What is evaluated after a part that returned. -/
def nodesAfter {α : Type} (m : Run α) (f : Frame) (k : α → Frame → ℕ) : ℕ :=
  match m f with
  | (.ok a, f') => k a f'
  | _ => 0

mutual

/-- The nodes that the walk evaluates: a node is, unless the step before it gives up. -/
def nodes (host : Host) : Expr → Frame → ℕ
  | .const _, f => nodesAfter (tick host) f fun _ _ => 1
  | .local _, f => nodesAfter (tick host) f fun _ _ => 1
  | .var _, f => nodesAfter (tick host) f fun _ _ => 1
  | .bin _ a b, f => nodesAfter (tick host) f fun _ f =>
    1 + (nodes host a f + nodesAfter (eval host a) f fun _ f => nodes host b f)
  | .cmp _ a b, f => nodesAfter (tick host) f fun _ f =>
    1 + (nodes host a f + nodesAfter (eval host a) f fun _ f => nodes host b f)
  | .bool op a b, f => nodesAfter (tick host) f fun _ f =>
    1 + (nodes host a f + nodesAfter (eval host a) f fun l f =>
      match op, asBool l with
      | .and, false => 0
      | .or, true => 0
      | _, _ => nodes host b f)
  | .unary _ a, f => nodesAfter (tick host) f fun _ f => 1 + nodes host a f
  | .index l i, f => nodesAfter (tick host) f fun _ f =>
    1 + (nodes host l f + nodesAfter (eval host l) f fun _ f => nodes host i f)
  | .ite c t e, f => nodesAfter (tick host) f fun _ f =>
    1 + (nodes host c f + nodesAfter (eval host c) f fun b f =>
      match asBool b with
      | true => nodes host t f
      | false => nodes host e f)
  | .call _ args, f => nodesAfter (tick host) f fun _ f => 1 + nodesArgs host args f
  | .list items, f => nodesAfter (tick host) f fun _ f =>
    1 + nodesAfter (buildSpine host items.length) f fun _ f => nodesArgs host items f

def nodesArgs (host : Host) : List Expr → Frame → ℕ
  | [], _ => 0
  | e :: es, f => nodes host e f + nodesAfter (eval host e) f fun _ f => nodesArgs host es f

end

def nodesBody (host : Host) : List LetBinding → Frame → ℕ
  | [], _ => 0
  | b :: bs, f => nodes host b.expr f + nodesAfter (eval host b.expr) f fun v f =>
    nodesAfter (storeLocal b.slot v) f fun _ f => nodesBody host bs f

/-- The nodes that a run evaluates. -/
def nodesRun (host : Host) (p : Program) (maxSteps maxBytes : UInt32) : ℕ :=
  let f := initialFrame p maxSteps maxBytes
  nodesBody host p.body f + nodesAfter (runBody host p.body) f fun _ f => nodes host p.ret f

/-- A computation that evaluates so many nodes pays for them. -/
def Counts {α : Type} (m : Run α) (n : Frame → ℕ) : Prop :=
  ∀ f, n f + (m f).2.budget.toNat ≤ f.budget.toNat

/-- The nodes of a sequence are those of its first part, and those of the second where it comes to
it. -/
theorem Counts.bind {α β : Type} {m : Run α} {k : α → Run β} {n : Frame → ℕ} {l : α → Frame → ℕ}
    (h : Counts m n) (hk : ∀ a, Counts (k a) (l a)) :
    Counts (m >>= k) fun f => n f + nodesAfter m f l := by
  intro f
  have hf := h f
  change n f + nodesAfter m f l + ((m >>= k) f).2.budget.toNat ≤ _
  rw [bind_run, nodesAfter]
  rcases hm : m f with ⟨o, f'⟩
  rw [hm] at hf
  cases o with
  | ok a =>
    have hk' := hk a f'
    dsimp only at hf ⊢
    omega
  | _ => exact hf

/-- What evaluates no nodes leaves the budget alone. -/
theorem Counts.of_silent {α : Type} {m : Run α} (h : ∀ f, (m f).2.budget = f.budget) :
    Counts m fun _ => 0 := by
  intro f
  rw [h f, Nat.zero_add]

/-- A value costs nothing. -/
theorem Counts.pure {α : Type} (a : α) : Counts (Pure.pure a : Run α) fun _ => 0 :=
  .of_silent fun _ => rfl

/-- A part at the end that evaluates no nodes. -/
theorem Counts.silent {α β : Type} {m : Run α} {k : α → Run β} {n : Frame → ℕ} (h : Counts m n)
    (hk : ∀ a f, (k a f).2.budget = f.budget) : Counts (m >>= k) n := by
  have hbind := h.bind fun a => .of_silent (hk a)
  intro f
  exact le_trans (Nat.add_le_add_right (Nat.le_add_right _ _) _) (hbind f)

/-- Two counts behind one computation add up. -/
theorem nodesAfter_add {α : Type} (m : Run α) (f : Frame) (k l : α → Frame → ℕ) :
    nodesAfter m f (fun a f => k a f + l a f) = nodesAfter m f k + nodesAfter m f l := by
  unfold nodesAfter
  rcases m f with ⟨o, f'⟩
  cases o <;> rfl

/-- **A step pays for its node.** -/
theorem counts_step (host : Host) :
    Counts (tick host) fun f => nodesAfter (tick host) f fun _ _ => 1 := by
  intro f
  dsimp only
  by_cases hzero : f.budget = 0
  · rw [nodesAfter, tick, if_pos hzero]
    exact (Nat.zero_add _).le
  have hpos : f.budget.toNat ≠ 0 := fun h0 => hzero (UInt32.toNat_inj.mp h0)
  have hone : (1 : UInt32).toNat = 1 := rfl
  have hless : 1 + (f.budget - 1).toNat ≤ f.budget.toNat := by
    rw [UInt32.toNat_sub_of_le, hone]
    · omega
    · rw [UInt32.le_iff_toNat_le, hone]
      omega
  unfold nodesAfter tick
  rw [if_neg hzero]
  dsimp only
  cases host.deadline with
  | none => exact hless
  | some deadline =>
    dsimp only
    split_ifs
    · exact le_trans (Nat.add_le_add_right (Nat.zero_le 1) _) hless
    · exact hless
    · exact hless

/-- A node, and what it evaluates. -/
theorem counts_tick {α : Type} {host : Host} {k : Run α} {n : Frame → ℕ} (hk : Counts k n) :
    Counts (do tick host; k) fun f => nodesAfter (tick host) f fun _ f => 1 + n f := by
  intro f
  have hbind := (counts_step host).bind (fun _ => hk) f
  dsimp only at hbind ⊢
  rwa [nodesAfter_add]

/-- A leaf is one node. -/
theorem counts_leaf {α : Type} {host : Host} {k : Run α} (hk : ∀ f, (k f).2.budget = f.budget) :
    Counts (do tick host; k) fun f => nodesAfter (tick host) f fun _ _ => 1 :=
  counts_tick (Counts.of_silent hk)

/-! ## What evaluates no nodes -/

/-- The computation spends no step. -/
def Free {α : Type} (m : Run α) : Prop := ∀ f, (m f).2.budget = f.budget

/-- Parts that pay nothing make a whole that pays nothing. -/
theorem Free.bind {α β : Type} {m : Run α} {k : α → Run β} (h : Free m) (hk : ∀ a, Free (k a)) :
    Free (m >>= k) := by
  intro f
  have hf := h f
  rw [bind_run]
  rcases hm : m f with ⟨o, f'⟩
  rw [hm] at hf
  cases o with
  | ok a => exact (hk a f').trans hf
  | _ => exact hf

/-- A part at the start that evaluates no nodes. -/
theorem Free.counts_bind {α β : Type} {m : Run α} {k : α → Run β} {l : α → Frame → ℕ} (h : Free m)
    (hk : ∀ a, Counts (k a) (l a)) : Counts (m >>= k) fun f => nodesAfter m f l := by
  intro f
  have hbind := (Counts.of_silent h).bind hk f
  dsimp only at hbind ⊢
  rwa [Nat.zero_add] at hbind

/-- Memory is not paid for with steps. -/
theorem free_chargeResult (host : Host) (built : Bool) (v : Value) :
    Free (chargeResult host built v) := by
  have hcharge : Free (charge (valueBytes host v)) := by
    intro f
    unfold charge
    dsimp only
    split_ifs <;> rfl
  intro f
  unfold chargeResult
  split
  · exact hcharge _
  · exact hcharge _

/-- A result that is charged for costs no step. -/
theorem free_charged {host : Host} {m : Run Value} {built : Value → Bool} (hm : Free m) :
    Free (do
      let r ← m
      chargeResult host (built r) r
      pure r) :=
  hm.bind fun r => (free_chargeResult host (built r) r).bind fun _ _ => rfl

/-- An operation costs none beside its node. -/
theorem free_evalBin (host : Host) (op : BinOp) (x y : Value) : Free (evalBin host op x y) :=
  free_charged fun _ => rfl

/-- Neither does a call. -/
theorem free_evalCall (host : Host) (b : Builtin) (vals : List Value) :
    Free (evalCall host b vals) :=
  free_charged fun _ => rfl

/-- Nor the spine of a list. -/
theorem free_buildSpine (host : Host) (n : ℕ) : Free (buildSpine host n) := fun _ => rfl

/-- Nor the list itself. -/
theorem free_evalList (host : Host) (vals : List Value) : Free (evalList host vals) :=
  (free_chargeResult host false (.list vals)).bind fun _ _ => rfl

/-- Nor storing a local. -/
theorem free_storeLocal (slot : UInt16) (v : Value) : Free (storeLocal slot v) := by
  intro f
  unfold storeLocal
  split_ifs <;> rfl

/-! ## The count -/

/-- The right operand of a Boolean operator is evaluated only when it decides. -/
theorem counts_bool {host : Host} {op : BoolOp} {b : Expr}
    (hb : Counts (eval host b) (nodes host b)) (l : Value) :
    Counts (match op, asBool l with
      | .and, false => pure (.bool false)
      | .or, true => pure (.bool true)
      | _, _ => do
        let r ← eval host b
        pure (.bool (asBool r)) : Run Value)
      (fun f => match op, asBool l with
        | .and, false => 0
        | .or, true => 0
        | _, _ => nodes host b f) := by
  have hright : Counts (do let r ← eval host b; pure (.bool (asBool r)) : Run Value)
      (nodes host b) := hb.silent fun _ _ => rfl
  split
  · exact Counts.pure _
  · exact Counts.pure _
  · exact hright

mutual

/-- **The walk pays for its nodes**, by induction on the expression. -/
theorem counts_eval (host : Host) : ∀ e : Expr, Counts (eval host e) (nodes host e)
  | .const _ => counts_leaf fun _ => rfl
  | .local _ => counts_leaf fun _ => rfl
  | .var _ => counts_leaf fun _ => rfl
  | .bin op a b => counts_tick <| (counts_eval host a).bind fun x =>
      (counts_eval host b).silent fun y => free_evalBin host op x y
  | .cmp op a b => counts_tick <| (counts_eval host a).bind fun _ =>
      (counts_eval host b).silent fun _ _ => rfl
  | .bool op a b => counts_tick <| (counts_eval host a).bind fun l =>
      counts_bool (counts_eval host b) l
  | .unary op a => counts_tick <| (counts_eval host a).silent fun v f => by
      cases op with
      | neg => rfl
      | not => rfl
  | .index l i => counts_tick <| (counts_eval host l).bind fun _ =>
      (counts_eval host i).silent fun _ _ => rfl
  | .ite c t e => counts_tick <| (counts_eval host c).bind fun b => by
      cases asBool b
      · exact counts_eval host e
      · exact counts_eval host t
  | .call b args => counts_tick <| (counts_evalArgs host args).silent fun vals =>
      free_evalCall host b vals
  | .list items => counts_tick <| (free_buildSpine host items.length).counts_bind fun _ =>
      (counts_evalArgs host items).silent fun vals => free_evalList host vals

/-- **Arguments cost the nodes that are visited in them**, up to the first that stops. -/
theorem counts_evalArgs (host : Host) : ∀ es : List Expr,
    Counts (evalArgs host es) (nodesArgs host es)
  | [] => Counts.pure []
  | e :: es => (counts_eval host e).bind fun _ => (counts_evalArgs host es).silent fun _ _ => rfl

end

/-- The bindings likewise. -/
theorem counts_runBody (host : Host) (bs : List LetBinding) :
    Counts (runBody host bs) (nodesBody host bs) := by
  induction bs with
  | nil => exact Counts.pure ()
  | cons b bs ih =>
    exact (counts_eval host b.expr).bind fun v => (free_storeLocal b.slot v).counts_bind fun _ => ih

/-! ## Monotonicity -/

/-- What budgets do to a program. -/
structure BudgetMonotone (host : Host) (p : Program) : Prop where
  /-- A run evaluates no more nodes than it has steps. -/
  nodes_le : ∀ s m, nodesRun host p s m ≤ s.toNat
  /-- Larger budgets change nothing for a run that does not give up. -/
  larger : ∀ s m s' m', s ≤ s' → m ≤ m' → (runWith host p s m).1 ≠ .err .budget →
    (runWith host p s m).1 ≠ .err .memoryLimit →
    (runWith host p s' m').1 = (runWith host p s m).1 ∧
      (runWith host p s' m').2.events = (runWith host p s m).2.events
  /-- Smaller budgets change nothing, or the run gives up after a part of the effects. -/
  smaller : ∀ s m s' m', s ≤ s' → m ≤ m' →
    ((runWith host p s m).1 = (runWith host p s' m').1 ∧
      (runWith host p s m).2.events = (runWith host p s' m').2.events) ∨
    (((runWith host p s m).1 = .err .budget ∨ (runWith host p s m).1 = .err .memoryLimit) ∧
      (runWith host p s m).2.events <+: (runWith host p s' m').2.events)

/-- **Budgets are monotone**, for every program and every host. -/
theorem budget_monotone (host : Host) (p : Program) : BudgetMonotone host p where
  nodes_le := by
    intro s m
    have hbody := (counts_runBody host p.body).bind fun _ => counts_eval host p.ret
    exact le_trans (Nat.le_add_right _ _) (hbody (initialFrame p s m))
  larger := by
    intro s m s' m' hs hm hbudget hmem
    rcases runWith_within host p hs hm with ⟨e, he | he, heq, -⟩ | ⟨heq, hevents⟩
    · rw [he] at heq
      exact absurd heq hbudget
    · rw [he] at heq
      exact absurd heq hmem
    · exact ⟨heq.symm, hevents.symm⟩
  smaller := by
    intro s m s' m' hs hm
    rcases runWith_within host p hs hm with ⟨e, he, heq, hpre⟩ | h
    · refine Or.inr ⟨?_, hpre⟩
      rcases he with he | he
      · rw [he] at heq
        exact Or.inl heq
      · rw [he] at heq
        exact Or.inr heq
    · exact Or.inl h

end Eval
