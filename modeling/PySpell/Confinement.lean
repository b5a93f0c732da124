/-
# What a program can reach

A program is a guest on its host: all that it can do to the host, or learn from it, is in
the names and the builtins of its text (`uses`).

A run asks for no other name and has no other effect (`Due`); a host that differs elsewhere
runs the program the same way (`Agree`); and each effect costs a step of the budget.
`confined` states the three for every program, host and budget.
-/
import PySpell.Eval

open StateOutcome

namespace Confinement

/-! ## Uses -/

/-- What a tree mentions of its host. -/
inductive Use where
  | name (x : String)
  | builtin (b : Builtin)
  deriving DecidableEq

mutual

/-- The names and the builtins of a tree. -/
def usesOf : Expr → List Use
  | .const _ => []
  | .local _ => []
  | .var x => [.name x]
  | .bin _ a b => usesOf a ++ usesOf b
  | .cmp _ a b => usesOf a ++ usesOf b
  | .bool _ a b => usesOf a ++ usesOf b
  | .unary _ a => usesOf a
  | .index l i => usesOf l ++ usesOf i
  | .ite c t e => usesOf c ++ (usesOf t ++ usesOf e)
  | .call b args => .builtin b :: usesOfAll args
  | .list items => usesOfAll items

def usesOfAll : List Expr → List Use
  | [] => []
  | e :: es => usesOf e ++ usesOfAll es

end

/-- The names and the builtins of a program. -/
def uses (p : Program) : List Use := (p.body.flatMap fun b => usesOf b.expr) ++ usesOf p.ret

/-- Two hosts are the same where it matters for this use. -/
def AgreeOn (host host' : Host) : Use → Prop
  | .name x => ∀ events, host.env events x = host'.env events x
  | .builtin .fetch => host.net.map Net.fetch = host'.net.map Net.fetch
  | .builtin .fetchJson => host.net.map Net.fetchExtract = host'.net.map Net.fetchExtract
  | .builtin .show => host.display = host'.display
  | .builtin .led => host.actuator.map Actuator.led = host'.actuator.map Actuator.led
  | .builtin .flash => host.actuator.map Actuator.flash = host'.actuator.map Actuator.flash
  | .builtin .upper => host.toUppercase = host'.toUppercase
  | .builtin .lower => host.toLowercase = host'.toLowercase
  | .builtin _ => True

/-- Two hosts agree on the uses; the deadline and the platform are the same. -/
structure Agree (us : List Use) (host host' : Host) : Prop where
  on : ∀ u ∈ us, AgreeOn host host' u
  deadline : host.deadline = host'.deadline
  sizeOfValue : host.sizeOfValue = host'.sizeOfValue

/-- Hosts that agree on all uses agree on some of them. -/
theorem Agree.mono {us us' : List Use} {host host' : Host} (h : Agree us host host')
    (hsub : ∀ u ∈ us', u ∈ us) : Agree us' host host' :=
  ⟨fun u hu => h.on u (hsub u hu), h.deadline, h.sizeOfValue⟩

/-- The effect is due to a use, or is a poll of the deadline that the host has set. -/
def Due (us : List Use) (host : Host) : Event → Prop
  | .lookup x => .name x ∈ us
  | .show _ => .builtin .show ∈ us
  | .fetch _ => .builtin .fetch ∈ us
  | .fetchExtract _ _ => .builtin .fetchJson ∈ us
  | .poll => host.deadline.isSome
  | .led _ _ => .builtin .led ∈ us
  | .flash => .builtin .flash ∈ us

/-- What some uses account for, more uses do. -/
theorem Due.mono {us us' : List Use} {host : Host} {e : Event} (h : Due us' host e)
    (hsub : ∀ u ∈ us', u ∈ us) : Due us host e := by
  cases e with
  | poll => exact h
  | _ => exact hsub _ h

/-! ## The same run on hosts that agree -/

section Same

variable {host host' : Host}

/-- The clock is the same for both hosts. -/
theorem tick_congr (h : host.deadline = host'.deadline) : Eval.tick host = Eval.tick host' := by
  funext f
  rw [Eval.tick, Eval.tick, h]

/-- So is the size of a result. -/
theorem chargeResult_congr (h : host.sizeOfValue = host'.sizeOfValue) (built : Bool) (v : Value) :
    Eval.chargeResult host built v = Eval.chargeResult host' built v := by
  have hbytes : Eval.valueBytes host v = Eval.valueBytes host' v := by
    cases v with
    | list l => rw [Eval.valueBytes, Eval.valueBytes, h]
    | _ => rfl
  unfold Eval.chargeResult Eval.chargeBuilt Eval.chargeValue
  rw [hbytes]

/-- A capability that is there on both hosts, or on neither. -/
theorem map_eq_cases {α β : Type} {f : α → β} {x y : Option α} (h : x.map f = y.map f) :
    x = none ∧ y = none ∨ ∃ a b, x = some a ∧ y = some b ∧ f a = f b := by
  cases x with
  | none =>
    cases y with
    | none => exact Or.inl ⟨rfl, rfl⟩
    | some b => cases h
  | some a =>
    cases y with
    | none => cases h
    | some b => exact Or.inr ⟨a, b, rfl, rfl, Option.some.inj h⟩

/-- A builtin on arguments, with the case mapping that it may need. -/
theorem pureBuiltin_congr {b : Builtin} (h : AgreeOn host host' (.builtin b))
    (vals : List Value) : Eval.pureBuiltin host b vals = Eval.pureBuiltin host' b vals := by
  have hupper : b = .upper → host.toUppercase = host'.toUppercase := by
    rintro rfl
    exact h
  have hlower : b = .lower → host.toLowercase = host'.toLowercase := by
    rintro rfl
    exact h
  unfold Eval.pureBuiltin
  split
  case h_28 => rw [hupper rfl]
  case h_29 => rw [hlower rfl]
  all_goals rfl

/-- **A call is the same on hosts that agree on its builtin.** -/
theorem dispatch_congr {b : Builtin} (h : AgreeOn host host' (.builtin b)) (vals : List Value) :
    Eval.dispatch host host.actuator b vals = Eval.dispatch host' host'.actuator b vals := by
  have hpure := pureBuiltin_congr h vals
  cases b with
  | fetch =>
    rcases vals with - | ⟨v, - | ⟨w, vals⟩⟩
    · rfl
    · rcases map_eq_cases h with ⟨hx, hy⟩ | ⟨x, y, hx, hy, heq⟩
      · simp only [Eval.dispatch, hx, hy]
      · simp only [Eval.dispatch, hx, hy, heq]
    · rfl
  | fetchJson =>
    rcases vals with - | ⟨v, - | ⟨w, - | ⟨z, vals⟩⟩⟩
    · rfl
    · rfl
    · rcases map_eq_cases h with ⟨hx, hy⟩ | ⟨x, y, hx, hy, heq⟩
      · simp only [Eval.dispatch, hx, hy]
      · simp only [Eval.dispatch, hx, hy, heq]
    · rfl
  | «show» =>
    have hdisplay : host.display = host'.display := h
    rcases vals with - | ⟨v, - | ⟨w, vals⟩⟩
    · rfl
    · simp only [Eval.dispatch, Eval.applyBuiltin, hdisplay]
    · rfl
  | led =>
    rcases vals with - | ⟨v, - | ⟨w, vals⟩⟩
    · rfl
    · rcases map_eq_cases h with ⟨hx, hy⟩ | ⟨x, y, hx, hy, heq⟩
      · simp only [Eval.dispatch, Eval.applyBuiltin, hx, hy]
      · simp only [Eval.dispatch, Eval.applyBuiltin, hx, hy, heq]
    · rfl
  | flash =>
    rcases vals with - | ⟨v, vals⟩
    · rcases map_eq_cases h with ⟨hx, hy⟩ | ⟨x, y, hx, hy, heq⟩
      · simp only [Eval.dispatch, Eval.applyBuiltin, hx, hy]
      · simp only [Eval.dispatch, Eval.applyBuiltin, hx, hy, heq]
    · rfl
  | _ => simp only [Eval.dispatch, Eval.applyBuiltin, hpure]

/-! ### The tree walk -/

/-- A call of a builtin among the uses does the same with both hosts. -/
theorem evalCall_congr {b : Builtin} {us : List Use} (h : Agree us host host')
    (hb : .builtin b ∈ us) (vals : List Value) :
    Eval.evalCall host b vals = Eval.evalCall host' b vals := by
  unfold Eval.evalCall
  rw [dispatch_congr (h.on _ hb) vals]
  congr 1
  funext r
  rw [chargeResult_congr h.sizeOfValue]

mutual

/-- **A tree is evaluated the same way on hosts that agree on its uses**, by induction on
the tree. -/
theorem eval_congr : ∀ {e : Expr}, Agree (usesOf e) host host' → Eval.eval host e = Eval.eval host' e
  | .const _, h | .local _, h => by rw [Eval.eval, Eval.eval, tick_congr h.deadline]
  | .var x, h => by
    have hname : ∀ events, host.env events x = host'.env events x :=
      h.on (.name x) List.mem_cons_self
    rw [Eval.eval, Eval.eval, tick_congr h.deadline, Eval.lookup, Eval.lookup]
    simp only [hname]
  | .bin op a b, h => by
    rw [Eval.eval, Eval.eval, tick_congr h.deadline,
      eval_congr (h.mono fun _ => List.mem_append_left _),
      eval_congr (h.mono fun _ => List.mem_append_right _)]
    congr 1
    funext _
    congr 1
    funext x
    congr 1
    funext y
    rw [Eval.evalBin, Eval.evalBin]
    congr 1
    funext r
    rw [chargeResult_congr h.sizeOfValue]
  | .cmp _ a b, h | .index a b, h | .bool _ a b, h => by
    rw [Eval.eval, Eval.eval, tick_congr h.deadline,
      eval_congr (h.mono fun _ => List.mem_append_left _),
      eval_congr (h.mono fun _ => List.mem_append_right _)]
  | .unary op a, h => by
    rw [Eval.eval, Eval.eval, tick_congr h.deadline, eval_congr (e := a) h]
  | .ite c t e, h => by
    rw [Eval.eval, Eval.eval, tick_congr h.deadline,
      eval_congr (h.mono fun _ => List.mem_append_left _),
      eval_congr (h.mono fun _ hu => List.mem_append_right _ (List.mem_append_left _ hu)),
      eval_congr (h.mono fun _ hu => List.mem_append_right _ (List.mem_append_right _ hu))]
  | .call b args, h => by
    rw [Eval.eval, Eval.eval, tick_congr h.deadline,
      evalArgs_congr (h.mono fun _ => List.mem_cons_of_mem _)]
    congr 1
    funext _
    congr 1
    funext vals
    exact evalCall_congr h List.mem_cons_self vals
  | .list items, h => by
    have hspine : Eval.buildSpine host items.length = Eval.buildSpine host' items.length := by
      rw [Eval.buildSpine, Eval.buildSpine, h.sizeOfValue]
    rw [Eval.eval, Eval.eval, tick_congr h.deadline, hspine, evalArgs_congr h]
    congr 1
    funext _
    congr 1
    funext _
    congr 1
    funext vals
    have hcharge : Eval.chargeValue host (.list vals) = Eval.chargeValue host' (.list vals) :=
      chargeResult_congr h.sizeOfValue false _
    rw [Eval.evalList, Eval.evalList, hcharge, h.sizeOfValue]

/-- So do the arguments, one by one. -/
theorem evalArgs_congr :
    ∀ {es : List Expr}, Agree (usesOfAll es) host host' →
      Eval.evalArgs host es = Eval.evalArgs host' es
  | [], _ => rfl
  | e :: es, h => by
    rw [Eval.evalArgs, Eval.evalArgs, eval_congr (h.mono fun _ => List.mem_append_left _),
      evalArgs_congr (h.mono fun _ => List.mem_append_right _)]

end

/-- And so do the bindings. -/
theorem runBody_congr {bs : List LetBinding} :
    Agree (bs.flatMap fun b => usesOf b.expr) host host' →
      Eval.runBody host bs = Eval.runBody host' bs := by
  induction bs with
  | nil => exact fun _ => rfl
  | cons b bs ih =>
    intro h
    rw [List.flatMap_cons] at h
    rw [Eval.runBody, Eval.runBody, eval_congr (h.mono fun _ => List.mem_append_left _),
      ih (h.mono fun _ => List.mem_append_right _)]

end Same

/-! ## The effects of a run -/

/-- What an event costs: a poll comes with the step that makes it. -/
def cost : Event → ℕ
  | .poll => 0
  | _ => 1

/-! ### What an action may do -/

/-- The new events are due, and with the steps that are left they cost no more than the
steps before and an advance. -/
def Acts {α : Type} (us : List Use) (host : Host) (advance : ℕ) (m : Run α) : Prop :=
  ∀ f, ∃ l, (m f).2.events = f.events ++ l ∧ (∀ e ∈ l, Due us host e) ∧
    (l.map cost).sum + (m f).2.budget.toNat ≤ f.budget.toNat + advance

/-- The effect has at most one new event, and it is due. -/
def ActsOnce {α : Type} (us : List Use) (host : Host) (m : Effect α) : Prop :=
  ∀ events, (m events).2 = events ∨ ∃ e, (m events).2 = events ++ [e] ∧ Due us host e

section Effects

variable {α β : Type} {us us' : List Use} {host : Host} {k k' : ℕ}

namespace Acts

/-- What adds no event acts within any uses. -/
theorem of_silent {m : Run α} (hevents : ∀ f, (m f).2.events = f.events)
    (hbudget : ∀ f, (m f).2.budget = f.budget) : Acts us host 0 m := fun f =>
  ⟨[], by rw [hevents, List.append_nil], nofun, by rw [hbudget]; exact (Nat.zero_add _).le⟩

/-- A value acts on nothing. -/
theorem pure (a : α) : Acts us host 0 (pure a : Run α) := of_silent (fun _ => rfl) fun _ => rfl

/-- Neither does an error. -/
theorem lift (x : Outcome DslError α) : Acts us host 0 (StateOutcome.lift x : Run α) :=
  of_silent (fun _ => rfl) fun _ => rfl

/-- More uses and a larger share allow more. -/
theorem mono {m : Run α} (h : Acts us' host k m) (hsub : ∀ u ∈ us', u ∈ us) (hk : k ≤ k') :
    Acts us host k' m := by
  intro f
  obtain ⟨l, hl, hdue, hcost⟩ := h f
  exact ⟨l, hl, fun e he => (hdue e he).mono hsub, hcost.trans (Nat.add_le_add_left hk _)⟩

/-- **The rule for sequencing**: the advances add up. -/
theorem bind {m : Run α} {g : α → Run β} (h : Acts us host k m)
    (hg : ∀ a, Acts us host k' (g a)) : Acts us host (k + k') (m >>= g) := by
  intro f
  obtain ⟨l, hl, hdue, hcost⟩ := h f
  rw [bind_run]
  rcases hm : m f with ⟨o, f'⟩
  rw [hm] at hl hcost
  cases o with
  | ok a =>
    obtain ⟨l', hl', hdue', hcost'⟩ := hg a f'
    refine ⟨l ++ l', by rw [hl', hl, List.append_assoc], fun e he => ?_, ?_⟩
    · exact (List.mem_append.mp he).elim (hdue e) (hdue' e)
    · rw [List.map_append, List.sum_append]
      dsimp only at hcost ⊢
      omega
  | _ =>
    refine ⟨l, hl, hdue, ?_⟩
    dsimp only at hcost ⊢
    omega

/-- What comes first costs nothing. -/
theorem bind_left {m : Run α} {g : α → Run β} (h : Acts us host 0 m)
    (hg : ∀ a, Acts us host k (g a)) : Acts us host k (m >>= g) := by
  have hbind := h.bind hg
  rwa [Nat.zero_add] at hbind

/-- **A step pays for one event** of what comes behind it. -/
theorem tick_bind {g : Unit → Run α} (hg : ∀ a, Acts us host 1 (g a)) :
    Acts us host 0 (Eval.tick host >>= g) := by
  intro f
  -- a tick fails, or takes a step and perhaps polls the deadline
  have htick : (∃ x, Eval.tick host f = (.err x, f)) ∨ ∃ o f' l, Eval.tick host f = (o, f') ∧
      f'.events = f.events ++ l ∧ (∀ e ∈ l, Due us host e) ∧ (l.map cost).sum = 0 ∧
      f'.budget.toNat + 1 = f.budget.toNat := by
    unfold Eval.tick
    split_ifs with hzero
    · exact Or.inl ⟨_, rfl⟩
    have hpos : (f.budget - 1).toNat + 1 = f.budget.toNat := by
      have hne : f.budget.toNat ≠ 0 := fun h => hzero (UInt32.toNat_inj.mp h)
      have hle : (1 : UInt32) ≤ f.budget := by
        rw [UInt32.le_iff_toNat_le]
        exact Nat.one_le_iff_ne_zero.mpr hne
      rw [UInt32.toNat_sub_of_le _ _ hle]
      have hone : (1 : UInt32).toNat = 1 := rfl
      omega
    right
    dsimp only
    cases hdeadline : host.deadline with
    | none => exact ⟨_, _, [], rfl, (List.append_nil _).symm, nofun, rfl, hpos⟩
    | some deadline =>
      have hpoll : ∀ e ∈ [Event.poll], Due us host e := fun e he => by
        rw [List.mem_singleton.mp he]
        show host.deadline.isSome
        rw [hdeadline]
        rfl
      dsimp only
      split_ifs
      · exact ⟨_, _, [.poll], rfl, rfl, hpoll, rfl, hpos⟩
      · exact ⟨_, _, [.poll], rfl, rfl, hpoll, rfl, hpos⟩
      · exact ⟨_, _, [], rfl, (List.append_nil _).symm, nofun, rfl, hpos⟩
  rw [bind_run]
  rcases htick with ⟨x, hx⟩ | ⟨o, f', l, ho, hl, hdue, hcost, hbudget⟩
  · rw [hx]
    exact ⟨[], (List.append_nil _).symm, nofun, (Nat.zero_add _).le⟩
  · rw [ho]
    cases o with
    | ok a =>
      obtain ⟨l', hl', hdue', hcost'⟩ := hg a f'
      refine ⟨l ++ l', by rw [hl', hl, List.append_assoc], fun e he => ?_, ?_⟩
      · exact (List.mem_append.mp he).elim (hdue e) (hdue' e)
      · rw [List.map_append, List.sum_append, hcost]
        dsimp only
        omega
    | _ =>
      refine ⟨l, hl, hdue, ?_⟩
      rw [hcost]
      dsimp only
      omega

/-- An effect of at most one event needs an advance of one. -/
theorem liftEffect {m : Effect α} (h : ActsOnce us host m) :
    Acts us host 1 (Eval.liftEffect m) := by
  intro f
  rcases h f.events with hsilent | ⟨e, he, hdue⟩
  · exact ⟨[], hsilent.trans (List.append_nil _).symm, nofun, by simp [Eval.liftEffect]⟩
  · refine ⟨[e], he, fun e' he' => by rwa [List.mem_singleton.mp he'], ?_⟩
    have hone : cost e ≤ 1 := by cases e <;> simp [cost]
    simp only [List.map_cons, List.map_nil, List.sum_cons, List.sum_nil, Eval.liftEffect]
    omega

/-- The log of operations is not compared. -/
theorem recorded {m : Run α} (o : Frame → Operation) (h : Acts us host k m) :
    Acts us host k fun f => m { f with log := f.log ++ [o f] } := fun _ => h _

end Acts

namespace ActsOnce

/-- An outcome that asks the host for nothing makes no event. -/
theorem lift (x : Outcome DslError α) : ActsOnce us host (StateOutcome.lift x : Effect α) :=
  fun _ => Or.inl rfl

/-- An effect that the uses account for may happen once. -/
theorem perform {e : Event} (answer : List Event → Except DslError α) (he : Due us host e) :
    ActsOnce us host (perform e answer) := fun _ => Or.inr ⟨e, rfl, he⟩

/-- Nothing happens before. -/
theorem lift_bind {x : Outcome DslError α} {g : α → Effect β} (hg : ∀ a, ActsOnce us host (g a)) :
    ActsOnce us host (StateOutcome.lift x >>= g) := by
  intro events
  cases x with
  | ok a => exact hg a events
  | _ => exact Or.inl rfl

/-- Nothing happens behind. -/
theorem bind_pure {m : Effect α} (hm : ActsOnce us host m) (g : α → β) :
    ActsOnce us host (m >>= fun a => pure (g a)) := by
  intro events
  have hevents : ((m >>= fun a => Pure.pure (g a) : Effect β) events).2 = (m events).2 := by
    rw [bind_run]
    rcases m events with ⟨a | e | _ | _, events'⟩ <;> rfl
  rw [hevents]
  exact hm events

end ActsOnce

/-- **A call has the effect of its builtin, or none.** -/
theorem actsOnce_dispatch {b : Builtin} (hb : .builtin b ∈ us) (vals : List Value) :
    ActsOnce us host (Eval.dispatch host host.actuator b vals) := by
  unfold Eval.dispatch
  split
  · split
    · refine .lift_bind fun url => ?_
      split
      · exact (ActsOnce.perform (e := .fetch url) _ hb).bind_pure _
      · exact .lift _
    · exact .lift _
  · split
    · refine .lift_bind fun url => .lift_bind fun path => ?_
      split
      · exact .perform (e := .fetchExtract url path) _ hb
      · exact .lift _
    · exact .lift _
  · unfold Eval.applyBuiltin
    split
    · exact .lift _
    · exact .lift _
    · split
      · exact (ActsOnce.perform (e := .show _) _ hb).bind_pure _
      · exact .lift _
    · split
      · exact .lift_bind fun led => (ActsOnce.perform (e := .led led.1 led.2) _ hb).bind_pure _
      · exact .lift _
    · split
      · exact (ActsOnce.perform (e := .flash) _ hb).bind_pure _
      · exact .lift _
    · exact .lift _

/-! ### The tree -/

/-- Memory is nothing that the host sees. -/
theorem acts_charge (bytes : ℕ) : Acts us host 0 (Eval.charge bytes) := by
  refine .of_silent (fun f => ?_) fun f => ?_
  all_goals
    unfold Eval.charge
    dsimp only
    split_ifs <;> rfl

/-- Nor is the charge for a result. -/
theorem acts_chargeResult (built : Bool) (v : Value) :
    Acts us host 0 (Eval.chargeResult host built v) := by
  unfold Eval.chargeResult
  split
  · exact (acts_charge (Eval.valueBytes host v)).recorded
      fun f => .build (Eval.valueBytes host v) f.left
  · exact acts_charge _

/-- A result that is charged. -/
theorem Acts.charged {m : Run Value} (h : Acts us host k m) (built : Value → Bool) :
    Acts us host k (do
      let r ← m
      Eval.chargeResult host (built r) r
      Pure.pure r) :=
  h.bind fun r => (acts_chargeResult (built r) r).bind_left fun _ => .pure r

/-- A call acts as its builtin may. -/
theorem acts_evalCall {b : Builtin} (hb : .builtin b ∈ us) (vals : List Value) :
    Acts us host 1 (Eval.evalCall host b vals) :=
  ((Acts.liftEffect (actsOnce_dispatch hb vals)).recorded fun _ => .call b vals).charged _

/-- An operation on values acts on nothing. -/
theorem acts_evalBin (op : BinOp) (x y : Value) : Acts us host 0 (Eval.evalBin host op x y) :=
  ((Acts.lift (Eval.numBinop op x y)).recorded fun _ => .bin op x y).charged _

mutual

/-- **The walk over a tree does what its uses allow**, by induction on the tree. -/
theorem acts_eval : ∀ e : Expr, Acts (usesOf e) host 0 (Eval.eval host e)
  | .const v => .tick_bind fun _ => (Acts.pure v).mono (fun _ => id) (Nat.zero_le 1)
  | .local i => .tick_bind fun _ =>
      (Acts.of_silent (fun _ => rfl) fun _ => rfl).mono (fun _ => id) (Nat.zero_le 1)
  | .var x => .tick_bind fun _ => .liftEffect (.perform _ List.mem_cons_self)
  | .bin op a b => .tick_bind fun _ => Acts.mono (k := 0)
      (((acts_eval a).mono (fun _ => List.mem_append_left _) le_rfl).bind_left fun x =>
        ((acts_eval b).mono (fun _ => List.mem_append_right _) le_rfl).bind_left fun y =>
          acts_evalBin op x y) (fun _ => id) (Nat.zero_le 1)
  | .cmp op a b => .tick_bind fun _ => Acts.mono (k := 0)
      (((acts_eval a).mono (fun _ => List.mem_append_left _) le_rfl).bind_left fun x =>
        ((acts_eval b).mono (fun _ => List.mem_append_right _) le_rfl).bind_left fun y =>
          .lift _) (fun _ => id) (Nat.zero_le 1)
  -- the right operand is perhaps not evaluated, but may always be
  | .bool op a b => .tick_bind fun _ => Acts.mono (k := 0)
      (((acts_eval a).mono (fun _ => List.mem_append_left _) le_rfl).bind_left fun l => by
        have hright := ((acts_eval b).mono (fun _ => List.mem_append_right (usesOf a))
          le_rfl).bind_left fun r => (.pure (.bool (Eval.asBool r)) :
            Acts (usesOf a ++ usesOf b) host 0 (Pure.pure _ : Run Value))
        split
        · exact .pure _
        · exact .pure _
        · exact hright) (fun _ => id) (Nat.zero_le 1)
  | .unary op a => .tick_bind fun _ => Acts.mono (k := 0)
      ((acts_eval a).bind_left fun v => by
        cases op with
        | neg => exact (Acts.lift (Eval.negate v)).recorded fun _ => .negate v
        | not => exact .pure _) (fun _ => id) (Nat.zero_le 1)
  | .index l i => .tick_bind fun _ => Acts.mono (k := 0)
      (((acts_eval l).mono (fun _ => List.mem_append_left _) le_rfl).bind_left fun x =>
        ((acts_eval i).mono (fun _ => List.mem_append_right _) le_rfl).bind_left fun y =>
          .lift _) (fun _ => id) (Nat.zero_le 1)
  -- one of the branches
  | .ite c t e => .tick_bind fun _ => Acts.mono (k := 0)
      (((acts_eval c).mono (fun _ => List.mem_append_left _) le_rfl).bind_left fun b => by
        cases Eval.asBool b
        · exact (acts_eval e).mono (fun _ hu =>
            List.mem_append_right _ (List.mem_append_right _ hu)) le_rfl
        · exact (acts_eval t).mono (fun _ hu =>
            List.mem_append_right _ (List.mem_append_left _ hu)) le_rfl)
      (fun _ => id) (Nat.zero_le 1)
  -- the call spends the step that was taken for it
  | .call b args => .tick_bind fun _ =>
      ((acts_evalArgs args).mono (fun _ => List.mem_cons_of_mem _) le_rfl).bind_left fun vals =>
        acts_evalCall List.mem_cons_self vals
  | .list items => .tick_bind fun _ => Acts.mono (k := 0)
      ((Acts.of_silent (fun _ => rfl) fun _ => rfl : Acts _ host 0
        (Eval.buildSpine host items.length)).bind_left fun _ =>
        (acts_evalArgs items).bind_left fun vals =>
        (acts_charge _).bind_left fun _ => .of_silent (fun _ => rfl) fun _ => rfl)
      (fun _ => id) (Nat.zero_le 1)

/-- **Arguments act within their own uses**, which are among those of the call. -/
theorem acts_evalArgs : ∀ es : List Expr, Acts (usesOfAll es) host 0 (Eval.evalArgs host es)
  | [] => .pure []
  | e :: es =>
    ((acts_eval e).mono (fun _ => List.mem_append_left _) le_rfl).bind_left fun _ =>
      ((acts_evalArgs es).mono (fun _ => List.mem_append_right _) le_rfl).bind_left fun _ =>
        .pure _

end

/-- So do the bindings. -/
theorem acts_runBody : ∀ bs : List LetBinding,
    Acts (bs.flatMap fun b => usesOf b.expr) host 0 (Eval.runBody host bs)
  | [] => .pure ()
  | b :: bs => by
    have hstore : ∀ v, Acts (usesOf b.expr ++ bs.flatMap fun b => usesOf b.expr) host 0
        (Eval.storeLocal b.slot v) := fun v => by
      refine .of_silent (fun f => ?_) fun f => ?_
      all_goals
        unfold Eval.storeLocal
        dsimp only
        split_ifs <;> rfl
    exact ((acts_eval b.expr).mono (fun _ => List.mem_append_left _) le_rfl).bind_left fun v =>
      (hstore v).bind_left fun _ =>
        (acts_runBody bs).mono (fun _ => List.mem_append_right _) le_rfl

end Effects

/-! ## Programs -/

/-- What a program can reach on its host. -/
structure Confined (host : Host) (p : Program) : Prop where
  /-- Each effect is due to a name or a builtin of the program, or polls the deadline. -/
  due : ∀ maxSteps maxBytes, ∀ e ∈ (Eval.runWith host p maxSteps maxBytes).2.events,
    Due (uses p) host e
  /-- Each effect that is not a poll costs a step. -/
  paid : ∀ maxSteps maxBytes,
    ((Eval.runWith host p maxSteps maxBytes).2.events.filter (· ≠ .poll)).length ≤ maxSteps.toNat
  /-- A host that differs elsewhere makes no difference. -/
  same : ∀ host', Agree (uses p) host host' → ∀ maxSteps maxBytes,
    Eval.runWith host' p maxSteps maxBytes = Eval.runWith host p maxSteps maxBytes

/-- The events that are no polls, by what each costs. -/
theorem length_filter_poll (l : List Event) :
    (l.filter (· ≠ .poll)).length = (l.map cost).sum := by
  induction l with
  | nil => rfl
  | cons e l ih =>
    rw [List.map_cons, List.sum_cons, ← ih, List.filter_cons]
    cases e <;> simp [cost, Nat.add_comm]

/-- **A program reaches what it names, and no more.** -/
theorem confined (host : Host) (p : Program) : Confined host p := by
  have hrun : Acts (uses p) host 0 (Eval.runProgram host p) :=
    ((acts_runBody p.body).mono (fun _ => List.mem_append_left _) le_rfl).bind_left fun _ =>
      (acts_eval p.ret).mono (fun _ => List.mem_append_right _) le_rfl
  refine ⟨fun maxSteps maxBytes e he => ?_, fun maxSteps maxBytes => ?_,
    fun host' hagree maxSteps maxBytes => ?_⟩
  · obtain ⟨l, hl, hdue, -⟩ := hrun (Eval.initialFrame p maxSteps maxBytes)
    rw [Eval.runWith, hl] at he
    exact hdue e he
  · obtain ⟨l, hl, -, hcost⟩ := hrun (Eval.initialFrame p maxSteps maxBytes)
    rw [Eval.runWith, hl, length_filter_poll]
    show (l.map cost).sum ≤ maxSteps.toNat
    have hbudget : (Eval.initialFrame p maxSteps maxBytes).budget = maxSteps := rfl
    rw [hbudget] at hcost
    omega
  · rw [Eval.runWith, Eval.runWith, Eval.runProgram, Eval.runProgram,
      runBody_congr (hagree.mono fun _ => List.mem_append_left _),
      eval_congr (hagree.mono fun _ => List.mem_append_right _)]

end Confinement
