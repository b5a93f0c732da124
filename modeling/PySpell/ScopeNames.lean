/-
# Slots against names

A reference semantics of programs with names and no slots: a run carries a scope, the
values of the names bound so far with the latest first, and in each expression the names
of the scope stand for their values (`inScope`, `runNamed`).

The compiled program does the same (`sim_run`): while the array of locals agrees with the
scope (`Agrees`), an expression with slots and the expression with values take the same
steps.  With the slots and the log of the run (`Scope`) this is what `let_scoping` states.
-/
import Mathlib.Data.List.Nodup
import PySpell.Scope

open StateOutcome Parse Grammar

namespace Scope

/-! ## Reference semantics -/

mutual

/-- The names of the scope stand for their values; the others are the host's. -/
def inScope (scope : List (String × Value)) : Expr → Expr
  | .const v => .const v
  | .var x =>
    match scope.lookup x with
    | some v => .const v
    | none => .var x
  | .local slot => .local slot
  | .bin op a b => .bin op (inScope scope a) (inScope scope b)
  | .cmp op a b => .cmp op (inScope scope a) (inScope scope b)
  | .bool op a b => .bool op (inScope scope a) (inScope scope b)
  | .unary op a => .unary op (inScope scope a)
  | .index l i => .index (inScope scope l) (inScope scope i)
  | .ite c t e => .ite (inScope scope c) (inScope scope t) (inScope scope e)
  | .call b args => .call b (allInScope scope args)
  | .list items => .list (allInScope scope items)

def allInScope (scope : List (String × Value)) : List Expr → List Expr
  | [] => []
  | e :: es => inScope scope e :: allInScope scope es

end

/-- A list stays as long when names become values. -/
theorem length_allInScope (scope : List (String × Value)) (es : List Expr) :
    (allInScope scope es).length = es.length := by
  induction es with
  | nil => rfl
  | cons e es ih => rw [allInScope, List.length_cons, List.length_cons, ih]

/-- The initializers in order, each in the scope of the ones before; then the result.  A name
of the scope has become its value before an expression is evaluated, so what evaluates it is
`Eval.eval` on a tree that has no names of the scope and no slots: the reference has its own
reading of names, and the operators are those of the evaluator. -/
def runNamed (host : Host) : List (String × Value) → List (String × Expr) → Expr → Run Value
  | scope, [], r => Eval.eval host (inScope scope r)
  | scope, (x, e) :: bs, r => do
    let v ← Eval.eval host (inScope scope e)
    runNamed host ((x, v) :: scope) bs r

/-- The frame of a run without slots. -/
def namedFrame (maxSteps maxBytes : UInt32) : Frame where
  locals := []
  budget := maxSteps
  mem := maxBytes
  sinceCheck := 0
  events := []
  log := []
  spines := 0

/-! ## Frames that differ in their locals -/

/-- A frame with these locals, and a frame that is the same otherwise, up to the log. -/
structure Alike (values : List Value) (f g : Frame) : Prop where
  locals : f.locals = values
  budget : f.budget = g.budget
  mem : f.mem = g.mem
  sinceCheck : f.sinceCheck = g.sinceCheck
  events : f.events = g.events

/-- The two computations end alike and leave the locals as they are. -/
abbrev Same {α : Type} (values : List Value) (m n : Run α) : Prop :=
  Sim (Alike values) (fun _ => False) m n

section Steps

variable {values : List Value}

/-- Runs that are the same end in the same value, from frames that are alike into such frames. -/
theorem Same.run {α : Type} {m n : Run α} (h : Same values m n) {f g : Frame}
    (hfg : Alike values f g) : (m f).1 = (n g).1 ∧ Alike values (m f).2 (n g).2 := by
  rcases h f g hfg with ⟨e, he, -⟩ | hsame
  · exact he.elim
  · exact hsame

/-- A step is paid for alike. -/
theorem same_tick (host : Host) : Same values (Eval.tick host) (Eval.tick host) := by
  intro f g h
  right
  unfold Eval.tick
  rw [h.budget, h.sinceCheck, h.events]
  split_ifs with h0
  · exact ⟨rfl, h⟩
  · dsimp only
    cases host.deadline with
    | none => exact ⟨rfl, h.locals, rfl, h.mem, rfl, rfl⟩
    | some deadline =>
      dsimp only
      split_ifs
      all_goals exact ⟨rfl, h.locals, rfl, h.mem, rfl, rfl⟩

/-- The host sees the same events. -/
theorem same_liftEffect {α : Type} (m : Effect α) :
    Same values (Eval.liftEffect m) (Eval.liftEffect m) := by
  intro f g h
  right
  unfold Eval.liftEffect
  rw [h.events]
  exact ⟨rfl, h.locals, h.budget, h.mem, h.sinceCheck, rfl⟩

/-- Memory is paid for alike. -/
theorem same_charge (bytes : ℕ) : Same values (Eval.charge bytes) (Eval.charge bytes) := by
  intro f g h
  right
  unfold Eval.charge
  rw [h.mem]
  dsimp only
  split_ifs
  · exact ⟨rfl, h⟩
  · exact ⟨rfl, h.locals, h.budget, rfl, h.sinceCheck, h.events⟩

/-- The logs are not compared. -/
theorem same_recorded {α : Type} {o o' : Frame → Operation} {m n : Run α} (h : Same values m n) :
    Same values (fun f => m { f with log := f.log ++ [o f] })
      (fun f => n { f with log := f.log ++ [o' f] }) := fun _ _ hfg =>
  h _ _ ⟨hfg.locals, hfg.budget, hfg.mem, hfg.sinceCheck, hfg.events⟩

/-- So are results. -/
theorem same_chargeResult (host : Host) (built : Bool) (v : Value) :
    Same values (Eval.chargeResult host built v) (Eval.chargeResult host built v) := by
  unfold Eval.chargeResult
  split
  · exact same_recorded (same_charge (Eval.valueBytes host v))
  · exact same_charge _

/-- What is the same before a charge is the same behind it. -/
theorem same_charged {host : Host} {m n : Run Value} {built : Value → Bool}
    (h : Same values m n) : Same values (do
      let r ← m
      Eval.chargeResult host (built r) r
      pure r) (do
      let r ← n
      Eval.chargeResult host (built r) r
      pure r) :=
  h.bind fun r => (same_chargeResult host (built r) r).bind fun _ => Sim.pure r

/-- Operations look at no local. -/
theorem same_evalNegate (v : Value) : Same values (Eval.evalNegate v) (Eval.evalNegate v) :=
  same_recorded (Sim.lift _)

/-- Those of two values neither. -/
theorem same_evalBin (host : Host) (op : BinOp) (x y : Value) :
    Same values (Eval.evalBin host op x y) (Eval.evalBin host op x y) :=
  same_charged (same_recorded (Sim.lift _))

/-- Calls take values, which are the same. -/
theorem same_evalCall (host : Host) (b : Builtin) (vals : List Value) :
    Same values (Eval.evalCall host b vals) (Eval.evalCall host b vals) :=
  same_charged (same_recorded (same_liftEffect (Eval.dispatch host host.actuator b vals)))

/-- Nor are the spines. -/
theorem same_buildSpine (host : Host) (n n' : ℕ) :
    Same values (Eval.buildSpine host n) (Eval.buildSpine host n') := fun _ _ h =>
  Or.inr ⟨rfl, h.locals, h.budget, h.mem, h.sinceCheck, h.events⟩

/-- Lists too. -/
theorem same_evalList (host : Host) (vals : List Value) :
    Same values (Eval.evalList host vals) (Eval.evalList host vals) :=
  (same_charge _).bind fun _ _ _ h =>
    Or.inr ⟨rfl, h.locals, h.budget, h.mem, h.sinceCheck, h.events⟩

/-- The right operand of a Boolean operator is evaluated only when it decides. -/
theorem same_bool {host : Host} {op : BoolOp} {b b' : Expr}
    (hb : Same values (Eval.eval host b) (Eval.eval host b')) (l : Value) :
    Same values (match op, Eval.asBool l with
      | .and, false => pure (.bool false)
      | .or, true => pure (.bool true)
      | _, _ => do
        let r ← Eval.eval host b
        pure (.bool (Eval.asBool r)) : Run Value)
      (match op, Eval.asBool l with
      | .and, false => pure (.bool false)
      | .or, true => pure (.bool true)
      | _, _ => do
        let r ← Eval.eval host b'
        pure (.bool (Eval.asBool r)) : Run Value) := by
  have hright : Same values (do let r ← Eval.eval host b; pure (.bool (Eval.asBool r)) : Run Value)
      (do let r ← Eval.eval host b'; pure (.bool (Eval.asBool r)) : Run Value) :=
    hb.bind fun r => Sim.pure _
  split
  · exact Sim.pure _
  · exact Sim.pure _
  · exact hright

end Steps

/-! ## Expressions -/

/-- The array holds the values of the scope: a name is a local with its value, or it is
neither a local nor in the scope. -/
def Agrees (locals : List (String × UInt16)) (scope : List (String × Value))
    (values : List Value) : Prop :=
  ∀ x, (∃ slot v, locals.reverse.lookup x = some slot ∧ scope.lookup x = some v ∧
      values[slot.toNat]? = some v) ∨
    (locals.reverse.lookup x = none ∧ scope.lookup x = none)

section Trees

variable {locals : List (String × UInt16)} {scope : List (String × Value)} {values : List Value}

/-- A name, from its slot or from the scope. -/
theorem same_name (host : Host) (hag : Agrees locals scope values) (x : String) :
    Same values (Eval.eval host (resolveIn locals (.var x)))
      (Eval.eval host (inScope scope (.var x))) := by
  rw [resolveIn, ← resolve_eq, resolve, inScope]
  rcases hag x with ⟨slot, v, hslot, hv, hvalue⟩ | ⟨hslot, hv⟩
  · rw [hslot, hv]
    refine (same_tick host).bind fun _ f g h => Or.inr ?_
    unfold Eval.readLocal
    rw [h.locals, hvalue]
    exact ⟨rfl, rfl, h.budget, h.mem, h.sinceCheck, h.events⟩
  · rw [hslot, hv]
    exact (same_tick host).bind fun _ => same_liftEffect _

mutual

/-- **An expression with slots and the expression with values take the same steps**, by
induction on the expression. -/
theorem same_eval (host : Host) (hag : Agrees locals scope values) :
    ∀ e : Expr, (∀ i, i ∉ slots e) →
      Same values (Eval.eval host (resolveIn locals e)) (Eval.eval host (inScope scope e))
  | .const v, _ => (same_tick host).bind fun _ => Sim.pure v
  | .local i, h => absurd (List.mem_singleton_self i) (h i)
  | .var x, _ => same_name host hag x
  | .bin op a b, h => (same_tick host).bind fun _ =>
      (same_eval host hag a fun i hi => h i (List.mem_append_left _ hi)).bind fun x =>
      (same_eval host hag b fun i hi => h i (List.mem_append_right _ hi)).bind fun y =>
      same_evalBin host op x y
  | .cmp op a b, h => (same_tick host).bind fun _ =>
      (same_eval host hag a fun i hi => h i (List.mem_append_left _ hi)).bind fun _ =>
      (same_eval host hag b fun i hi => h i (List.mem_append_right _ hi)).bind fun _ =>
      Sim.lift _
  | .bool op a b, h => (same_tick host).bind fun _ =>
      (same_eval host hag a fun i hi => h i (List.mem_append_left _ hi)).bind fun l =>
      same_bool (same_eval host hag b fun i hi => h i (List.mem_append_right _ hi)) l
  | .unary op a, h => (same_tick host).bind fun _ => (same_eval host hag a h).bind fun v => by
      cases op with
      | neg => exact same_evalNegate v
      | not => exact Sim.pure _
  | .index l i, h => (same_tick host).bind fun _ =>
      (same_eval host hag l fun j hj => h j (List.mem_append_left _ hj)).bind fun _ =>
      (same_eval host hag i fun j hj => h j (List.mem_append_right _ hj)).bind fun _ =>
      Sim.lift _
  | .ite c t e, h => (same_tick host).bind fun _ =>
      (same_eval host hag c fun i hi => h i (List.mem_append_left _ hi)).bind fun b => by
        have htree : ∀ i, i ∉ slots t ++ slots e := fun i hi =>
          h i (List.mem_append_right _ hi)
        cases Eval.asBool b
        · exact same_eval host hag e fun i hi => htree i (List.mem_append_right _ hi)
        · exact same_eval host hag t fun i hi => htree i (List.mem_append_left _ hi)
  | .call b args, h => (same_tick host).bind fun _ =>
      (same_evalArgs host hag args h).bind fun vals => same_evalCall host b vals
  | .list items, h => (same_tick host).bind fun _ => (same_buildSpine host _ _).bind fun _ =>
      (same_evalArgs host hag items h).bind fun vals => same_evalList host vals

/-- **Arguments take the same steps**, one by one. -/
theorem same_evalArgs (host : Host) (hag : Agrees locals scope values) :
    ∀ es : List Expr, (∀ i, i ∉ slotsAll es) →
      Same values (Eval.evalArgs host (resolveAll locals es))
        (Eval.evalArgs host (allInScope scope es))
  | [], _ => Sim.pure []
  | e :: es, h =>
    (same_eval host hag e fun i hi => h i (List.mem_append_left _ hi)).bind fun _ =>
    (same_evalArgs host hag es fun i hi => h i (List.mem_append_right _ hi)).bind fun _ =>
    Sim.pure _

end

/-- **A binding**: its slot gets the value, and the name is the latest in the scope. -/
theorem Agrees.bind (hag : Agrees locals scope values) {slot : UInt16}
    (hfresh : ∀ p ∈ locals, p.2.toNat < slot.toNat) (hlen : slot.toNat < values.length)
    (x : String) (v : Value) :
    Agrees (locals ++ [(x, slot)]) ((x, v) :: scope) (values.set slot.toNat v) := by
  intro y
  rw [List.reverse_append, List.reverse_cons, List.reverse_nil, List.nil_append,
    List.singleton_append]
  by_cases hy : y = x
  · subst hy
    refine Or.inl ⟨slot, v, List.lookup_cons_self, List.lookup_cons_self, ?_⟩
    rw [List.getElem?_set_self hlen]
  · have hne : (y == x) = false := beq_eq_false_iff_ne.mpr hy
    rw [List.lookup_cons, List.lookup_cons, hne]
    rcases hag y with ⟨s, w, hs, hw, hvalue⟩ | hnone
    · have hlt := hfresh _ (mem_of_lookup hs)
      refine Or.inl ⟨s, w, hs, hw, ?_⟩
      rw [List.getElem?_set_ne (by dsimp only at hlt; omega), hvalue]
    · exact Or.inr hnone

end Trees

/-! ## Programs -/

/-- A store within the array. -/
theorem storeLocal_of_lt {slot : UInt16} {f : Frame} (h : slot.toNat < f.locals.length)
    (v : Value) : Eval.storeLocal slot v f = (.ok (), { f with
      locals := f.locals.set slot.toNat v, log := f.log ++ [.store slot f.locals.length] }) := by
  unfold Eval.storeLocal
  dsimp only
  rw [if_pos h]

/-- **A program with slots and the program with names run alike**, by induction on the
bindings: each store keeps the array in agreement with the scope. -/
theorem sim_run (host : Host) {bs : List (String × Expr)} {r : Expr} :
    ∀ {locals : List (String × UInt16)} {slot : UInt16} {scope : List (String × Value)}
      {values : List Value}, Slotless bs r → Agrees locals scope values →
      (∀ p ∈ locals, p.2.toNat < slot.toNat) → slot.toNat + bs.length < 2 ^ 16 →
      slot.toNat + bs.length ≤ values.length → ∀ {f g : Frame}, Alike values f g →
      ((do Eval.runBody host (bindFrom locals slot bs).body
           Eval.eval host (resolveIn (bindFrom locals slot bs).locals r) : Run Value) f).1 =
        (runNamed host scope bs r g).1 ∧
      ((do Eval.runBody host (bindFrom locals slot bs).body
           Eval.eval host (resolveIn (bindFrom locals slot bs).locals r) : Run Value) f).2.events =
        (runNamed host scope bs r g).2.events := by
  induction bs with
  | nil =>
    intro locals slot scope values hbs hag _ _ _ f g hfg
    obtain ⟨heq, hR⟩ := (same_eval host hag r hbs.2).run hfg
    exact ⟨heq, hR.events⟩
  | cons xe bs ih =>
    intro locals slot scope values hbs hag hfresh hslots hlen f g hfg
    rw [List.length_cons] at hslots hlen
    obtain ⟨x, e⟩ := xe
    obtain ⟨hlocals, hbody⟩ := bindFrom_cons locals slot x e bs
    rw [hlocals, hbody, run_cons, runNamed, bind_run, bind_run]
    obtain ⟨heq, hR⟩ := (same_eval host hag e (hbs.1 _ List.mem_cons_self)).run hfg
    dsimp only
    rcases hm : Eval.eval host (resolveIn locals e) f with ⟨o, f'⟩
    rcases hn : Eval.eval host (inScope scope e) g with ⟨o', g'⟩
    rw [hm, hn] at heq hR
    obtain rfl : o = o' := heq
    cases o with
    | ok v =>
      -- a slot is there for the name
      have hlt : slot.toNat < f'.locals.length := by
        rw [hR.locals]
        omega
      have hnext : (slot + 1).toNat = slot.toNat + 1 := toNat_succ (by omega)
      -- and it is a new one, so the earlier names keep theirs
      have hfresh' : ∀ p ∈ locals ++ [(x, slot)], p.2.toNat < (slot + 1).toNat := by
        intro p hp
        rw [hnext]
        rcases List.mem_append.mp hp with hp | hp
        · exact Nat.lt_succ_of_lt (hfresh p hp)
        · rw [List.mem_singleton.mp hp]
          exact Nat.lt_succ_self _
      dsimp only
      rw [bind_run_of_ok (storeLocal_of_lt hlt v)]
      refine ih ⟨fun xe h => hbs.1 xe (List.mem_cons_of_mem _ h), hbs.2⟩
        (hag.bind hfresh (by omega) x v) hfresh' (by omega) (by rw [List.length_set]; omega) ?_
      exact ⟨by rw [← hR.locals], hR.budget, hR.mem, hR.sinceCheck, hR.events⟩
    | _ => exact ⟨rfl, hR.events⟩

/-- How a compiled program scopes its `let`s, against the names of its source. -/
structure Scoped (bs : List (String × Expr)) (r : Expr) (p : Program) : Prop where
  distinct : (p.body.map LetBinding.slot).Nodup
  below : ∀ b ∈ p.body, b.slot < p.nLocals
  count : p.nLocals.toNat = p.body.length ∧ p.body.length = bs.length
  earlier : SeesEarlier [] p.body p.ret
  /-- The initial value of a slot is never read. -/
  guarded : ∀ host maxSteps maxBytes, Guarded (Eval.runWith host p maxSteps maxBytes).2.log
  /-- A run gives the result of the reference semantics, after the same effects. -/
  named : ∀ host maxSteps maxBytes,
    (Eval.runWith host p maxSteps maxBytes).1 =
        (runNamed host [] bs r (namedFrame maxSteps maxBytes)).1 ∧
      (Eval.runWith host p maxSteps maxBytes).2.events =
        (runNamed host [] bs r (namedFrame maxSteps maxBytes)).2.events

/-- The program of bindings without slots. -/
theorem scoped_of_slotless {bs : List (String × Expr)} {r : Expr} (hslotless : Slotless bs r)
    (hlen : bs.length < 2 ^ 16) (maxSteps : UInt32) :
    Scoped bs r ⟨(compiled bs r).1.body, (compiled bs r).2, (compiled bs r).1.nextSlot,
      maxSteps⟩ := by
  have hstart : Numbered ⟨[], 0, []⟩ := ⟨rfl, rfl⟩
  have hzero : (0 : UInt16).toNat = 0 := rfl
  have hfew : (0 : UInt16).toNat + bs.length < 2 ^ 16 := by
    rw [hzero]
    omega
  obtain ⟨hnum, hnext⟩ := hstart.bindTrees hfew
  rw [hzero, Nat.zero_add] at hnext
  have hsees : SeesEarlier [] (compiled bs r).1.body (compiled bs r).2 :=
    @seesEarlier_bindFrom bs r [] 0 hslotless
  have hslots : (compiled bs r).1.body.map (fun l => l.slot.toNat) = List.range bs.length := by
    rw [← hnext]
    exact hnum.slots
  have hbody : (compiled bs r).1.body.length = bs.length := by
    rw [← List.length_map (fun l : LetBinding => l.slot.toNat), hslots, List.length_range]
  constructor
  · have hnodup : ((compiled bs r).1.body.map (fun l => l.slot.toNat)).Nodup := by
      rw [hslots]
      exact List.nodup_range
    rw [← Function.comp_def UInt16.toNat, ← List.map_map] at hnodup
    exact List.Nodup.of_map _ hnodup
  · intro b hb
    rw [UInt16.lt_iff_toNat_lt]
    have hmem := List.mem_map_of_mem (f := fun l : LetBinding => l.slot.toNat) hb
    rw [hslots, List.mem_range, ← hnext] at hmem
    exact hmem
  · exact ⟨hnext.trans hbody.symm, hbody⟩
  · exact hsees
  · intro host steps bytes
    refine guarded_run host hsees (fun pre i n post hlog => ?_) nofun
    exact absurd hlog.symm (by simp [Eval.initialFrame])
  · intro host steps bytes
    have hvalues : (0 : UInt16).toNat + bs.length ≤
        (List.replicate (compiled bs r).1.nextSlot.toNat (Value.int 0)).length := by
      rw [hzero, List.length_replicate, Nat.zero_add]
      exact hnext.ge
    exact @sim_run host bs r [] 0 [] _ hslotless (fun x => Or.inr ⟨rfl, rfl⟩) nofun hfew hvalues _ _
      ⟨rfl, rfl, rfl, rfl, rfl⟩

/-- The program of a derivation. -/
theorem scoped_compiled {lang : Lang} {ts : List Tok} {bs : List (String × Expr)} {r : Expr}
    (h : Derivation lang ts bs r) (hlen : bs.length < 2 ^ 16) (maxSteps : UInt32) :
    Scoped bs r ⟨(compiled bs r).1.body, (compiled bs r).2, (compiled bs r).1.nextSlot,
      maxSteps⟩ :=
  scoped_of_slotless (slotless_of_derivation h) hlen maxSteps

/-- **Let scoping**: a Rust text that the parser accepts is a program of the grammar with
fewer bindings than there are slots, and its compiled form scopes them as the names do. -/
theorem let_scoping {src : String} {p : Program} (h : parse src .rust = .ok p) :
    ∃ toks bs r, Lex.lex src = .ok toks ∧ Derivation .rust toks bs r ∧ Scoped bs r p := by
  obtain ⟨toks, bs, r, htoks, hd, hlen, rfl⟩ := compiled_of_parse h
  exact ⟨toks, bs, r, htoks, hd, scoped_compiled hd hlen defaultMaxSteps⟩

/-- A binding that refers to an earlier one of its name. -/
theorem let_scoping_shadow : ∃ p toks bs r, parse "let x = 1; let x = x + 1; x" .rust = .ok p ∧
    Lex.lex "let x = 1; let x = x + 1; x" = .ok toks ∧ Derivation .rust toks bs r ∧
    Scoped bs r p := by
  have hok : (parse "let x = 1; let x = x + 1; x" .rust).toOption.isSome := by decide +kernel
  obtain ⟨p, hp⟩ := Option.isSome_iff_exists.mp hok
  rw [Outcome.toOption_eq_some] at hp
  obtain ⟨toks, bs, r, h⟩ := let_scoping hp
  exact ⟨p, toks, bs, r, hp, h⟩

end Scope
