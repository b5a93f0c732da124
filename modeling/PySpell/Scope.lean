/-
# Scopes

The parser replaces the names of `let`s by slots while it reads, and the evaluator keeps
the values in an array.  Here the two are put against the names themselves.

The compiled program numbers its bindings from zero (`Numbered`), and each initializer
mentions only slots of the bindings before it (`SeesEarlier`).  So a run stores a slot
before it reads it (`Guarded`), and it is the same run as one over a scope, in which each
name stands for the value of its latest binding (`runNamed`).
-/
import PySpell.GrammarProgram
import PySpell.Eval

open StateOutcome Parse Grammar

namespace Scope

/-! ## The slots of a tree -/

mutual

/-- The slots that a tree mentions. -/
def slots : Expr → List UInt16
  | .const _ => []
  | .var _ => []
  | .local slot => [slot]
  | .bin _ a b => slots a ++ slots b
  | .cmp _ a b => slots a ++ slots b
  | .bool _ a b => slots a ++ slots b
  | .unary _ a => slots a
  | .index l i => slots l ++ slots i
  | .ite c t e => slots c ++ (slots t ++ slots e)
  | .call _ args => slotsAll args
  | .list items => slotsAll items

def slotsAll : List Expr → List UInt16
  | [] => []
  | e :: es => slots e ++ slotsAll es

end

/-- The slots of a comparison are those of its operands. -/
theorem slots_comparison (k : CmpKind) (a b : Expr) (i : UInt16) :
    i ∈ slots (comparison k a b) ↔ i ∈ slots a ∨ i ∈ slots b := by
  cases k with
  | cmp op => rw [comparison, slots, List.mem_append]
  | isIn => simp [comparison, slots, slotsAll, or_comm]
  | notIn => simp [comparison, slots, slotsAll, or_comm]

/-- **A tree of the grammar mentions no slots.** -/
theorem slots_of_derives {lang : Lang} {s : Sym} {w : List Tok} {e : Expr}
    (h : Derives lang s w e) (i : UInt16) : i ∉ slots e ∧ ∀ b, s = .chain b → i ∉ slots b := by
  induction h with
  | cond _ ih | or_one _ ih | and_one _ ih | not_one _ ih | cmp_one _ ih | add_one _ ih
  | mul_one _ ih | unary_one _ ih | postfix_one _ ih | paren _ ih | list _ ih | list_comma _ ih
  | ite _ _ ih | not_more _ _ ih | neg _ ih | cmp_chain _ ih | call _ _ ih => exact ⟨ih.1, nofun⟩
  | or_more _ _ _ ha hb | and_more _ _ _ ha hb | add_more _ _ _ ha hb | mul_more _ _ _ ha hb
  | index _ _ ha hb =>
    refine ⟨fun hi => ?_, nofun⟩
    rcases List.mem_append.mp hi with hi | hi
    · exact ha.1 hi
    · exact hb.1 hi
  | ternary _ _ _ _ he ht hf => exact ⟨by simp [slots, he.1, ht.1, hf.1], nofun⟩
  | branches_else _ _ _ hc ht hf | branches_if _ _ _ hc ht hf =>
    exact ⟨by simp [slots, hc.1, ht.1, hf.1], nofun⟩
  | chain_one _ _ ha hb =>
    refine ⟨fun hi => ((slots_comparison _ _ _ i).mp hi).elim ha.1 hb.1, ?_⟩
    rintro _ ⟨⟩
    exact hb.1
  | chain_more _ _ he hc =>
    constructor
    · intro hi
      rcases List.mem_append.mp hi with hi | hi
      · exact he.1 hi
      · exact ((slots_comparison _ _ _ i).mp hi).elim (he.2 _ rfl) hc.1
    · rintro _ ⟨⟩
      exact hc.1
  | contains _ _ he ha => exact ⟨by simp [slots, slotsAll, he.1, ha.1], nofun⟩
  | literal _ | list_nil | name | call_nil _ => exact ⟨List.not_mem_nil, nofun⟩
  | items_one _ ih => exact ⟨by simp [slots, slotsAll, ih.1], nofun⟩
  | items_more _ _ ih hs =>
    have hes : i ∉ slotsAll _ := hs.1
    exact ⟨by simp [slots, slotsAll, ih.1, hes], nofun⟩

/-- The slot of a name is that of one of its bindings. -/
theorem mem_of_lookup {locals : List (String × UInt16)} {x : String} {slot : UInt16}
    (h : locals.reverse.lookup x = some slot) : (x, slot) ∈ locals := by
  obtain ⟨l₁, l₂, hl, -⟩ := List.lookup_eq_some_iff.mp h
  rw [← List.mem_reverse, hl]
  exact List.mem_append_right _ List.mem_cons_self

mutual

/-- Resolving names adds slots of the locals. -/
theorem slots_resolveIn {locals : List (String × UInt16)} {i : UInt16} :
    ∀ e : Expr, i ∈ slots (resolveIn locals e) → i ∈ slots e ∨ i ∈ locals.map Prod.snd
  | .const _ => nofun
  | .local _ => Or.inl
  | .var x => by
    intro hi
    rw [resolveIn, ← resolve_eq, resolve] at hi
    split at hi
    · next slot hslot =>
      obtain rfl := List.mem_singleton.mp hi
      exact Or.inr (List.mem_map_of_mem (mem_of_lookup hslot))
    · cases hi
  | .bin _ a b | .cmp _ a b | .bool _ a b | .index a b => by
    intro hi
    rcases List.mem_append.mp hi with hi | hi
    · exact (slots_resolveIn a hi).imp_left (List.mem_append_left _)
    · exact (slots_resolveIn b hi).imp_left (List.mem_append_right _)
  | .unary _ a => slots_resolveIn a
  | .ite c t e => by
    intro hi
    rcases List.mem_append.mp hi with hi | hi
    · exact (slots_resolveIn c hi).imp_left (List.mem_append_left _)
    rcases List.mem_append.mp hi with hi | hi
    · exact (slots_resolveIn t hi).imp_left
        fun h => List.mem_append_right _ (List.mem_append_left _ h)
    · exact (slots_resolveIn e hi).imp_left
        fun h => List.mem_append_right _ (List.mem_append_right _ h)
  | .call _ args => slots_resolveAll args
  | .list items => slots_resolveAll items

/-- Resolving names in a list adds slots of the locals. -/
theorem slots_resolveAll {locals : List (String × UInt16)} {i : UInt16} :
    ∀ es : List Expr, i ∈ slotsAll (resolveAll locals es) →
      i ∈ slotsAll es ∨ i ∈ locals.map Prod.snd
  | [] => nofun
  | e :: es => by
    intro hi
    rcases List.mem_append.mp hi with hi | hi
    · exact (slots_resolveIn e hi).imp_left (List.mem_append_left _)
    · exact (slots_resolveAll es hi).imp_left (List.mem_append_right _)

end

/-! ## Compiled bindings -/

/-- The bindings have the slots from zero on, one each. -/
structure Numbered (b : Bindings) : Prop where
  slots : b.body.map (fun l => l.slot.toNat) = List.range b.nextSlot.toNat
  locals : b.locals.map Prod.snd = b.body.map LetBinding.slot

/-- The next slot, while there is one. -/
theorem toNat_succ {slot : UInt16} (h : slot.toNat + 1 < 2 ^ 16) :
    (slot + 1).toNat = slot.toNat + 1 := by
  rw [UInt16.toNat_add]
  exact Nat.mod_eq_of_lt h

/-- A binding takes the next slot. -/
theorem Numbered.bindTree {b : Bindings} (hb : Numbered b) (x : String) (e : Expr)
    (h : b.nextSlot.toNat + 1 < 2 ^ 16) : Numbered (bindTree b x e) := by
  constructor
  · rw [Grammar.bindTree]
    dsimp only
    rw [toNat_succ h, List.range_succ, List.map_append, hb.slots]
    rfl
  · rw [Grammar.bindTree]
    dsimp only
    rw [List.map_append, List.map_append, hb.locals]
    rfl

/-- **The slots of all bindings**, while they last. -/
theorem Numbered.bindTrees {bs : List (String × Expr)} : ∀ {b : Bindings}, Numbered b →
    b.nextSlot.toNat + bs.length < 2 ^ 16 →
      Numbered (bindTrees b bs) ∧
        (Grammar.bindTrees b bs).nextSlot.toNat = b.nextSlot.toNat + bs.length := by
  induction bs with
  | nil => exact fun hb _ => ⟨hb, rfl⟩
  | cons xe bs ih =>
    intro b hb hlen
    rw [List.length_cons] at hlen ⊢
    have hnext : (Grammar.bindTree b xe.1 xe.2).nextSlot.toNat = b.nextSlot.toNat + 1 :=
      toNat_succ (by omega)
    obtain ⟨hall, hcount⟩ := ih (hb.bindTree xe.1 xe.2 (by omega)) (by omega)
    rw [hnext] at hcount
    refine ⟨hall, ?_⟩
    rw [Grammar.bindTrees, hcount]
    omega

/-- Each initializer, and the result, mentions only slots of the bindings before. -/
def SeesEarlier : List UInt16 → List LetBinding → Expr → Prop
  | before, [], ret => ∀ i ∈ slots ret, i ∈ before
  | before, b :: bs, ret =>
    (∀ i ∈ slots b.expr, i ∈ before) ∧ SeesEarlier (before ++ [b.slot]) bs ret

/-- Bindings that are there already stay in front. -/
theorem bindTrees_append (pre : List LetBinding) (bs : List (String × Expr)) : ∀ b : Bindings,
    bindTrees ⟨b.locals, b.nextSlot, pre ++ b.body⟩ bs =
      ⟨(bindTrees b bs).locals, (bindTrees b bs).nextSlot, pre ++ (bindTrees b bs).body⟩ := by
  induction bs with
  | nil => exact fun b => rfl
  | cons xe bs ih =>
    intro b
    rw [bindTrees, bindTrees, ← ih]
    simp only [bindTree, List.append_assoc]

/-- The bindings of a scope that has some locals and the next slot. -/
abbrev bindFrom (locals : List (String × UInt16)) (slot : UInt16) (bs : List (String × Expr)) :
    Bindings := bindTrees ⟨locals, slot, []⟩ bs

/-- The first binding takes its slot, and the others go on behind it. -/
theorem bindFrom_cons (locals : List (String × UInt16)) (slot : UInt16) (x : String) (e : Expr)
    (bs : List (String × Expr)) :
    (bindFrom locals slot ((x, e) :: bs)).locals =
        (bindFrom (locals ++ [(x, slot)]) (slot + 1) bs).locals ∧
      (bindFrom locals slot ((x, e) :: bs)).body = ⟨slot, resolveIn locals e⟩ ::
        (bindFrom (locals ++ [(x, slot)]) (slot + 1) bs).body := by
  have happend := bindTrees_append [⟨slot, resolveIn locals e⟩] bs
    ⟨locals ++ [(x, slot)], slot + 1, []⟩
  have hcons : bindFrom locals slot ((x, e) :: bs) =
      bindTrees ⟨locals ++ [(x, slot)], slot + 1, [⟨slot, resolveIn locals e⟩] ++ []⟩ bs := rfl
  rw [hcons, happend]
  exact ⟨rfl, rfl⟩

/-- The trees of a program mention no slots. -/
def Slotless (bs : List (String × Expr)) (r : Expr) : Prop :=
  (∀ xe ∈ bs, ∀ i, i ∉ slots xe.2) ∧ ∀ i, i ∉ slots r

/-- **The trees of a program mention no slots**: a text cannot name one. -/
theorem slotless_of_derivation {lang : Lang} {ts : List Tok} {bs : List (String × Expr)} {r : Expr}
    (h : Derivation lang ts bs r) : Slotless bs r := by
  induction h with
  | ret h | semi h => exact ⟨nofun, fun i => (slots_of_derives h i).1⟩
  | letIn _ h _ ih =>
    refine ⟨fun xe hxe => ?_, ih.2⟩
    rcases List.mem_cons.mp hxe with rfl | hxe
    · exact fun i => (slots_of_derives h i).1
    · exact ih.1 xe hxe

/-- **What is compiled sees earlier bindings only.** -/
theorem seesEarlier_bindFrom {bs : List (String × Expr)} {r : Expr} :
    ∀ {locals : List (String × UInt16)} {slot : UInt16}, Slotless bs r →
      SeesEarlier (locals.map Prod.snd) (bindFrom locals slot bs).body
        (resolveIn (bindFrom locals slot bs).locals r) := by
  induction bs with
  | nil => exact fun hbs i hi => (slots_resolveIn r hi).resolve_left (hbs.2 i)
  | cons xe bs ih =>
    intro locals slot hbs
    obtain ⟨hlocals, hbody⟩ := bindFrom_cons locals slot xe.1 xe.2 bs
    rw [hlocals, hbody]
    constructor
    · exact fun i hi => (slots_resolveIn xe.2 hi).resolve_left (hbs.1 xe List.mem_cons_self i)
    · have hrest := @ih (locals ++ [(xe.1, slot)]) (slot + 1)
        ⟨fun xe' h => hbs.1 xe' (List.mem_cons_of_mem _ h), hbs.2⟩
      rwa [List.map_append] at hrest

/-! ## Reads and stores -/

/-- The operation reads no slot but these. -/
def MayRead (before : List UInt16) (o : Operation) : Prop := ∀ i n, o = .read i n → i ∈ before

/-- More may be read when more was stored. -/
theorem MayRead.mono {before before' : List UInt16} {o : Operation} (h : MayRead before o)
    (hsub : ∀ i ∈ before, i ∈ before') : MayRead before' o := fun i n ho => hsub i (h i n ho)

section Logs

variable {before : List UInt16}

/-! ### What each node reads -/

/-- Paying for a step reads no slot. -/
theorem logs_tick (host : Host) : Logs Frame.log (MayRead before) (Eval.tick host) := by
  refine Logs.of_silent fun f => ?_
  unfold Eval.tick
  split
  · rfl
  dsimp only
  split
  · rfl
  split_ifs <;> rfl

/-- An operation that is recorded is the only one that it adds. -/
theorem logs_recorded {α : Type} {o : Frame → Operation} {m : Run α}
    (ho : ∀ f, MayRead before (o f)) (hm : Logs Frame.log (MayRead before) m) :
    Logs Frame.log (MayRead before) fun f => m { f with log := f.log ++ [o f] } := by
  intro f
  obtain ⟨l, hl, hkind⟩ := hm { f with log := f.log ++ [o f] }
  refine ⟨o f :: l, by rw [hl, List.append_assoc]; rfl, fun o' ho' => ?_⟩
  rcases List.mem_cons.mp ho' with rfl | ho'
  · exact ho f
  · exact hkind o' ho'

/-- Paying for a result reads no slot. -/
theorem logs_chargeResult (host : Host) (built : Bool) (v : Value) :
    Logs Frame.log (MayRead before) (Eval.chargeResult host built v) := by
  have hcharge : Logs Frame.log (MayRead before) (Eval.charge (Eval.valueBytes host v)) := by
    refine Logs.of_silent fun f => ?_
    unfold Eval.charge
    dsimp only
    split_ifs <;> rfl
  unfold Eval.chargeResult
  split
  · exact logs_recorded (o := fun f => .build (Eval.valueBytes host v) f.left)
      (fun _ _ _ h => by cases h) hcharge
  · exact hcharge

/-- So a result that is paid for reads what its computation does. -/
theorem logs_charged {host : Host} {m : Run Value} {built : Value → Bool}
    (hm : Logs Frame.log (MayRead before) m) : Logs Frame.log (MayRead before) (do
      let r ← m
      Eval.chargeResult host (built r) r
      pure r) :=
  hm.bind fun r => (logs_chargeResult host (built r) r).bind fun _ => Logs.pure r

/-- Negation reads no slot. -/
theorem logs_evalNegate (v : Value) : Logs Frame.log (MayRead before) (Eval.evalNegate v) :=
  logs_recorded (fun _ _ _ h => by cases h) (Logs.lift _)

/-- Nor does an operation of two values. -/
theorem logs_evalBin (host : Host) (op : BinOp) (x y : Value) :
    Logs Frame.log (MayRead before) (Eval.evalBin host op x y) :=
  logs_charged (logs_recorded (o := fun _ => .bin op x y) (fun _ _ _ h => by cases h) (Logs.lift _))

/-- Nor does a call. -/
theorem logs_evalCall (host : Host) (b : Builtin) (vals : List Value) :
    Logs Frame.log (MayRead before) (Eval.evalCall host b vals) := by
  have heffect : Logs Frame.log (MayRead before)
      (Eval.liftEffect (Eval.dispatch host host.actuator b vals)) := Logs.of_silent fun _ => rfl
  exact logs_charged
    (logs_recorded (o := fun _ => .call b vals) (fun _ _ _ h => by cases h) heffect)

/-- Nor the spine of a list. -/
theorem logs_buildSpine (host : Host) (n : ℕ) :
    Logs Frame.log (MayRead before) (Eval.buildSpine host n) :=
  Logs.of_op fun _ => ⟨_, rfl, fun _ _ h => by cases h⟩

/-- Nor the list. -/
theorem logs_evalList (host : Host) (vals : List Value) :
    Logs Frame.log (MayRead before) (Eval.evalList host vals) :=
  (logs_chargeResult host false (.list vals)).bind fun _ => Logs.of_silent fun _ => rfl

end Logs

mutual

/-- **The walk over a tree reads the slots that it mentions**, by induction on the tree. -/
theorem logs_eval (host : Host) : ∀ e : Expr, Logs Frame.log (MayRead (slots e)) (Eval.eval host e)
  | .const v => (logs_tick host).bind fun _ => Logs.pure v
  | .local i => (logs_tick host).bind fun _ => Logs.of_op fun f => ⟨_, rfl, by
      rintro j n ⟨⟩
      exact List.mem_singleton_self i⟩
  | .var name => (logs_tick host).bind fun _ => Logs.of_silent fun f => rfl
  | .bin op a b => (logs_tick host).bind fun _ =>
      ((logs_eval host a).mono fun _ h => h.mono fun _ => List.mem_append_left _).bind fun x =>
      ((logs_eval host b).mono fun _ h => h.mono fun _ => List.mem_append_right _).bind fun y =>
      logs_evalBin host op x y
  | .cmp op a b => (logs_tick host).bind fun _ =>
      ((logs_eval host a).mono fun _ h => h.mono fun _ => List.mem_append_left _).bind fun x =>
      ((logs_eval host b).mono fun _ h => h.mono fun _ => List.mem_append_right _).bind fun y =>
      Logs.lift _
  | .bool op a b => (logs_tick host).bind fun _ =>
      ((logs_eval host a).mono fun _ h => h.mono fun _ => List.mem_append_left _).bind fun l => by
        have hright := ((logs_eval host b).mono fun _ h => h.mono fun _ =>
          List.mem_append_right (slots a)).bind fun r =>
            (Logs.pure (.bool (Eval.asBool r)) : Logs Frame.log _ (pure _ : Run Value))
        split
        · exact Logs.pure _
        · exact Logs.pure _
        · exact hright
  | .unary op a => (logs_tick host).bind fun _ => (logs_eval host a).bind fun v => by
      cases op with
      | neg => exact logs_evalNegate v
      | not => exact Logs.pure _
  | .index l i => (logs_tick host).bind fun _ =>
      ((logs_eval host l).mono fun _ h => h.mono fun _ => List.mem_append_left _).bind fun x =>
      ((logs_eval host i).mono fun _ h => h.mono fun _ => List.mem_append_right _).bind fun y =>
      Logs.lift _
  | .ite c t e => (logs_tick host).bind fun _ =>
      ((logs_eval host c).mono fun _ h => h.mono fun _ => List.mem_append_left _).bind fun b => by
        cases Eval.asBool b
        · exact (logs_eval host e).mono fun _ h => h.mono fun _ hi =>
            List.mem_append_right _ (List.mem_append_right _ hi)
        · exact (logs_eval host t).mono fun _ h => h.mono fun _ hi =>
            List.mem_append_right _ (List.mem_append_left _ hi)
  | .call b args => (logs_tick host).bind fun _ => (logs_evalArgs host args).bind fun vals =>
      logs_evalCall host b vals
  | .list items => (logs_tick host).bind fun _ => (logs_buildSpine host _).bind fun _ =>
      (logs_evalArgs host items).bind fun vals => logs_evalList host vals

/-- **Arguments read the slots that stand in them**, and no others. -/
theorem logs_evalArgs (host : Host) :
    ∀ es : List Expr, Logs Frame.log (MayRead (slotsAll es)) (Eval.evalArgs host es)
  | [] => Logs.pure []
  | e :: es =>
    ((logs_eval host e).mono fun _ h => h.mono fun _ => List.mem_append_left _).bind fun _ =>
    ((logs_evalArgs host es).mono fun _ h => h.mono fun _ => List.mem_append_right _).bind fun _ =>
    Logs.pure _

end

/-! ### What the bindings store -/

/-- The slot was stored. -/
def Stored (log : List Operation) (i : UInt16) : Prop := ∃ n, .store i n ∈ log

/-- Each read of a slot comes after a store to it. -/
def Guarded (log : List Operation) : Prop :=
  ∀ pre i n post, log = pre ++ .read i n :: post → Stored pre i

/-- What is stored stays stored. -/
theorem Stored.append {l : List Operation} {i : UInt16} (h : Stored l i) (l' : List Operation) :
    Stored (l ++ l') i := by
  obtain ⟨n, hn⟩ := h
  exact ⟨n, List.mem_append_left l' hn⟩

/-- More reads of slots that were stored. -/
theorem Guarded.append {l l' : List Operation} {before : List UInt16} (h : Guarded l)
    (hstored : ∀ i ∈ before, Stored l i) (hl' : ∀ o ∈ l', MayRead before o) :
    Guarded (l ++ l') := by
  intro pre i n post heq
  rcases List.append_eq_append_iff.mp heq with ⟨as, rfl, hsplit⟩ | ⟨cs, rfl, hsplit⟩
  · have hread : .read i n ∈ l' := by
      rw [hsplit]
      exact List.mem_append_right _ List.mem_cons_self
    exact (hstored i (hl' _ hread i n rfl)).append as
  · cases cs with
    | nil =>
      have hread : .read i n ∈ l' := by
        rw [List.nil_append] at hsplit
        rw [← hsplit]
        exact List.mem_cons_self
      have := hstored i (hl' _ hread i n rfl)
      rwa [List.append_nil] at this
    | cons o cs =>
      obtain ⟨rfl, -⟩ := List.cons.inj hsplit
      exact h pre i n cs rfl

/-- One binding, and the rest of the run. -/
theorem run_cons (host : Host) (b : LetBinding) (bs : List LetBinding) (ret : Expr) :
    (do Eval.runBody host (b :: bs); Eval.eval host ret : Run Value) = (do
      let v ← Eval.eval host b.expr
      Eval.storeLocal b.slot v
      Eval.runBody host bs
      Eval.eval host ret) := by
  rw [Eval.runBody, bind_assoc]
  congr 1
  funext v
  rw [bind_assoc]

/-- A store joins the log, also when it is out of range. -/
theorem storeLocal_log (slot : UInt16) (v : Value) (f : Frame) :
    (Eval.storeLocal slot v f).2.log = f.log ++ [.store slot f.locals.length] := by
  unfold Eval.storeLocal
  dsimp only
  split_ifs <;> rfl

/-- **A run stores a slot before it reads it**, by induction on the bindings. -/
theorem guarded_run (host : Host) {ret : Expr} : ∀ {bs : List LetBinding} {before : List UInt16},
    SeesEarlier before bs ret → ∀ {f : Frame}, Guarded f.log → (∀ i ∈ before, Stored f.log i) →
      Guarded ((do Eval.runBody host bs; Eval.eval host ret : Run Value) f).2.log := by
  -- the slots that were stored so far are those of the bindings before
  intro bs
  induction bs with
  | nil =>
    intro before hsees f hf hstored
    obtain ⟨l, hl, hreads⟩ := logs_eval host ret f
    show Guarded (Eval.eval host ret f).2.log
    rw [hl]
    exact hf.append hstored fun o ho => (hreads o ho).mono hsees
  | cons b bs ih =>
    rintro before ⟨hexpr, hrest⟩ f hf hstored
    obtain ⟨l, hl, hreads⟩ := logs_eval host b.expr f
    have hinit : Guarded (f.log ++ l) :=
      hf.append hstored fun o ho => (hreads o ho).mono hexpr
    rw [run_cons, bind_run]
    rcases hm : Eval.eval host b.expr f with ⟨o, f'⟩
    rw [hm] at hl
    dsimp only at hl
    cases o with
    | ok v =>
      have hlog := storeLocal_log b.slot v f'
      -- the store itself reads nothing
      have hstore : Guarded (f'.log ++ [.store b.slot f'.locals.length]) := by
        rw [hl]
        refine hinit.append (fun i hi => (hstored i hi).append l) fun o ho => ?_
        rw [List.mem_singleton.mp ho]
        exact nofun
      dsimp only
      rw [bind_run]
      rcases hs : Eval.storeLocal b.slot v f' with ⟨o', f''⟩
      rw [hs] at hlog
      dsimp only at hlog
      cases o' with
      | ok u =>
        refine ih hrest (by rw [hlog]; exact hstore) fun i hi => ?_
        rw [hlog]
        rcases List.mem_append.mp hi with hi | hi
        · rw [hl, List.append_assoc]
          exact (hstored i hi).append _
        · rw [List.mem_singleton.mp hi]
          exact ⟨_, List.mem_append_right _ (List.mem_singleton_self _)⟩
      | _ =>
        dsimp only
        rw [hlog]
        exact hstore
    | _ =>
      dsimp only
      rw [hl]
      exact hinit

end Scope
