/-
# When the evaluator panics

A run of the evaluator panics at an operation on extreme operands or on a slot
that does not exist.  `Operation.Faults` lists these operations;
`runWith_returns_iff` shows, for every program, host and limits, that a run
returns exactly when it performs none of them.

Each operation is settled by a lemma of its own (`numBinop_returns_iff`,
`negate_returns_iff`, `sumLoop_returns_iff`, `dispatch_returns_iff`); the tree
walk adds nothing (`eval_returnsUnless`, by induction on the expression with the
sequencing rule of `ReturnsUnless`).
-/
import PySpell.Eval
import PySpell.Parse

open StateOutcome

namespace Eval

/-! ## Operations that fault -/

/-- The integers among the values. -/
def intPart : Value → ℤ
  | .int n => n.toInt
  | _ => 0

def isNumber : Value → Bool
  | .int _ => true
  | .float _ => true
  | _ => false

/-- The sum of a list of 64-bit integers leaves the range. -/
def OutOfRange (z : ℤ) : Prop := z < -(2 : ℤ) ^ 63 ∨ (2 : ℤ) ^ 63 ≤ z

/-- Some initial segment of the list consists of numbers, and its integers add up to
a number out of range. -/
def SumOverflows (items : List Value) : Prop :=
  ∃ k, (items.take k).all isNumber ∧ OutOfRange ((items.take k).map intPart).sum

end Eval

open Eval

/-- **The operations that panic.** -/
def Operation.Faults : Operation → Prop
  | .read slot n => n ≤ slot.toNat
  | .store slot n => n ≤ slot.toNat
  | .negate v => v = .int minI64
  | .bin op x y => (op = .div ∨ op = .rem) ∧ x = .int minI64 ∧ y = .int (-1)
  | .call .abs vals => vals = [.int minI64]
  | .call .sum vals => ∃ items, vals = [.list items] ∧ SumOverflows items
  | .call _ _ => False
  | .build _ _ => False

namespace Eval

/-! ## Each operation -/

/-- Only the least number has no opposite. -/
theorem checkedNeg_returns_iff (n : Int64) : (checkedNeg n).Returns ↔ n ≠ minI64 := by
  unfold checkedNeg
  split_ifs with h <;> simp [h]

/-- Negation faults where the log says so. -/
theorem negate_returns_iff (v : Value) : (negate v).Returns ↔ ¬ (Operation.negate v).Faults := by
  cases v with
  | int n => simp [negate, checkedNeg_returns_iff, Operation.Faults]
  | _ => simp [negate, typeErr, Operation.Faults]

/-- Division panics on one pair of operands. -/
theorem checkedDiv_returns_iff (x y : Int64) :
    (checkedDiv x y).Returns ↔ ¬ (x = minI64 ∧ y = -1) := by
  unfold checkedDiv
  split_ifs with h <;> simp [h]

/-- The remainder faults like the division, at the least number and minus one. -/
theorem checkedRem_returns_iff (x y : Int64) :
    (checkedRem x y).Returns ↔ ¬ (x = minI64 ∧ y = -1) := by
  unfold checkedRem
  split_ifs with h <;> simp [h]

/-- An operation of two values faults where the log says so. -/
theorem numBinop_returns_iff (op : BinOp) (x y : Value) :
    (numBinop op x y).Returns ↔ ¬ (Operation.bin op x y).Faults := by
  unfold numBinop
  split_ifs with hs
  · -- a concatenation
    simp [Operation.Faults, hs.1]
  · split
    · cases op with
      | add | sub | mul => simp [Operation.Faults]
      | div | rem =>
        dsimp only
        split_ifs with hy
        · subst hy
          simp [typeErr, Operation.Faults]
        · simp [checkedDiv_returns_iff, checkedRem_returns_iff, Operation.Faults]
    · next hno =>
      have hfault : ¬ (Operation.bin op x y).Faults := by
        rintro ⟨-, rfl, rfl⟩
        exact hno _ _ rfl rfl
      simp only [hfault, not_false_eq_true, iff_true]
      refine Outcome.returns_bind.mpr ⟨Outcome.returns_ofExcept _, fun _ _ => ?_⟩
      refine Outcome.returns_bind.mpr ⟨Outcome.returns_ofExcept _, fun _ _ => ?_⟩
      cases op <;> trivial

/-! ### Sums -/

/-- An addition panics when the sum is out of range. -/
theorem checkedAdd_cases (x y : Int64) :
    (OutOfRange (x.toInt + y.toInt) ∧ checkedAdd x y = .panic) ∨
      (¬ OutOfRange (x.toInt + y.toInt) ∧ checkedAdd x y = .ok (x + y) ∧
        (x + y).toInt = x.toInt + y.toInt) := by
  unfold checkedAdd OutOfRange
  split_ifs with h
  · refine Or.inr ⟨by omega, rfl, ?_⟩
    rw [Int64.toInt_add, Int.bmod_eq_of_le (by omega) (by omega)]
  · exact Or.inl ⟨by omega, rfl⟩

/-- A number that was read is in range. -/
theorem not_outOfRange_toInt (x : Int64) : ¬ OutOfRange x.toInt := by
  have h1 := x.le_toInt
  have h2 := x.toInt_lt
  unfold OutOfRange
  omega

/-- A running total leaves the range at once, or after the first value. -/
theorem sumOverflows_cons (z : ℤ) (v : Value) (vs : List Value) :
    (∃ k, ((v :: vs).take k).all isNumber ∧
        OutOfRange (z + (((v :: vs).take k).map intPart).sum)) ↔
      OutOfRange z ∨ isNumber v ∧ ∃ k, (vs.take k).all isNumber ∧
        OutOfRange (z + intPart v + ((vs.take k).map intPart).sum) := by
  constructor
  · rintro ⟨k, hall, hout⟩
    rcases k with _ | k
    · exact Or.inl (by simpa using hout)
    · simp only [List.take_succ_cons, List.all_cons, Bool.and_eq_true] at hall
      refine Or.inr ⟨hall.1, k, hall.2, ?_⟩
      rwa [List.take_succ_cons, List.map_cons, List.sum_cons, ← add_assoc] at hout
  · rintro (hout | ⟨hv, k, hall, hout⟩)
    · exact ⟨0, rfl, by simpa using hout⟩
    · refine ⟨k + 1, by simp [hv, hall], ?_⟩
      rwa [List.take_succ_cons, List.map_cons, List.sum_cons, ← add_assoc]

/-- **The loop of `sum` panics exactly when a running total leaves the range.** -/
theorem sumLoop_returns_iff (vs : List Value) :
    ∀ (acc : Int64) (facc : Binary64) (anyFloat : Bool),
      (sumLoop vs acc facc anyFloat).Returns ↔ ¬ ∃ k, (vs.take k).all isNumber ∧
        OutOfRange (acc.toInt + ((vs.take k).map intPart).sum) := by
  induction vs with
  | nil =>
    intro acc facc anyFloat
    have hacc := not_outOfRange_toInt acc
    unfold sumLoop
    split_ifs <;> simpa using hacc
  | cons v vs ih =>
    intro acc facc anyFloat
    have hacc := not_outOfRange_toInt acc
    rw [sumOverflows_cons]
    cases v with
    | int n =>
      rw [sumLoop]
      rcases checkedAdd_cases acc n with ⟨hout, hc⟩ | ⟨hin, hc, hsum⟩
      · rw [hc]
        simp only [Outcome.panic_bind, Outcome.not_returns_panic, false_iff, not_not]
        exact Or.inr ⟨rfl, 0, rfl, by simpa [intPart] using hout⟩
      · rw [hc, Outcome.ok_bind, ih, hsum]
        simp [hacc, isNumber, intPart]
    | float x =>
      rw [sumLoop, ih]
      simp [hacc, isNumber, intPart]
    | _ => simp [sumLoop, typeErr, hacc, isNumber]

/-- A single list is asked for, and nothing else is taken. -/
theorem singleList_eq_ok {b : Builtin} {vals items : List Value} :
    singleList b vals = .ok items ↔ vals = [.list items] := by
  unfold singleList
  split <;> simp_all

/-! ### Builtins -/

/-- **A builtin without an effect panics on `abs` of the least integer and on an
overflowing `sum`.** -/
theorem pureBuiltin_returns_iff (host : Host) (b : Builtin) (vals : List Value) :
    (pureBuiltin host b vals).Returns ↔ ¬ (Operation.call b vals).Faults := by
  fun_cases pureBuiltin host b vals with
  | case4 n hn => simp [checkedNeg_returns_iff, Operation.Faults]
  | case5 n hn =>
    -- a number that is not negative is not the least one
    have : n ≠ minI64 := by
      rintro rfl
      exact hn (by decide)
    simp [Operation.Faults, this]
  | case7 v hno _ =>
    have : v ≠ .int minI64 := fun h => hno _ h
    simp [typeErr, Operation.Faults, this]
  | case14 vals =>
    rw [Outcome.returns_bind]
    rcases h : singleList .sum vals with e | items
    · have : ¬ ∃ items, vals = [.list items] ∧ SumOverflows items := by
        rintro ⟨items, rfl, -⟩
        cases h
      simp [Operation.Faults, this]
    · obtain rfl := singleList_eq_ok.mp h
      simp [Operation.Faults, sumLoop_returns_iff, SumOverflows]
  | case34 b vals =>
    have hfault : ¬ (Operation.call b vals).Faults := by
      intro hf
      cases b with
      | abs => exact ‹∀ n, Builtin.abs = .abs → vals = [.int n] → False› _ rfl hf
      | sum => contradiction
      | _ => exact hf
    simp [arityErr, hfault]
  | _ => simp [typeErr, Operation.Faults]

/-- An effect returns. -/
theorem perform_returns {α : Type} (e : Event) (answer : List Event → Except DslError α)
    (events : List Event) : (perform e answer events).1.Returns :=
  Outcome.returns_ofExcept _

/-- Sequencing for effects, which keep no log of operations. -/
theorem effect_bind_returns {α β : Type} {m : Effect α} {k : α → Effect β} {events : List Event}
    (hm : (m events).1.Returns) (hk : ∀ a events', (k a events').1.Returns) :
    ((m >>= k) events).1.Returns := by
  rw [bind_run]
  rcases h : m events with ⟨o, events'⟩
  rw [h] at hm
  cases o with
  | ok a => exact hk a events'
  | _ => exact hm

/-- A builtin faults where the log says so; the network builtins do not come here. -/
theorem applyBuiltin_returns_iff (host : Host) (actuator : Option Actuator) (b : Builtin)
    (vals : List Value) (hb : b ≠ .fetch ∧ b ≠ .fetchJson) (events : List Event) :
    (applyBuiltin host actuator b vals events).1.Returns ↔
      ¬ (Operation.call b vals).Faults := by
  fun_cases applyBuiltin host actuator b vals with
  | case1 | case2 => simp at hb
  | case3 | case7 =>
    simp only [Operation.Faults, not_false_eq_true, iff_true]
    exact effect_bind_returns (perform_returns _ _ _) fun _ _ => trivial
  | case4 | case6 | case8 => simp [Operation.Faults, fail]
  | case5 =>
    simp only [Operation.Faults, not_false_eq_true, iff_true]
    refine effect_bind_returns (Outcome.returns_ofExcept _) fun _ _ => ?_
    exact effect_bind_returns (perform_returns _ _ _) fun _ _ => trivial
  | case9 => exact pureBuiltin_returns_iff host b vals

/-- **A call panics on `abs` of the least integer and on an overflowing `sum`.** -/
theorem dispatch_returns_iff (host : Host) (actuator : Option Actuator) (b : Builtin)
    (vals : List Value) (events : List Event) :
    (dispatch host actuator b vals events).1.Returns ↔ ¬ (Operation.call b vals).Faults := by
  fun_cases dispatch host actuator b vals with
  | case1 v =>
    simp only [Operation.Faults, not_false_eq_true, iff_true]
    refine effect_bind_returns (Outcome.returns_ofExcept _) fun url _ => ?_
    cases host.net with
    | none => trivial
    | some net => exact effect_bind_returns (perform_returns _ _ _) fun _ _ => trivial
  | case3 v w =>
    simp only [Operation.Faults, not_false_eq_true, iff_true]
    refine effect_bind_returns (Outcome.returns_ofExcept _) fun url _ => ?_
    refine effect_bind_returns (Outcome.returns_ofExcept _) fun path _ => ?_
    cases host.net with
    | none => trivial
    | some net => exact perform_returns _ _ _
  | case2 | case4 => simp [Operation.Faults, arityErr, lift]
  | case5 =>
    exact applyBuiltin_returns_iff host actuator _ vals ⟨by assumption, by assumption⟩ events

/-! ## The tree walk -/

/-- The log that a part of a run leaves decides whether it returns. -/
abbrev Safe {α : Type} (m : Run α) : Prop := ReturnsUnless Frame.log Operation.Faults m

/-- Paying for a step does not fault. -/
theorem safe_tick (host : Host) : Safe (tick host) := by
  refine ReturnsUnless.of_silent (fun f => ?_) fun f => ?_
  all_goals
    unfold tick
    split_ifs
    · trivial
    · dsimp only
      split
      · trivial
      · split_ifs <;> trivial

/-- Paying for memory does not fault. -/
theorem safe_charge (bytes : ℕ) : Safe (charge bytes) := by
  refine ReturnsUnless.of_silent (fun f => ?_) fun f => ?_
  all_goals
    unfold charge
    dsimp only
    split_ifs <;> trivial

/-- Building a buffer is an operation that never faults. -/
theorem safe_buildBuffer (bytes : ℕ) : Safe (buildBuffer bytes) :=
  ReturnsUnless.of_op fun f =>
    ⟨.build bytes f.left, rfl, by simp [Operation.Faults, buildBuffer, record, StateOutcome.modify]⟩

/-- Nor paying for what was built. -/
theorem safe_chargeBuilt (host : Host) (v : Value) : Safe (chargeBuilt host v) :=
  (safe_buildBuffer _).bind fun _ => safe_charge _

/-- The ghost components do not matter. -/
theorem safe_modify {g : Frame → Frame} (hg : ∀ f, (g f).log = f.log) : Safe (.modify g) :=
  ReturnsUnless.of_silent hg fun _ => trivial

/-- Nor the spine of a list. -/
theorem safe_buildSpine (host : Host) (n : ℕ) : Safe (buildSpine host n) :=
  (safe_buildBuffer _).bind fun _ => safe_modify fun _ => rfl

/-- Nor the list. -/
theorem safe_evalList (host : Host) (vals : List Value) : Safe (evalList host vals) :=
  (safe_charge _).bind fun _ => (safe_modify fun _ => rfl).bind fun _ => ReturnsUnless.pure _

/-- A local faults exactly if its slot does not exist, which the log records. -/
theorem safe_readLocal (slot : UInt16) : Safe (readLocal slot) := by
  refine ReturnsUnless.of_op fun f => ⟨_, rfl, ?_⟩
  simp only [readLocal, Operation.Faults, not_le]
  rcases h : f.locals[slot.toNat]? with _ | v
  · simpa using h
  · simpa using (List.getElem?_eq_some_iff.mp h).1

/-- So does storing one. -/
theorem safe_storeLocal (slot : UInt16) (v : Value) : Safe (storeLocal slot v) := by
  refine ReturnsUnless.of_op fun f => ?_
  unfold storeLocal
  split_ifs with h
  · exact ⟨_, rfl, by simpa [Operation.Faults] using h⟩
  · exact ⟨_, rfl, by simpa [Operation.Faults] using h⟩

/-! ### One node of the tree -/

/-- An operation is recorded, and then it is performed. -/
theorem safe_recorded {α : Type} {o : Operation} {m : Run α} (hlog : ∀ f, (m f).2.log = f.log)
    (hr : ∀ f, (m f).1.Returns ↔ ¬ o.Faults) : Safe (recorded o m) :=
  ReturnsUnless.of_op fun _ => ⟨o, hlog _, hr _⟩

/-- Negation is logged before it is done, so a fault is in the log. -/
theorem safe_evalNegate (v : Value) : Safe (evalNegate v) :=
  safe_recorded (fun _ => rfl) fun _ => negate_returns_iff v

/-- Paying for a result does not fault. -/
theorem safe_chargeResult (host : Host) (built : Bool) (v : Value) :
    Safe (chargeResult host built v) := by
  unfold chargeResult
  split_ifs
  · exact safe_chargeBuilt host v
  · exact safe_charge _

/-- An operation of two values is logged before it is done. -/
theorem safe_evalBin (host : Host) (op : BinOp) (x y : Value) : Safe (evalBin host op x y) :=
  (safe_recorded (fun _ => rfl) fun _ => numBinop_returns_iff op x y).bind fun r =>
    (safe_chargeResult host _ r).bind fun _ => ReturnsUnless.pure r

/-- So is a call. -/
theorem safe_evalCall (host : Host) (b : Builtin) (vals : List Value) :
    Safe (evalCall host b vals) :=
  (safe_recorded (fun _ => rfl) fun f =>
      dispatch_returns_iff host host.actuator b vals f.events).bind fun r =>
    (safe_chargeResult host _ r).bind fun _ => ReturnsUnless.pure r

/-- A name that the host does not know is an error, and no fault. -/
theorem safe_lookup (host : Host) (name : String) : Safe (liftEffect (lookup host name)) :=
  ReturnsUnless.of_silent (fun _ => rfl) fun f => by
    change (lookup host name f.events).1.Returns
    unfold lookup
    exact perform_returns (.lookup name) _ f.events

/-- The right operand of a Boolean operator is evaluated only when it decides. -/
theorem safe_bool {host : Host} {op : BoolOp} {b : Expr} (hb : Safe (eval host b)) (l : Value) :
    Safe (match op, asBool l with
      | .and, false => pure (.bool false)
      | .or, true => pure (.bool true)
      | _, _ => do
        let r ← eval host b
        pure (.bool (asBool r)) : Run Value) := by
  have hright : Safe (do let r ← eval host b; pure (.bool (asBool r)) : Run Value) :=
    hb.bind fun r => ReturnsUnless.pure _
  split
  · exact ReturnsUnless.pure _
  · exact ReturnsUnless.pure _
  · exact hright

mutual

/-- **The tree walk panics only at its operations.** -/
theorem safe_eval (host : Host) : ∀ e : Expr, Safe (eval host e)
  | .const v => (safe_tick host).bind fun _ => ReturnsUnless.pure v
  | .local i => (safe_tick host).bind fun _ => safe_readLocal i
  | .var name => (safe_tick host).bind fun _ => safe_lookup host name
  | .bin op a b => (safe_tick host).bind fun _ => (safe_eval host a).bind fun x =>
      (safe_eval host b).bind fun y => safe_evalBin host op x y
  | .cmp op a b => (safe_tick host).bind fun _ => (safe_eval host a).bind fun x =>
      (safe_eval host b).bind fun y => ReturnsUnless.lift (Outcome.returns_ofExcept _)
  | .bool op a b => (safe_tick host).bind fun _ => (safe_eval host a).bind fun l =>
      safe_bool (safe_eval host b) l
  | .unary op a => (safe_tick host).bind fun _ => (safe_eval host a).bind fun v => by
      cases op with
      | neg => exact safe_evalNegate v
      | not => exact ReturnsUnless.pure _
  | .index l i => (safe_tick host).bind fun _ => (safe_eval host l).bind fun list =>
      (safe_eval host i).bind fun idx => ReturnsUnless.lift (Outcome.returns_ofExcept _)
  | .ite c t e => (safe_tick host).bind fun _ => (safe_eval host c).bind fun b => by
      cases asBool b
      · exact safe_eval host e
      · exact safe_eval host t
  | .call b args => (safe_tick host).bind fun _ => (safe_evalArgs host args).bind fun vals =>
      safe_evalCall host b vals
  | .list items => (safe_tick host).bind fun _ => (safe_buildSpine host _).bind fun _ =>
      (safe_evalArgs host items).bind fun vals => safe_evalList host vals

/-- Arguments fault where one of them does. -/
theorem safe_evalArgs (host : Host) : ∀ es : List Expr, Safe (evalArgs host es)
  | [] => ReturnsUnless.pure []
  | e :: es => (safe_eval host e).bind fun _ => (safe_evalArgs host es).bind fun _ =>
      ReturnsUnless.pure _

end

/-- The bindings fault where one of them does. -/
theorem safe_runBody (host : Host) (bs : List LetBinding) : Safe (runBody host bs) := by
  induction bs with
  | nil => exact ReturnsUnless.pure ()
  | cons b bs ih =>
    exact (safe_eval host b.expr).bind fun v => (safe_storeLocal b.slot v).bind fun _ => ih

/-- **A run returns a value or an error exactly when none of the operations it
performs faults**, for every program, host and limits. -/
theorem runWith_returns_iff (host : Host) (p : Program) (maxSteps maxBytes : UInt32) :
    (runWith host p maxSteps maxBytes).1.Returns ↔
      ∀ o ∈ (runWith host p maxSteps maxBytes).2.log, ¬ o.Faults := by
  have hsafe : Safe (runProgram host p) :=
    (safe_runBody host p.body).bind fun _ => safe_eval host p.ret
  obtain ⟨l, hl, hr⟩ := hsafe (initialFrame p maxSteps maxBytes)
  rw [runWith, hr, hl]
  rfl

/-- The quotient of the least integer by minus one, written as a program. -/
theorem runWith_not_returns :
    ∃ p, Parse.parse "(0-9223372036854775807-1)/(0-1)" .python = .ok p ∧
      ¬ (runWith emptyHost p defaultMaxSteps 4294967295).1.Returns := by
  have h : ((Parse.parse "(0-9223372036854775807-1)/(0-1)" .python).toOption.any fun p =>
      decide ¬ (runWith emptyHost p defaultMaxSteps 4294967295).1.Returns) = true := by
    decide +kernel
  obtain ⟨p, hp, hnot⟩ := (Option.any_eq_true _ _).mp h
  exact ⟨p, Outcome.toOption_eq_some.mp hp, of_decide_eq_true hnot⟩

end Eval
