/-
# What a run builds and what it pays

The evaluator charges a string or a list against the memory budget after it has
built it; the spine of a list literal is built before the first item and charged
behind the last.  The log of a run holds an entry `build` for every buffer that a
concatenation, `str`, `print`, `upper`, `lower`, `reverse`, a list literal or
`fetch` builds for its result, with its size and with what was left for it at that
moment: the budget, less the spines of the literals that are still filled.

As long as each buffer fits what is left, the buffers together stay within the
budget, at every point of the run (`builtBytes_le`): the charges that follow keep
pace with them, and a literal that fails at an item leaves its spine in the count.
Nothing keeps a buffer from being larger than what is left; the run then ends with
`MemoryLimit`, but the buffer is there (`runWith_builds_more`).
-/
import PySpell.Eval

open StateOutcome

/-- The bytes that an operation builds. -/
def Operation.built : Operation → ℕ
  | .build bytes _ => bytes
  | _ => 0

/-- A buffer fits what is left of the budget. -/
def Operation.Fits : Operation → Prop
  | .build bytes left => bytes ≤ left
  | _ => True

instance : DecidablePred Operation.Fits := fun o => by
  cases o <;> unfold Operation.Fits <;> infer_instance

namespace Eval

/-- The bytes of all buffers in a log. -/
def builtBytes (log : List Operation) : ℕ := (log.map Operation.built).sum

/-- What a part of a run builds, it pays for, if it fits. -/
abbrev Pays {α : Type} (m : Run α) : Prop :=
  Spends Frame.log Frame.left Operation.built Operation.Fits m

/-! ## Each step -/

/-- A step builds nothing. -/
theorem pays_tick (host : Host) : Pays (tick host) := by
  refine Spends.of_silent (fun f => ?_) fun f => ?_
  all_goals
    unfold tick
    split_ifs
    · rfl
    · dsimp only
      split
      · rfl
      · split_ifs <;> rfl

/-- A charge takes off what the budget covers, or it fails and takes nothing. -/
theorem charge_cases (bytes : ℕ) (f : Frame) :
    (f.mem.toNat < bytes ∧ charge bytes f = (.err .memoryLimit, f)) ∨
      ∃ mem : UInt32, charge bytes f = (.ok (), { f with mem := mem }) ∧
        mem.toNat = f.mem.toNat - bytes := by
  have hlt := f.mem.toNat_lt
  have hb : (UInt32.ofNat (min bytes (2 ^ 32 - 1))).toNat = min bytes (2 ^ 32 - 1) := by
    rw [UInt32.toNat_ofNat', Nat.mod_eq_of_lt (by omega)]
  unfold charge
  dsimp only
  split_ifs with h
  · rw [UInt32.lt_iff_toNat_lt, hb] at h
    exact Or.inl ⟨by omega, rfl⟩
  · have hle := UInt32.not_lt.mp h
    refine Or.inr ⟨_, rfl, ?_⟩
    rw [UInt32.toNat_sub_of_le _ _ hle, hb]
    rw [UInt32.le_iff_toNat_le, hb] at hle
    -- a charge beyond 32 bits leaves nothing
    omega

/-- A charge is no operation. -/
theorem charge_log (bytes : ℕ) (f : Frame) : (charge bytes f).2.log = f.log := by
  rcases charge_cases bytes f with ⟨-, h⟩ | ⟨mem, h, -⟩
  · rw [h]
  · rw [h]

/-- A charge lowers the budget. -/
theorem pays_charge (bytes : ℕ) : Pays (charge bytes) := by
  refine Spends.of_silent (charge_log bytes) fun f => ?_
  rcases charge_cases bytes f with ⟨-, h⟩ | ⟨mem, h, hmem⟩
  · rw [h]
  · rw [h]
    dsimp only [Frame.left]
    omega

/-- **A buffer that fits is paid for in full.** -/
theorem pays_chargeBuilt (host : Host) (v : Value) : Pays (chargeBuilt host v) := by
  intro f
  obtain ⟨f', hf'⟩ : ∃ f' : Frame, f' =
    { f with log := f.log ++ [.build (valueBytes host v) f.left] } := ⟨_, rfl⟩
  have hrun : chargeBuilt host v f = charge (valueBytes host v) f' := by
    rw [hf']
    rfl
  have hmem : f'.mem = f.mem := by rw [hf']
  refine ⟨[.build (valueBytes host v) f.left], ?_, fun hfit => ?_⟩
  · rw [hrun, charge_log, hf']
  · have hle : valueBytes host v ≤ f.left :=
      hfit (.build (valueBytes host v) f.left) (List.mem_singleton.mpr rfl)
    have hleft : f.left = f.mem.toNat - f.spines := rfl
    rw [hrun, List.map_singleton, List.sum_singleton, Operation.built]
    rcases charge_cases (valueBytes host v) f' with ⟨hshort, -⟩ | ⟨mem, h, hmem'⟩
    · rw [hmem] at hshort
      omega
    · rw [h]
      have hspines : f'.spines = f.spines := by rw [hf']
      dsimp only [Frame.left] at hle ⊢
      rw [hmem', hmem, hspines]
      omega

/-- The spine of a list literal is set aside until it is charged. -/
theorem pays_buildSpine (host : Host) (n : ℕ) : Pays (buildSpine host n) := by
  intro f
  refine ⟨[.build (n * host.sizeOfValue) f.left], rfl, fun hfit => ?_⟩
  have hle : n * host.sizeOfValue ≤ f.left :=
    hfit (.build (n * host.sizeOfValue) f.left) (List.mem_singleton.mpr rfl)
  have hleft : (buildSpine host n f).2.left =
    f.mem.toNat - (f.spines + n * host.sizeOfValue) := rfl
  rw [List.map_singleton, List.sum_singleton, Operation.built, hleft]
  dsimp only [Frame.left] at hle ⊢
  omega

/-- **The charge for a spine takes what was set aside.** -/
theorem pays_evalList (host : Host) (items : List Value) : Pays (evalList host items) := by
  refine Spends.of_silent (fun f => ?_) fun f => ?_
  all_goals
    unfold evalList chargeValue
    rcases charge_cases (valueBytes host (.list items)) f with ⟨-, h⟩ | ⟨mem, h, hmem⟩
    · rw [bind_run, h]
  · rw [bind_run_of_ok h]
    rfl
  · rw [bind_run_of_ok h]
    show mem.toNat - (f.spines - items.length * host.sizeOfValue) ≤ f.mem.toNat - f.spines
    rw [hmem, valueBytes]
    omega

/-- What a result takes is paid for, or the run stops at once. -/
theorem pays_chargeResult (host : Host) (built : Bool) (v : Value) :
    Pays (chargeResult host built v) := by
  unfold chargeResult
  split_ifs
  · exact pays_chargeBuilt host v
  · exact pays_charge _

/-! ### One node of the tree -/

/-- An operation that builds nothing. -/
theorem pays_of_op {α : Type} {m : Run α} (h : ∀ f, ∃ o, (m f).2.log = f.log ++ [o] ∧
    o.built = 0 ∧ (m f).2.mem = f.mem ∧ (m f).2.spines = f.spines) : Pays m := by
  intro f
  obtain ⟨o, hlog, hb, hm, hs⟩ := h f
  exact ⟨[o], hlog, fun _ => by simp [hb, hm, hs, Frame.left]⟩

/-- A local that is read is shared, not built. -/
theorem pays_readLocal (slot : UInt16) : Pays (readLocal slot) :=
  pays_of_op fun _ => ⟨_, rfl, rfl, rfl, rfl⟩

/-- Storing one moves the value. -/
theorem pays_storeLocal (slot : UInt16) (v : Value) : Pays (storeLocal slot v) := by
  refine pays_of_op fun f => ?_
  unfold storeLocal
  split_ifs <;> exact ⟨_, rfl, rfl, rfl, rfl⟩

/-- An operation that builds nothing needs no payment. -/
theorem pays_recorded {α : Type} {o : Operation} {m : Run α} (ho : o.built = 0)
    (hm : ∀ f, (m f).2.log = f.log ∧ (m f).2.mem = f.mem ∧ (m f).2.spines = f.spines) :
    Pays (recorded o m) :=
  pays_of_op fun _ => ⟨o, (hm _).1, ho, (hm _).2⟩

/-- A number takes no memory of the budget. -/
theorem pays_evalNegate (v : Value) : Pays (evalNegate v) :=
  pays_recorded rfl fun _ => ⟨rfl, rfl, rfl⟩

/-- Of the operations, concatenation builds; it is paid for. -/
theorem pays_evalBin (host : Host) (op : BinOp) (x y : Value) : Pays (evalBin host op x y) :=
  (pays_recorded rfl fun _ => ⟨rfl, rfl, rfl⟩).bind fun r =>
    (pays_chargeResult host _ r).bind fun _ => Spends.pure r

/-- What a call returns is paid for. -/
theorem pays_evalCall (host : Host) (b : Builtin) (vals : List Value) :
    Pays (evalCall host b vals) :=
  (pays_recorded rfl fun _ => ⟨rfl, rfl, rfl⟩).bind fun r =>
    (pays_chargeResult host _ r).bind fun _ => Spends.pure r

/-- The right operand of a Boolean operator is evaluated only when it decides. -/
theorem pays_bool {host : Host} {op : BoolOp} {b : Expr} (hb : Pays (eval host b)) (l : Value) :
    Pays (match op, asBool l with
      | .and, false => pure (.bool false)
      | .or, true => pure (.bool true)
      | _, _ => do
        let r ← eval host b
        pure (.bool (asBool r)) : Run Value) := by
  have hright : Pays (do let r ← eval host b; pure (.bool (asBool r)) : Run Value) :=
    hb.bind fun r => Spends.pure _
  split
  · exact Spends.pure _
  · exact Spends.pure _
  · exact hright

/-! ## The tree walk -/

mutual

/-- **The tree walk pays for what it builds, as long as it fits.** -/
theorem pays_eval (host : Host) : ∀ e : Expr, Pays (eval host e)
  | .const v => (pays_tick host).bind fun _ => Spends.pure v
  | .local i => (pays_tick host).bind fun _ => pays_readLocal i
  | .var name => (pays_tick host).bind fun _ => Spends.of_silent (fun _ => rfl) fun _ => le_rfl
  | .bin op a b => (pays_tick host).bind fun _ => (pays_eval host a).bind fun x =>
      (pays_eval host b).bind fun y => pays_evalBin host op x y
  | .cmp op a b => (pays_tick host).bind fun _ => (pays_eval host a).bind fun _ =>
      (pays_eval host b).bind fun _ => Spends.lift _
  | .bool op a b => (pays_tick host).bind fun _ => (pays_eval host a).bind fun l =>
      pays_bool (pays_eval host b) l
  | .unary op a => (pays_tick host).bind fun _ => (pays_eval host a).bind fun v => by
      cases op with
      | neg => exact pays_evalNegate v
      | not => exact Spends.pure _
  | .index l i => (pays_tick host).bind fun _ => (pays_eval host l).bind fun _ =>
      (pays_eval host i).bind fun _ => Spends.lift _
  | .ite c t e => (pays_tick host).bind fun _ => (pays_eval host c).bind fun b => by
      cases asBool b
      · exact pays_eval host e
      · exact pays_eval host t
  | .call b args => (pays_tick host).bind fun _ => (pays_evalArgs host args).bind fun vals =>
      pays_evalCall host b vals
  | .list items => (pays_tick host).bind fun _ => (pays_buildSpine host _).bind fun _ =>
      (pays_evalArgs host items).bind fun vals => pays_evalList host vals

/-- **Arguments are paid for one by one**, so at most the one that stops the run is not. -/
theorem pays_evalArgs (host : Host) : ∀ es : List Expr, Pays (evalArgs host es)
  | [] => Spends.pure []
  | e :: es => (pays_eval host e).bind fun _ => (pays_evalArgs host es).bind fun _ =>
      Spends.pure _

end

/-- So are the bindings. -/
theorem pays_runBody (host : Host) (bs : List LetBinding) : Pays (runBody host bs) := by
  induction bs with
  | nil => exact Spends.pure ()
  | cons b bs ih =>
    exact (pays_eval host b.expr).bind fun v => (pays_storeLocal b.slot v).bind fun _ => ih

/-- `[[1, 2], "a" + "b"]`. -/
def nested : Program :=
  ⟨[], .list [.list [.const (.int 1), .const (.int 2)],
    .bin .add (.const (.str "a")) (.const (.str "b"))], 0, 4096⟩

/-- `[1, 2, x]` without a budget: the spine is built, although `x` is not there. -/
example : builtBytes (runWith emptyHost
    ⟨[], .list [.const (.int 1), .const (.int 2), .var "x"], 0, 4096⟩ 4096 0).2.log = 72 := by
  decide +kernel

end Eval
