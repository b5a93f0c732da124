/-
# The evaluator

`eval` and `run_with` of `eval.rs`: a tree walk over an expression with a mutable
frame.  Every node costs a step of the budget, and every so many steps the
deadline is polled; heap values are charged against a byte budget after they are
built.

The frame has two ghost components.  `log` is the operations on operands, local slots
and buffers that the walk has performed, in order, with what each of them found;
`spines` is the bytes of the list spines that are built and not yet charged, because
their items are still evaluated.  No result depends on them; the theorems about runs
speak about the entries of the log.
-/
import PySpell.Builtins

open Text

/-- An operation that a run performs. -/
inductive Operation where
  /-- Read a slot, among so many locals. -/
  | read (slot : UInt16) (locals : ℕ)
  /-- Write a slot, among so many locals. -/
  | store (slot : UInt16) (locals : ℕ)
  | negate (v : Value)
  | bin (op : BinOp) (x y : Value)
  | call (b : Builtin) (vals : List Value)
  /-- Build a buffer of so many bytes, with so many left for it. -/
  | build (bytes left : ℕ)

/-- `Frame`. -/
structure Frame where
  locals : List Value
  budget : UInt32
  mem : UInt32
  sinceCheck : UInt32
  events : List Event
  log : List Operation
  spines : ℕ

/-- What is left of the budget, besides the spines that are still to be charged. -/
def Frame.left (f : Frame) : ℕ := f.mem.toNat - f.spines

/-- A computation of the evaluator. -/
abbrev Run (α : Type) := StateOutcome Frame DslError α

namespace Eval

/-- `DEADLINE_CHECK_INTERVAL`. -/
def deadlineCheckInterval : UInt32 := 256

/-! ## Steps -/

/-- Run an effect on the history of the frame. -/
def liftEffect {α : Type} (m : Effect α) : Run α := fun f =>
  ((m f.events).1, { f with events := (m f.events).2 })

def record (o : Operation) : Run Unit := .modify fun f => { f with log := f.log ++ [o] }

/-- Record an operation and perform it. -/
def recorded {α : Type} (o : Operation) (m : Run α) : Run α := do
  record o
  m

/-- Spend a step, and poll the deadline when it is time to. -/
def tick (host : Host) : Run Unit := fun f =>
  if f.budget = 0 then (.err .budget, f)
  else
    let f := { f with budget := f.budget - 1 }
    match host.deadline with
    | none => (.ok (), f)
    | some deadline =>
      let f := { f with sinceCheck := f.sinceCheck + 1 }
      if deadlineCheckInterval ≤ f.sinceCheck then
        let polled := { f with sinceCheck := 0, events := f.events ++ [.poll] }
        if deadline f.events then (.err .timeout, polled) else (.ok (), polled)
      else (.ok (), f)

/-- `Frame::charge`. -/
def charge (bytes : ℕ) : Run Unit := fun f =>
  let b := UInt32.ofNat (min bytes (2 ^ 32 - 1))
  if f.mem < b then (.err .memoryLimit, f) else (.ok (), { f with mem := f.mem - b })

/-- The bytes of a heap value: those of a string, or the spine of a list. -/
def valueBytes (host : Host) : Value → ℕ
  | .str s => (utf8 s).length
  | .list l => l.length * host.sizeOfValue
  | _ => 0

/-- `Frame::charge_value`. -/
def chargeValue (host : Host) (v : Value) : Run Unit := charge (valueBytes host v)

/-- A buffer of so many bytes is built. -/
def buildBuffer (bytes : ℕ) : Run Unit := fun f =>
  record (.build bytes f.left) f

/-- A value that was built is charged afterwards. -/
def chargeBuilt (host : Host) (v : Value) : Run Unit := do
  buildBuffer (valueBytes host v)
  chargeValue host v

/-- Charge a result, which may have been there before. -/
def chargeResult (host : Host) (built : Bool) (v : Value) : Run Unit :=
  if built then chargeBuilt host v else chargeValue host v

/-- `f.locals[i]`. -/
def readLocal (slot : UInt16) : Run Value := fun f =>
  (.unwrap f.locals[slot.toNat]?, { f with log := f.log ++ [.read slot f.locals.length] })

/-- `f.locals[i] = v`. -/
def storeLocal (slot : UInt16) (v : Value) : Run Unit := fun f =>
  let log := f.log ++ [.store slot f.locals.length]
  if slot.toNat < f.locals.length then
    (.ok (), { f with locals := f.locals.set slot.toNat v, log := log })
  else (.panic, { f with log := log })

/-- A free name, from the environment of the host. -/
def lookup (host : Host) (name : String) : Effect Value :=
  perform (.lookup name) fun events =>
    match host.env events name with
    | some v => .ok v
    | none => .error (.unknownName name)

def evalNegate (v : Value) : Run Value := recorded (.negate v) (.lift (negate v))

/-- A binary operator; a concatenation builds its result. -/
def evalBin (host : Host) (op : BinOp) (x y : Value) : Run Value := do
  let r ← recorded (.bin op x y) (.lift (numBinop op x y))
  chargeResult host (isStr r) r
  pure r

/-- The builtins that build the value they return. -/
def buildsResult (b : Builtin) (vals : List Value) : Bool :=
  match b with
  | .str | .upper | .lower | .reverse | .fetch => true
  | .print => vals.length ≠ 1
  | _ => false

/-- The call of a builtin on evaluated arguments. -/
def evalCall (host : Host) (b : Builtin) (vals : List Value) : Run Value := do
  let r ← recorded (.call b vals) (liftEffect (dispatch host host.actuator b vals))
  chargeResult host (buildsResult b vals) r
  pure r

/-- `Vec::with_capacity`: a list literal builds its spine before the first item. -/
def buildSpine (host : Host) (n : ℕ) : Run Unit := do
  buildBuffer (n * host.sizeOfValue)
  .modify fun f => { f with spines := f.spines + n * host.sizeOfValue }

/-- A list literal whose items are there: its spine is charged. -/
def evalList (host : Host) (items : List Value) : Run Value := do
  chargeValue host (.list items)
  .modify fun f => { f with spines := f.spines - items.length * host.sizeOfValue }
  pure (.list items)

/-! ## The tree walk -/

mutual

/-- `eval`. -/
def eval (host : Host) : Expr → Run Value
  | .const v => do
    tick host
    pure v
  | .local i => do
    tick host
    readLocal i
  | .var name => do
    tick host
    liftEffect (lookup host name)
  | .bin op a b => do
    tick host
    let x ← eval host a
    let y ← eval host b
    evalBin host op x y
  | .cmp op a b => do
    tick host
    let x ← eval host a
    let y ← eval host b
    StateOutcome.lift (.ofExcept ((compare op x y).map .bool))
  | .bool op a b => do
    tick host
    let l ← eval host a
    match op, asBool l with
    | .and, false => pure (.bool false)
    | .or, true => pure (.bool true)
    | _, _ => do
      let r ← eval host b
      pure (.bool (asBool r))
  | .unary op a => do
    tick host
    let v ← eval host a
    match op with
    | .neg => evalNegate v
    | .not => pure (.bool (!asBool v))
  | .index l i => do
    tick host
    let list ← eval host l
    let idx ← eval host i
    StateOutcome.lift (.ofExcept (index list idx))
  | .ite c t e => do
    tick host
    let b ← eval host c
    match asBool b with
    | true => eval host t
    | false => eval host e
  | .call b args => do
    tick host
    let vals ← evalArgs host args
    evalCall host b vals
  | .list items => do
    tick host
    buildSpine host items.length
    let vals ← evalArgs host items
    evalList host vals

/-- Arguments and items, from left to right. -/
def evalArgs (host : Host) : List Expr → Run (List Value)
  | [] => pure []
  | e :: es => do
    let v ← eval host e
    let vs ← evalArgs host es
    pure (v :: vs)

end

/-- The bindings of a program, in order. -/
def runBody (host : Host) : List LetBinding → Run Unit
  | [] => pure ()
  | b :: bs => do
    let v ← eval host b.expr
    storeLocal b.slot v
    runBody host bs

/-- The bindings and the return expression. -/
def runProgram (host : Host) (p : Program) : Run Value := do
  runBody host p.body
  eval host p.ret

/-- The frame in which a run starts. -/
def initialFrame (p : Program) (maxSteps maxBytes : UInt32) : Frame where
  locals := List.replicate p.nLocals.toNat (.int 0)
  budget := maxSteps
  mem := maxBytes
  sinceCheck := 0
  events := []
  log := []
  spines := 0

/-- `run_with`: the result and the final frame. -/
def runWith (host : Host) (p : Program) (maxSteps maxBytes : UInt32) :
    Outcome DslError Value × Frame :=
  runProgram host p (initialFrame p maxSteps maxBytes)

/-- A host without capabilities and an empty environment, on a 64-bit machine. -/
def emptyHost : Host where
  env := fun _ _ => none
  net := none
  display := none
  actuator := none
  deadline := none
  toUppercase := fun s => s.map Char.toUpper
  toLowercase := fun s => s.map Char.toLower
  sizeOfValue := 24

end Eval
