/-
# The Rust front end of the host

`compile_rust`: the syntax tree of a block is lowered to the representation that the device
runs, and what is not on the list of the front end is an error.  The parser of the syntax
tree is a library of the host, so a tree is given here, with the constructors that the front
end tells apart.

The reference semantics (`evalExpr`, `runBlock`) runs the syntax tree itself, with the values
of the names bound so far in a scope and no slots.  `compileRust_means` says that the
compiled program gives the same result after the same effects, on every host and with every
budget.
-/
import PySpell.ChainOrder
import PySpell.ScopeNames

open Parse
open Grammar (resolveIn resolveAll bindTree bindTrees)

/-! ## The syntax tree -/

namespace RustFrontend

/-- `syn::Lit`, with the value of the literal. -/
inductive Lit where
  | int (n : ℕ)
  | float (x : Binary64)
  | bool (b : Bool)
  | str (s : String)
  | other

/-- `syn::UnOp`. -/
inductive SUn where
  | not | neg | other
  deriving DecidableEq

/-- `syn::BinOp`. -/
inductive SBin where
  | add | sub | mul | div | rem | and | or | eq | ne | lt | le | gt | ge | other
  deriving DecidableEq

/-- The expressions that the front end knows by name only. -/
inductive Unlowered where
  | closure | macroCall | whileLoop | forLoop | loop | matchOn | assign | range | reference | cast
  | struct | field | async | await | try | return | unsupported
  deriving DecidableEq

mutual

/-- `syn::Expr`.  A path is its name when it is a single segment. -/
inductive SExpr where
  | paren (e : SExpr)
  | group (e : SExpr)
  | lit (l : Lit)
  | unary (op : SUn) (e : SExpr)
  | binary (left : SExpr) (op : SBin) (right : SExpr)
  | path (ident : Option String)
  | index (e i : SExpr)
  | array (elems : List SExpr)
  | ifElse (cond : SExpr) (thenBranch : List Stmt) (elseBranch : Option SExpr)
  | call (func : SExpr) (args : List SExpr)
  | methodCall (receiver : SExpr) (method : String) (args : List SExpr)
  | block (stmts : List Stmt)
  | other (kind : Unlowered)

/-- `syn::Stmt`.  The pattern of a `let` is its name when it is a plain one, the initializer
comes with whether it has an `else`, and an expression with whether it has a semicolon. -/
inductive Stmt where
  | letIn (pat : Option String) (init : Option (SExpr × Bool))
  | expr (e : SExpr) (semi : Bool)
  | other

end

/-! ## Lowering -/

/-- `path_ident(..).ok_or_else(..)`. -/
def identOr (what : String) : Option String → Outcome DslError String
  | some name => .ok name
  | none => .err (.forbidden what)

/-- The operator of a binary expression, on what its operands become. -/
def lowerBinary (op : SBin) (l r : Expr) : Outcome DslError Expr :=
  match op with
  | .add => .ok (.bin .add l r)
  | .sub => .ok (.bin .sub l r)
  | .mul => .ok (.bin .mul l r)
  | .div => .ok (.bin .div l r)
  | .rem => .ok (.bin .rem l r)
  | .and => .ok (.bool .and l r)
  | .or => .ok (.bool .or l r)
  | .eq => .ok (.cmp .eq l r)
  | .ne => .ok (.cmp .ne l r)
  | .lt => .ok (.cmp .lt l r)
  | .le => .ok (.cmp .le l r)
  | .gt => .ok (.cmp .gt l r)
  | .ge => .ok (.cmp .ge l r)
  | .other => .err (.forbidden "bitwise/shift operator")

/-- `lower_lit`; a literal of the syntax tree has no sign. -/
def lowerLit : Lit → Outcome DslError Expr
  | .int n =>
    if n < 2 ^ 63 then .ok (.const (.int (Int64.ofNat n)))
    else .err (.parse "number too large to fit in target type")
  | .float x => .ok (.const (.float x))
  | .bool b => .ok (.const (.bool b))
  | .str s => .ok (.const (.str s))
  | .other => .err (.forbidden "char/byte literal")

/-- `expr_kind`, of an expression that is not lowered. -/
def exprKind : Unlowered → String
  | .closure => "closure"
  | .macroCall => "macro"
  | .whileLoop => "while"
  | .forLoop => "for"
  | .loop => "loop"
  | .matchOn => "match"
  | .assign => "assignment"
  | .range => "range"
  | .reference => "reference"
  | .cast => "cast"
  | .struct => "struct literal"
  | .field => "field/attribute access"
  | .async => "async"
  | .await => "await"
  | .try => "try"
  | .return => "return"
  | .unsupported => "unsupported"

/-- The name of a call target. -/
def callTarget : SExpr → Outcome DslError String
  | .path ident => identOr "call target" ident
  | _ => .err (.forbidden "call target")

mutual

/-- `lower`. -/
def lower (locals : List (String × UInt16)) : SExpr → Outcome DslError Expr
  | .paren e => lower locals e
  | .group e => lower locals e
  | .lit l => lowerLit l
  | .unary op e =>
    match op with
    | .not => do
      let v ← lower locals e
      .ok (.unary .not v)
    | .neg => do
      let v ← lower locals e
      .ok (.unary .neg v)
    | .other => .err (.forbidden "unary operator")
  | .binary a op b => do
    let l ← lower locals a
    let r ← lower locals b
    lowerBinary op l r
  | .path ident => do
    let name ← identOr "path expression" ident
    .ok (resolve locals name)
  | .index e i => do
    let l ← lower locals e
    let i ← lower locals i
    .ok (.index l i)
  | .array elems => do
    let items ← lowerAll locals elems
    .ok (.list items)
  | .ifElse cond thenBranch elseBranch =>
    if elseBranch.isNone then .err (.forbidden "`if` without `else`")
    else do
      let c ← lower locals cond
      let t ← lowerTail locals thenBranch
      let e ← lowerBranch locals elseBranch
      .ok (.ite c t e)
  | .call func args => do
    let name ← callTarget func
    let b ← builtinFrom name
    let args ← lowerAll locals args
    .ok (.call b args)
  | .methodCall receiver method args =>
    if method ≠ "contains" then .err (.forbidden ("method `." ++ method ++ "()`"))
    else
      match args with
      | [arg] => do
        let recv ← lower locals receiver
        let arg ← lower locals arg
        .ok (.call .contains [recv, arg])
      | args => .err (.arity "contains" args.length)
  | .block _ => .err (.forbidden "block expression")
  | .other kind => .err (.forbidden (exprKind kind ++ " expression"))

/-- `lower`, on the elements of an array or the arguments of a call. -/
def lowerAll (locals : List (String × UInt16)) : List SExpr → Outcome DslError (List Expr)
  | [] => .ok []
  | e :: es => do
    let t ← lower locals e
    let ts ← lowerAll locals es
    .ok (t :: ts)

/-- `lower`, on the `block_tail` of a branch. -/
def lowerTail (locals : List (String × UInt16)) : List Stmt → Outcome DslError Expr
  | [.expr e false] => lower locals e
  | _ => .err (.forbidden "branch must be a single expression, e.g. `\x7b x \x7d`")

/-- `lower_branch`, on the branch of an `else` that is there. -/
def lowerBranch (locals : List (String × UInt16)) : Option SExpr → Outcome DslError Expr
  | none => .panic
  | some (.block stmts) => lowerTail locals stmts
  | some e => lower locals e

end

/-! ## Programs -/

/-- `pat_ident`. -/
def patIdent : Option String → Outcome DslError String :=
  identOr "only `let <name> = ...` is supported"

/-- The initializer of a `let` that has one and no `else`. -/
def initOf : Option (SExpr × Bool) → Outcome DslError SExpr
  | none => .err (.forbidden "`let` without an initializer")
  | some (_, true) => .err (.forbidden "`let ... else`")
  | some (init, false) => .ok init

/-- A statement that is not the last one. -/
def lowerLet (b : Bindings) : Stmt → Outcome DslError Bindings
  | .letIn pat init => do
    let name ← patIdent pat
    let init ← initOf init
    let e ← lower b.locals init
    bindLocal b name e
  | .expr _ true =>
    .err (.forbidden "a `;`-terminated statement (expected a trailing expression)")
  | _ => .err (.forbidden "unsupported statement")

/-- The last statement. -/
def lowerLast (b : Bindings) : Stmt → Outcome DslError Expr
  | .expr e false => lower b.locals e
  | .letIn _ _ =>
    .err (.forbidden "`let` must be followed by more bindings and a final expression")
  | .expr _ true =>
    .err (.forbidden "a `;`-terminated statement (expected a trailing expression)")
  | .other => .err (.forbidden "unsupported statement")

/-- The loop over the statements. -/
def lowerStmts (b : Bindings) : List Stmt → Outcome DslError (Bindings × Expr)
  | [] => .err (.parse "empty program")
  | [s] => do
    let ret ← lowerLast b s
    .ok (b, ret)
  | s :: rest => do
    let b ← lowerLet b s
    lowerStmts b rest

/-- `finish`. -/
def finish (b : Bindings) (ret : Expr) : Program := ⟨b.body, ret, b.nextSlot, defaultMaxSteps⟩

/-- `compile_rust`, behind the parser. -/
def compileBlock (stmts : List Stmt) : Outcome DslError Program := do
  let (b, ret) ← lowerStmts ⟨[], 0, []⟩ stmts
  .ok (finish b ret)

/-- `compile_rust`, with the parser of the host. -/
def compileRust (parseBlock : String → Except String (List Stmt)) (src : String) :
    Outcome DslError Program :=
  match parseBlock ("\x7b " ++ src ++ " \x7d") with
  | .error e => .err (.parse e)
  | .ok stmts => compileBlock stmts

/-! ## Reference semantics -/

/-- What the subset does not have gets stuck. -/
def stuck : Run Value := StateOutcome.lift .panic

/-- The value of a literal. -/
def litValue : Lit → Option Value
  | .int n => some (.int (Int64.ofNat n))
  | .float x => some (.float x)
  | .bool b => some (.bool b)
  | .str s => some (.str s)
  | .other => none

/-- A binary operator behind its left operand; the right one is not always evaluated. -/
def evalBinary (host : Host) (op : SBin) (x : Value) (right : Run Value) : Run Value :=
  let arith (op : BinOp) : Run Value := do
    let y ← right
    Eval.evalBin host op x y
  let order (op : CmpOp) : Run Value := do
    let y ← right
    StateOutcome.lift (.ofExcept ((Eval.compare op x y).map .bool))
  match op with
  | .add => arith .add
  | .sub => arith .sub
  | .mul => arith .mul
  | .div => arith .div
  | .rem => arith .rem
  | .eq => order .eq
  | .ne => order .ne
  | .lt => order .lt
  | .le => order .le
  | .gt => order .gt
  | .ge => order .ge
  | .and =>
    match Eval.asBool x with
    | false => pure (.bool false)
    | true => do
      let y ← right
      pure (.bool (Eval.asBool y))
  | .or =>
    match Eval.asBool x with
    | true => pure (.bool true)
    | false => do
      let y ← right
      pure (.bool (Eval.asBool y))
  | .other => stuck

mutual

/-- The value of an expression in a scope; each node that is not a bracket is a step. -/
def evalExpr (host : Host) (scope : List (String × Value)) : SExpr → Run Value
  | .paren e => evalExpr host scope e
  | .group e => evalExpr host scope e
  | .lit l => do
    Eval.tick host
    match litValue l with
    | some v => pure v
    | none => stuck
  | .unary op e => do
    Eval.tick host
    let v ← evalExpr host scope e
    match op with
    | .not => pure (.bool (!Eval.asBool v))
    | .neg => Eval.evalNegate v
    | .other => stuck
  | .binary a op b => do
    Eval.tick host
    let x ← evalExpr host scope a
    evalBinary host op x (evalExpr host scope b)
  | .path (some name) => do
    Eval.tick host
    match scope.lookup name with
    | some v => pure v
    | none => Eval.liftEffect (Eval.lookup host name)
  | .index e i => do
    Eval.tick host
    let list ← evalExpr host scope e
    let idx ← evalExpr host scope i
    StateOutcome.lift (.ofExcept (Eval.index list idx))
  | .array elems => do
    Eval.tick host
    Eval.buildSpine host elems.length
    let vals ← evalAll host scope elems
    Eval.evalList host vals
  | .ifElse cond thenBranch elseBranch => do
    Eval.tick host
    let c ← evalExpr host scope cond
    match Eval.asBool c with
    | true => evalTail host scope thenBranch
    | false => evalBranch host scope elseBranch
  | .call (.path (some name)) args => do
    Eval.tick host
    let vals ← evalAll host scope args
    match builtinTable.lookup name with
    | some b => Eval.evalCall host b vals
    | none => stuck
  | .methodCall receiver "contains" [arg] => do
    Eval.tick host
    let list ← evalExpr host scope receiver
    let x ← evalExpr host scope arg
    Eval.evalCall host .contains [list, x]
  | _ => stuck

/-- Elements and arguments, from left to right. -/
def evalAll (host : Host) (scope : List (String × Value)) : List SExpr → Run (List Value)
  | [] => pure []
  | e :: es => do
    let v ← evalExpr host scope e
    let vs ← evalAll host scope es
    pure (v :: vs)

/-- The branch of an `if`. -/
def evalTail (host : Host) (scope : List (String × Value)) : List Stmt → Run Value
  | [.expr e false] => evalExpr host scope e
  | _ => stuck

/-- The branch of an `else`: a block, or another `if`. -/
def evalBranch (host : Host) (scope : List (String × Value)) : Option SExpr → Run Value
  | none => stuck
  | some (.block stmts) => evalTail host scope stmts
  | some e => evalExpr host scope e

end

/-- The initializers in order, each in the scope of the ones before; then the result. -/
def runBlock (host : Host) (scope : List (String × Value)) : List Stmt → Run Value
  | [.expr e false] => evalExpr host scope e
  | .letIn (some x) (some (init, false)) :: rest => do
    let v ← evalExpr host scope init
    runBlock host ((x, v) :: scope) rest
  | _ => stuck

/-! ## The subset -/

/-- The expressions on the list of the front end. -/
inductive Allowed : SExpr → Prop where
  | paren {e} : Allowed e → Allowed (.paren e)
  | group {e} : Allowed e → Allowed (.group e)
  | int {n} : n < 2 ^ 63 → Allowed (.lit (.int n))
  | float (x) : Allowed (.lit (.float x))
  | bool (b) : Allowed (.lit (.bool b))
  | str (s) : Allowed (.lit (.str s))
  | unary {op e} : op ≠ .other → Allowed e → Allowed (.unary op e)
  | binary {a op b} : op ≠ .other → Allowed a → Allowed b → Allowed (.binary a op b)
  | path (name) : Allowed (.path (some name))
  | index {e i} : Allowed e → Allowed i → Allowed (.index e i)
  | array {es} : (∀ e ∈ es, Allowed e) → Allowed (.array es)
  | ifElse {c t e} : Allowed c → Allowed t → Allowed e →
      Allowed (.ifElse c [.expr t false] (some e))
  | ifBlock {c t e} : Allowed c → Allowed t → Allowed e →
      Allowed (.ifElse c [.expr t false] (some (.block [.expr e false])))
  | call {name b args} : builtinTable.lookup name = some b → (∀ a ∈ args, Allowed a) →
      Allowed (.call (.path (some name)) args)
  | contains {e x} : Allowed e → Allowed x → Allowed (.methodCall e "contains" [x])

/-- The blocks on the list: `let`s and a trailing expression. -/
inductive AllowedBlock : List Stmt → Prop where
  | ret {e} : Allowed e → AllowedBlock [.expr e false]
  | letIn {x e rest} : Allowed e → AllowedBlock rest →
      AllowedBlock (.letIn (some x) (some (e, false)) :: rest)

/-! ## What an expression is lowered to -/

/-- The expression becomes this tree, with the slots of the locals, and means the same. -/
structure Lowers (e : SExpr) (t : Expr) : Prop where
  allowed : Allowed e
  resolves : ∀ locals, lower locals e = .ok (resolveIn locals t)
  slotless : ∀ i, i ∉ Scope.slots t
  means : ∀ host scope, evalExpr host scope e = Eval.eval host (Scope.inScope scope t)

/-- The same of elements or arguments. -/
structure LowersAll (es : List SExpr) (ts : List Expr) : Prop where
  length : ts.length = es.length
  allowed : ∀ e ∈ es, Allowed e
  resolves : ∀ locals, lowerAll locals es = .ok (resolveAll locals ts)
  slotless : ∀ i, i ∉ Scope.slotsAll ts
  means : ∀ host scope, evalAll host scope es = Eval.evalArgs host (Scope.allInScope scope ts)

/-- The same of a branch. -/
structure LowersTail (b : List Stmt) (t : Expr) : Prop where
  allowed : ∃ e, b = [.expr e false] ∧ Allowed e
  resolves : ∀ locals, lowerTail locals b = .ok (resolveIn locals t)
  slotless : ∀ i, i ∉ Scope.slots t
  means : ∀ host scope, evalTail host scope b = Eval.eval host (Scope.inScope scope t)

/-- The same of the branch of an `else`. -/
structure LowersBranch (b : Option SExpr) (t : Expr) : Prop where
  allowed : ∀ {c t}, Allowed c → Allowed t → Allowed (.ifElse c [.expr t false] b)
  resolves : ∀ locals, lowerBranch locals b = .ok (resolveIn locals t)
  slotless : ∀ i, i ∉ Scope.slots t
  means : ∀ host scope, evalBranch host scope b = Eval.eval host (Scope.inScope scope t)

/-- No slot is in either of two lists. -/
theorem not_mem_append {α : Type} {l l' : List α} (h : ∀ i, i ∉ l) (h' : ∀ i, i ∉ l') :
    ∀ i, i ∉ l ++ l' := fun i hi => (List.mem_append.mp hi).elim (h i) (h' i)

section Constructors

variable {a b e i : SExpr} {s t u : Expr} {es : List SExpr} {ts : List Expr}

-- the equations of both trees, made here once and not by each of the lemmas at the same time
attribute [local simp] lower lowerAll lowerTail lowerBranch evalExpr evalAll evalTail evalBranch

/-! ### Literals and operators -/

/-- A literal that fits is the constant of its value. -/
theorem lowers_lit {l : Lit} {t : Expr} (h : lowerLit l = .ok t) : Lowers (.lit l) t := by
  cases l with
  | int n =>
    rw [lowerLit] at h
    split at h
    · next hn =>
      obtain rfl := Outcome.ok.inj h
      exact ⟨.int hn, fun _ => by rw [lower, lowerLit, if_pos hn]; rfl, nofun, fun _ _ => rfl⟩
    · cases h
  | other => cases h
  | float x =>
    obtain rfl := Outcome.ok.inj h
    exact ⟨.float x, fun _ => rfl, nofun, fun _ _ => rfl⟩
  | bool b =>
    obtain rfl := Outcome.ok.inj h
    exact ⟨.bool b, fun _ => rfl, nofun, fun _ _ => rfl⟩
  | str s =>
    obtain rfl := Outcome.ok.inj h
    exact ⟨.str s, fun _ => rfl, nofun, fun _ _ => rfl⟩

/-- Parentheses lower to what is in them. -/
theorem Lowers.paren (h : Lowers e t) : Lowers (.paren e) t :=
  ⟨.paren h.allowed, fun locals => by rw [lower, h.resolves], h.slotless, fun host scope => by
    rw [evalExpr, h.means]⟩

/-- So do groups, which macros leave in a tree. -/
theorem Lowers.group (h : Lowers e t) : Lowers (.group e) t :=
  ⟨.group h.allowed, fun locals => by rw [lower, h.resolves], h.slotless, fun host scope => by
    rw [evalExpr, h.means]⟩

/-- A negation lowers operand first. -/
theorem Lowers.not (h : Lowers e t) : Lowers (.unary .not e) (.unary .not t) :=
  ⟨.unary nofun h.allowed, fun locals => by rw [lower, h.resolves]; rfl, h.slotless,
    fun host scope => by rw [evalExpr, h.means, Scope.inScope, Eval.eval]⟩

/-- So does a sign. -/
theorem Lowers.neg (h : Lowers e t) : Lowers (.unary .neg e) (.unary .neg t) :=
  ⟨.unary nofun h.allowed, fun locals => by rw [lower, h.resolves]; rfl, h.slotless,
    fun host scope => by rw [evalExpr, h.means, Scope.inScope, Eval.eval]⟩

/-- An operator takes the tree of its operands, and its tree means what it means. -/
theorem Lowers.binary {op : SBin} (ha : Lowers a s) (hb : Lowers b t)
    (hu : lowerBinary op s t = .ok u) : Lowers (.binary a op b) u := by
  have hslots := not_mem_append ha.slotless hb.slotless
  have hresolves : ∀ locals, lower locals (.binary a op b) =
      lowerBinary op (resolveIn locals s) (resolveIn locals t) := fun locals => by
    rw [lower, ha.resolves, hb.resolves]
    rfl
  have hmeans : ∀ host scope, evalExpr host scope (.binary a op b) = (do
      Eval.tick host
      let x ← Eval.eval host (Scope.inScope scope s)
      evalBinary host op x (Eval.eval host (Scope.inScope scope t))) := fun host scope => by
    rw [evalExpr, ha.means, hb.means]
  cases op with
  | other => cases hu
  | and | or =>
    obtain rfl := Outcome.ok.inj hu
    refine ⟨.binary (by decide) ha.allowed hb.allowed, fun locals => by rw [hresolves]; rfl, hslots,
      fun host scope => ?_⟩
    rw [hmeans, Scope.inScope, Eval.eval]
    congr 1
    funext _
    congr 1
    funext x
    rw [evalBinary]
    cases Eval.asBool x <;> rfl
  | _ =>
    obtain rfl := Outcome.ok.inj hu
    refine ⟨.binary (by decide) ha.allowed hb.allowed, fun locals => by rw [hresolves]; rfl, hslots,
      fun host scope => ?_⟩
    rw [hmeans, Scope.inScope, Eval.eval]
    rfl

/-- A name, from the scope or from the host. -/
theorem lowers_path (name : String) : Lowers (.path (some name)) (.var name) := by
  have hresolves : ∀ locals, lower locals (.path (some name)) = .ok (resolve locals name) :=
    fun _ => rfl
  refine ⟨.path name, fun locals => ?_, nofun, fun host scope => ?_⟩
  · rw [hresolves, Grammar.resolve_eq]
    rfl
  rw [evalExpr, Scope.inScope]
  cases scope.lookup name <;> rfl

/-- An index expression lowers both of its parts. -/
theorem Lowers.index (he : Lowers e s) (hi : Lowers i t) : Lowers (.index e i) (.index s t) :=
  ⟨.index he.allowed hi.allowed, fun locals => by rw [lower, he.resolves, hi.resolves]; rfl,
    not_mem_append he.slotless hi.slotless, fun host scope => by
    rw [evalExpr, he.means, hi.means, Scope.inScope, Eval.eval]⟩

/-! ### Lists and calls -/

/-- No expressions lower to none. -/
theorem LowersAll.nil : LowersAll [] [] := ⟨rfl, nofun, fun _ => rfl, nofun, fun _ _ => rfl⟩

/-- Expressions lower one by one, in order. -/
theorem LowersAll.cons (h : Lowers e t) (hs : LowersAll es ts) : LowersAll (e :: es) (t :: ts) :=
  ⟨congrArg Nat.succ hs.length, List.forall_mem_cons.mpr ⟨h.allowed, hs.allowed⟩,
    fun locals => by rw [lowerAll, h.resolves, hs.resolves]; rfl,
    not_mem_append h.slotless hs.slotless, fun host scope => by
    rw [evalAll, h.means, hs.means, Scope.allInScope, Eval.evalArgs]⟩

/-- An array lowers to a list. -/
theorem LowersAll.array (h : LowersAll es ts) : Lowers (.array es) (.list ts) :=
  ⟨.array h.allowed, fun locals => by rw [lower, h.resolves]; rfl, h.slotless,
    fun host scope => by
    rw [evalExpr, h.means, Scope.inScope, Eval.eval, Scope.length_allInScope, h.length]⟩

/-- A path of one name that a builtin has is called with the lowered arguments. -/
theorem LowersAll.call {name : String} {b : Builtin} (hb : builtinFrom name = .ok b)
    (h : LowersAll es ts) : Lowers (.call (.path (some name)) es) (.call b ts) := by
  have hname : builtinTable.lookup name = some b := by
    rw [builtinFrom] at hb
    split at hb
    · next hlookup => rw [hlookup, Outcome.ok.inj hb]
    · cases hb
  refine ⟨.call hname h.allowed, fun locals => ?_, h.slotless, fun host scope => ?_⟩
  · rw [lower, callTarget, identOr, Outcome.ok_bind, hb, Outcome.ok_bind, h.resolves]
    rfl
  · rw [evalExpr, h.means, hname, Scope.inScope, Eval.eval]

/-- The method `contains` is the builtin, with its receiver as first argument. -/
theorem Lowers.contains (he : Lowers e s) (ha : Lowers a t) :
    Lowers (.methodCall e "contains" [a]) (.call .contains [s, t]) := by
  refine ⟨.contains he.allowed ha.allowed, fun locals => ?_, ?_, fun host scope => ?_⟩
  · rw [lower, if_neg (not_not.mpr rfl)]
    rw [he.resolves, ha.resolves]
    rfl
  · rw [Scope.slots, Scope.slotsAll, Scope.slotsAll, Scope.slotsAll, List.append_nil]
    exact not_mem_append he.slotless ha.slotless
  · rw [evalExpr, he.means, ha.means, Scope.inScope, Scope.allInScope, Scope.allInScope,
      Scope.allInScope, Eval.eval, Chain.evalArgs_pair]
    simp only [StateOutcome.bind_assoc]
    rfl

end Constructors

/-! ### Blocks and branches -/

/-- The last expression of a branch that has nothing else. -/
theorem LowersTail.of_lowers {e : SExpr} {t : Expr} (h : Lowers e t) :
    LowersTail [.expr e false] t :=
  ⟨⟨e, rfl, h.allowed⟩, fun locals => by rw [lowerTail, h.resolves], h.slotless, fun host scope => by
    rw [evalTail, h.means]⟩

/-- A block behind `else` lowers to the expression that ends it. -/
theorem LowersTail.block {stmts : List Stmt} {t : Expr} (h : LowersTail stmts t) :
    LowersBranch (some (.block stmts)) t := by
  refine ⟨fun hc ht => ?_, h.resolves, h.slotless, h.means⟩
  obtain ⟨e, rfl, he⟩ := h.allowed
  exact .ifBlock hc ht he

/-- Any other expression behind `else` lowers as itself. -/
theorem Lowers.branch {e : SExpr} {t : Expr} (h : Lowers e t) : LowersBranch (some e) t := by
  have hother : ∀ stmts, e ≠ .block stmts := by
    rintro stmts rfl
    cases h.allowed
  exact ⟨fun hc ht => .ifElse hc ht h.allowed,
    fun locals => by rw [lowerBranch.eq_3 _ _ hother, h.resolves], h.slotless,
    fun host scope => by rw [evalBranch.eq_3 _ _ _ hother, h.means]⟩

/-- A conditional needs both branches. -/
theorem Lowers.ifElse {c e : SExpr} {b : List Stmt} {s t u : Expr} (hc : Lowers c s)
    (hb : LowersTail b t) (he : LowersBranch (some e) u) :
    Lowers (.ifElse c b (some e)) (.ite s t u) := by
  obtain ⟨b', rfl, hallowed⟩ := hb.allowed
  refine ⟨he.allowed hc.allowed hallowed, fun locals => ?_, ?_, fun host scope => ?_⟩
  · rw [lower, hc.resolves, hb.resolves, he.resolves]
    rfl
  · exact not_mem_append hc.slotless (not_mem_append hb.slotless he.slotless)
  · rw [evalExpr, hc.means, hb.means, Scope.inScope, Eval.eval]
    congr 1
    funext _
    congr 1
    funext c
    exact (he.means host scope).symm ▸ rfl

/-! ### Inversion -/

/-- Only a plain identifier passes. -/
theorem identOr_eq_ok {what name : String} {ident : Option String}
    (h : identOr what ident = .ok name) : ident = some name := by
  cases ident with
  | none => cases h
  | some x => rw [Outcome.ok.inj h]

/-- Only a path of one name is called. -/
theorem callTarget_eq_ok {func : SExpr} {name : String} (h : callTarget func = .ok name) :
    func = .path (some name) := by
  cases func with
  | path ident =>
    obtain rfl := identOr_eq_ok h
    rfl
  | _ => cases h

/-- An operator that is lowered is lowered on any trees. -/
theorem lowerBinary_eq_ok {op : SBin} {l r e : Expr} (h : lowerBinary op l r = .ok e) (s t : Expr) :
    ∃ u, lowerBinary op s t = .ok u := by
  cases op with
  | other => cases h
  | _ => exact ⟨_, rfl⟩

/-! ### What was lowered -/

mutual

/-- **What `lower` accepts becomes a tree that means the same**, by induction on the
expression. -/
theorem lowers_of_ok {locals : List (String × UInt16)} :
    ∀ {e : SExpr} {e' : Expr}, lower locals e = .ok e' → ∃ t, Lowers e t
  | .paren e, e', h => by
    rw [lower] at h
    obtain ⟨t, ht⟩ := lowers_of_ok h
    exact ⟨t, ht.paren⟩
  | .group e, e', h => by
    rw [lower] at h
    obtain ⟨t, ht⟩ := lowers_of_ok h
    exact ⟨t, ht.group⟩
  | .lit l, e', h => ⟨e', lowers_lit h⟩
  | .unary op e, e', h => by
    cases op with
    | other => cases h
    | not =>
      obtain ⟨v, hv, -⟩ := Outcome.bind_eq_ok.mp h
      obtain ⟨t, ht⟩ := lowers_of_ok hv
      exact ⟨_, ht.not⟩
    | neg =>
      obtain ⟨v, hv, -⟩ := Outcome.bind_eq_ok.mp h
      obtain ⟨t, ht⟩ := lowers_of_ok hv
      exact ⟨_, ht.neg⟩
  | .binary a op b, e', h => by
    obtain ⟨l, hl, h⟩ := Outcome.bind_eq_ok.mp h
    obtain ⟨r, hr, h⟩ := Outcome.bind_eq_ok.mp h
    obtain ⟨s, hs⟩ := lowers_of_ok hl
    obtain ⟨t, ht⟩ := lowers_of_ok hr
    obtain ⟨u, hu⟩ := lowerBinary_eq_ok h s t
    exact ⟨u, hs.binary ht hu⟩
  | .path ident, e', h => by
    obtain ⟨name, hname, -⟩ := Outcome.bind_eq_ok.mp h
    obtain rfl := identOr_eq_ok hname
    exact ⟨_, lowers_path name⟩
  | .index e i, e', h => by
    obtain ⟨l, hl, h⟩ := Outcome.bind_eq_ok.mp h
    obtain ⟨j, hj, -⟩ := Outcome.bind_eq_ok.mp h
    obtain ⟨s, hs⟩ := lowers_of_ok hl
    obtain ⟨t, ht⟩ := lowers_of_ok hj
    exact ⟨_, hs.index ht⟩
  | .array es, e', h => by
    obtain ⟨items, hitems, -⟩ := Outcome.bind_eq_ok.mp h
    obtain ⟨ts, hts⟩ := lowersAll_of_ok hitems
    exact ⟨_, hts.array⟩
  | .ifElse _ _ none, _, h => by cases h
  | .ifElse c b (some e), e', h => by
    obtain ⟨l, hl, h⟩ := Outcome.bind_eq_ok.mp h
    obtain ⟨r, hr, h⟩ := Outcome.bind_eq_ok.mp h
    obtain ⟨f, hf, -⟩ := Outcome.bind_eq_ok.mp h
    obtain ⟨s, hs⟩ := lowers_of_ok hl
    obtain ⟨t, ht⟩ := lowersTail_of_ok hr
    obtain ⟨u, hu⟩ := lowersBranch_of_ok hf
    exact ⟨_, hs.ifElse ht hu⟩
  | .call func args, e', h => by
    obtain ⟨name, hname, h⟩ := Outcome.bind_eq_ok.mp h
    obtain ⟨b, hb, h⟩ := Outcome.bind_eq_ok.mp h
    obtain ⟨vals, hvals, -⟩ := Outcome.bind_eq_ok.mp h
    obtain rfl := callTarget_eq_ok hname
    obtain ⟨ts, hts⟩ := lowersAll_of_ok hvals
    exact ⟨_, hts.call hb⟩
  | .methodCall e method args, e', h => by
    rw [lower.eq_def] at h
    dsimp only at h
    split at h
    · cases h
    · next hmethod =>
      obtain rfl := not_not.mp hmethod
      split at h
      · obtain ⟨l, hl, h⟩ := Outcome.bind_eq_ok.mp h
        obtain ⟨r, hr, -⟩ := Outcome.bind_eq_ok.mp h
        obtain ⟨s, hs⟩ := lowers_of_ok hl
        obtain ⟨t, ht⟩ := lowers_of_ok hr
        exact ⟨_, hs.contains ht⟩
      · cases h
  | .block _, _, h => by cases h
  | .other _, _, h => by cases h

/-- A list that is lowered is lowered item by item. -/
theorem lowersAll_of_ok {locals : List (String × UInt16)} :
    ∀ {es : List SExpr} {es' : List Expr}, lowerAll locals es = .ok es' → ∃ ts, LowersAll es ts
  | [], _, _ => ⟨[], .nil⟩
  | e :: es, es', h => by
    obtain ⟨l, hl, h⟩ := Outcome.bind_eq_ok.mp h
    obtain ⟨ls, hls, -⟩ := Outcome.bind_eq_ok.mp h
    obtain ⟨t, ht⟩ := lowers_of_ok hl
    obtain ⟨ts, hts⟩ := lowersAll_of_ok hls
    exact ⟨_, .cons ht hts⟩

/-- A block that is lowered is one expression without a semicolon. -/
theorem lowersTail_of_ok {locals : List (String × UInt16)} :
    ∀ {b : List Stmt} {e' : Expr}, lowerTail locals b = .ok e' → ∃ t, LowersTail b t
  | [.expr e false], e', h => by
    rw [lowerTail] at h
    obtain ⟨t, ht⟩ := lowers_of_ok h
    exact ⟨t, .of_lowers ht⟩
  | [], _, h => by cases h
  | [.expr _ true], _, h => by cases h
  | [.letIn _ _], _, h => by cases h
  | [.other], _, h => by cases h
  | _ :: _ :: _, _, h => by
    rw [lowerTail] at h
    · cases h
    · rintro _ ⟨⟩

/-- An `else` that is lowered is a block or another expression. -/
theorem lowersBranch_of_ok {locals : List (String × UInt16)} :
    ∀ {b : Option SExpr} {e' : Expr}, lowerBranch locals b = .ok e' → ∃ t, LowersBranch b t
  | none, _, h => by cases h
  | some e, e', h => by
    by_cases hblock : ∃ stmts, e = .block stmts
    · obtain ⟨stmts, rfl⟩ := hblock
      obtain ⟨t, ht⟩ := lowersTail_of_ok h
      exact ⟨t, ht.block⟩
    · have hother : ∀ stmts, e ≠ .block stmts := fun stmts hs => hblock ⟨stmts, hs⟩
      rw [lowerBranch.eq_3 _ _ hother] at h
      obtain ⟨t, ht⟩ := lowers_of_ok h
      exact ⟨t, ht.branch⟩

end

/-- Lists lower when their items do; the trees are chosen one by one. -/
theorem exists_lowersAll {es : List SExpr} (h : ∀ e ∈ es, ∃ t, Lowers e t) :
    ∃ ts, LowersAll es ts := by
  induction es with
  | nil => exact ⟨[], .nil⟩
  | cons e es ih =>
    obtain ⟨t, ht⟩ := h e List.mem_cons_self
    obtain ⟨ts, hts⟩ := ih fun e he => h e (List.mem_cons_of_mem _ he)
    exact ⟨_, .cons ht hts⟩

/-- **What is on the list is lowered.** -/
theorem Allowed.lowers {e : SExpr} (h : Allowed e) : ∃ t, Lowers e t := by
  induction h with
  | paren _ ih => exact ih.imp fun _ => Lowers.paren
  | group _ ih => exact ih.imp fun _ => Lowers.group
  | int hn => exact ⟨_, lowers_lit (if_pos hn)⟩
  | float x => exact ⟨_, lowers_lit (l := .float x) rfl⟩
  | bool b => exact ⟨_, lowers_lit (l := .bool b) rfl⟩
  | str s => exact ⟨_, lowers_lit (l := .str s) rfl⟩
  | @unary op _ hop _ ih =>
    obtain ⟨t, ht⟩ := ih
    cases op with
    | not => exact ⟨_, ht.not⟩
    | neg => exact ⟨_, ht.neg⟩
    | other => exact absurd rfl hop
  | @binary _ op _ hop _ _ iha ihb =>
    obtain ⟨s, hs⟩ := iha
    obtain ⟨t, ht⟩ := ihb
    have hu : ∃ u, lowerBinary op s t = .ok u := by
      cases op with
      | other => exact absurd rfl hop
      | _ => exact ⟨_, rfl⟩
    exact hu.imp fun _ => hs.binary ht
  | path name => exact ⟨_, lowers_path name⟩
  | index _ _ ihe ihi =>
    obtain ⟨s, hs⟩ := ihe
    obtain ⟨t, ht⟩ := ihi
    exact ⟨_, hs.index ht⟩
  | array _ ih =>
    obtain ⟨ts, hts⟩ := exists_lowersAll ih
    exact ⟨_, hts.array⟩
  | ifElse _ _ _ ihc iht ihe =>
    obtain ⟨s, hs⟩ := ihc
    obtain ⟨t, ht⟩ := iht
    obtain ⟨u, hu⟩ := ihe
    exact ⟨_, hs.ifElse (.of_lowers ht) hu.branch⟩
  | ifBlock _ _ _ ihc iht ihe =>
    obtain ⟨s, hs⟩ := ihc
    obtain ⟨t, ht⟩ := iht
    obtain ⟨u, hu⟩ := ihe
    exact ⟨_, hs.ifElse (.of_lowers ht) (LowersTail.of_lowers hu).block⟩
  | call hb _ ih =>
    obtain ⟨ts, hts⟩ := exists_lowersAll ih
    exact ⟨_, hts.call (by rw [builtinFrom, hb])⟩
  | contains _ _ ihe ihx =>
    obtain ⟨s, hs⟩ := ihe
    obtain ⟨t, ht⟩ := ihx
    exact ⟨_, hs.contains ht⟩

/-! ### Lowering returns -/

/-- A pattern is an identifier or an error. -/
theorem returns_identOr (what : String) (ident : Option String) :
    (identOr what ident).Returns := by
  cases ident <;> trivial

/-- A name is a builtin or an error. -/
theorem returns_builtinFrom (name : String) : (builtinFrom name).Returns := by
  rw [builtinFrom]
  split <;> trivial

mutual

/-- **`lower` does not panic**, by induction on the expression. -/
theorem returns_lower (locals : List (String × UInt16)) : ∀ e : SExpr, (lower locals e).Returns
  | .paren e => by
    rw [lower]
    exact returns_lower locals e
  | .group e => by
    rw [lower]
    exact returns_lower locals e
  | .lit l => by
    rw [lower]
    cases l with
    | int n =>
      rw [lowerLit]
      split <;> trivial
    | _ => trivial
  | .unary op e => by
    cases op with
    | other => trivial
    | _ => exact Outcome.returns_bind.mpr ⟨returns_lower locals e, fun _ _ => trivial⟩
  | .binary a op b => by
    refine Outcome.returns_bind.mpr ⟨returns_lower locals a, fun l _ =>
      Outcome.returns_bind.mpr ⟨returns_lower locals b, fun r _ => ?_⟩⟩
    cases op <;> trivial
  | .path ident =>
    Outcome.returns_bind.mpr ⟨returns_identOr _ ident, fun _ _ => trivial⟩
  | .index e i =>
    Outcome.returns_bind.mpr ⟨returns_lower locals e, fun _ _ =>
      Outcome.returns_bind.mpr ⟨returns_lower locals i, fun _ _ => trivial⟩⟩
  | .array es => Outcome.returns_bind.mpr ⟨returns_lowerAll locals es, fun _ _ => trivial⟩
  | .ifElse _ _ none => trivial
  | .ifElse c b (some e) =>
    Outcome.returns_bind.mpr ⟨returns_lower locals c, fun _ _ =>
      Outcome.returns_bind.mpr ⟨returns_lowerTail locals b, fun _ _ =>
        Outcome.returns_bind.mpr ⟨returns_lowerBranch locals e, fun _ _ => trivial⟩⟩⟩
  | .call func args => by
    refine Outcome.returns_bind.mpr ⟨?_, fun name _ =>
      Outcome.returns_bind.mpr ⟨returns_builtinFrom name, fun _ _ =>
        Outcome.returns_bind.mpr ⟨returns_lowerAll locals args, fun _ _ => trivial⟩⟩⟩
    cases func with
    | path ident => exact returns_identOr _ ident
    | _ => trivial
  | .methodCall e method args => by
    rw [lower.eq_def]
    dsimp only
    split
    · trivial
    · split
      · exact Outcome.returns_bind.mpr ⟨returns_lower locals e, fun _ _ =>
          Outcome.returns_bind.mpr ⟨returns_lower locals _, fun _ _ => trivial⟩⟩
      · trivial
  | .block _ => trivial
  | .other _ => trivial

/-- Lists return because each item does. -/
theorem returns_lowerAll (locals : List (String × UInt16)) :
    ∀ es : List SExpr, (lowerAll locals es).Returns
  | [] => trivial
  | e :: es =>
    Outcome.returns_bind.mpr ⟨returns_lower locals e, fun _ _ =>
      Outcome.returns_bind.mpr ⟨returns_lowerAll locals es, fun _ _ => trivial⟩⟩

/-- A block returns, because what is no single expression is an error before anything is
lowered. -/
theorem returns_lowerTail (locals : List (String × UInt16)) :
    ∀ b : List Stmt, (lowerTail locals b).Returns
  | [.expr e false] => by
    rw [lowerTail]
    exact returns_lower locals e
  | [] => trivial
  | [.expr _ true] => trivial
  | [.letIn _ _] => trivial
  | [.other] => trivial
  | _ :: _ :: _ => by
    rw [lowerTail]
    · trivial
    · rintro _ ⟨⟩

/-- So does an `else`. -/
theorem returns_lowerBranch (locals : List (String × UInt16)) :
    ∀ e : SExpr, (lowerBranch locals (some e)).Returns
  | e => by
    by_cases hblock : ∃ stmts, e = .block stmts
    · obtain ⟨stmts, rfl⟩ := hblock
      exact returns_lowerTail locals stmts
    · rw [lowerBranch.eq_3 _ _ fun stmts hs => hblock ⟨stmts, hs⟩]
      exact returns_lower locals e

end

/-! ## Programs and what they mean -/

/-- The statements are these bindings and this result, with names; while the slots last,
they get them. -/
structure Binds (stmts : List Stmt) (bs : List (String × Expr)) (r : Expr) : Prop where
  allowed : AllowedBlock stmts
  length : stmts.length = bs.length + 1
  slotless : Scope.Slotless bs r
  means : ∀ host scope, runBlock host scope stmts = Scope.runNamed host scope bs r
  lowers : ∀ b : Bindings, lowerStmts b stmts =
    if b.nextSlot.toNat + bs.length < 2 ^ 16 then
      .ok (bindTrees b bs, resolveIn (bindTrees b bs).locals r)
    else .panic

/-- A block of one expression binds nothing. -/
theorem Binds.ret {e : SExpr} {t : Expr} (h : Lowers e t) : Binds [.expr e false] [] t := by
  refine ⟨.ret h.allowed, rfl, ⟨nofun, h.slotless⟩, fun host scope => ?_, fun b => ?_⟩
  · rw [runBlock, h.means, Scope.runNamed]
  · rw [lowerStmts, lowerLast, h.resolves]
    exact (if_pos b.nextSlot.toNat_lt).symm

/-- A binding in front of a block: its slot is taken before the rest is lowered, so the rest has
one fewer. -/
theorem Binds.letIn {e : SExpr} {t r : Expr} {rest : List Stmt} {bs : List (String × Expr)}
    (h : Lowers e t) (hrest : Binds rest bs r) (x : String) :
    Binds (.letIn (some x) (some (e, false)) :: rest) ((x, t) :: bs) r := by
  refine ⟨.letIn h.allowed hrest.allowed, ?_, ⟨?_, hrest.slotless.2⟩, fun host scope => ?_,
    fun b => ?_⟩
  · rw [List.length_cons, List.length_cons, hrest.length]
  · intro xe hxe
    rcases List.mem_cons.mp hxe with rfl | hxe
    · exact h.slotless
    · exact hrest.slotless.1 xe hxe
  · rw [runBlock, h.means, Scope.runNamed]
    congr 1
    funext v
    exact hrest.means host _
  · have hne : rest ≠ [] := List.ne_nil_of_length_pos (by rw [hrest.length]; omega)
    have hstep : lowerStmts b (.letIn (some x) (some (e, false)) :: rest) =
        bindLocal b x (resolveIn b.locals t) >>= fun b => lowerStmts b rest := by
      have hlet : lowerLet b (.letIn (some x) (some (e, false))) =
          lower b.locals e >>= bindLocal b x := rfl
      rw [lowerStmts.eq_3 _ _ _ hne, hlet, h.resolves]
      rfl
    rw [hstep, List.length_cons]
    rcases bindLocal_cases b x (resolveIn b.locals t) with ⟨hlt, hb⟩ | ⟨heq, hb⟩
    · have hnext : (b.nextSlot + 1).toNat = b.nextSlot.toNat + 1 := Scope.toNat_succ hlt
      have hbind := hrest.lowers (bindTree b x t)
      simp only [bindTree, hnext] at hbind
      rw [hb, Outcome.ok_bind, hbind,
        show b.nextSlot.toNat + 1 + bs.length = b.nextSlot.toNat + (bs.length + 1) by omega]
      rfl
    · rw [hb, if_neg (by omega)]
      rfl

/-! ### Bindings -/

/-- Only an initializer without a diverging `else` passes. -/
theorem initOf_eq_ok {init : Option (SExpr × Bool)} {e : SExpr} (h : initOf init = .ok e) :
    init = some (e, false) := by
  rcases init with - | ⟨e', - | -⟩
  · cases h
  · rw [Outcome.ok.inj h]
  · cases h

/-- An initializer is there or is an error. -/
theorem returns_initOf (init : Option (SExpr × Bool)) : (initOf init).Returns := by
  rcases init with - | ⟨e, - | -⟩ <;> trivial

/-- A `let` in front of other statements. -/
theorem lowerLet_eq_ok {b b' : Bindings} {s : Stmt} (h : lowerLet b s = .ok b') :
    ∃ x init e, s = .letIn (some x) (some (init, false)) ∧ lower b.locals init = .ok e ∧
      bindLocal b x e = .ok b' := by
  cases s with
  | other => cases h
  | expr e semi => cases semi <;> cases h
  | letIn pat init =>
    obtain ⟨x, hx, h⟩ := Outcome.bind_eq_ok.mp h
    obtain ⟨e, he, h⟩ := Outcome.bind_eq_ok.mp h
    obtain ⟨e', he', hbind⟩ := Outcome.bind_eq_ok.mp h
    obtain rfl := identOr_eq_ok hx
    obtain rfl := initOf_eq_ok he
    exact ⟨x, e, e', rfl, he', hbind⟩

/-- The last statement is an expression without a semicolon. -/
theorem lowerLast_eq_ok {b : Bindings} {s : Stmt} {ret : Expr} (h : lowerLast b s = .ok ret) :
    ∃ e, s = .expr e false ∧ lower b.locals e = .ok ret := by
  cases s with
  | expr e semi =>
    cases semi with
    | false => exact ⟨e, rfl, h⟩
    | true => cases h
  | _ => cases h

/-- **What the loop accepts**, by induction on the statements. -/
theorem binds_of_ok {stmts : List Stmt} : ∀ {b : Bindings} {out : Bindings × Expr},
    lowerStmts b stmts = .ok out → ∃ bs r, Binds stmts bs r := by
  induction stmts with
  | nil => exact fun h => by cases h
  | cons s rest ih =>
    intro b out h
    cases rest with
    | nil =>
      obtain ⟨ret, hret, -⟩ := Outcome.bind_eq_ok.mp h
      obtain ⟨e, rfl, he⟩ := lowerLast_eq_ok hret
      obtain ⟨t, ht⟩ := lowers_of_ok he
      exact ⟨_, _, .ret ht⟩
    | cons s' rest =>
      obtain ⟨b', hb', hloop⟩ := Outcome.bind_eq_ok.mp h
      obtain ⟨x, init, e, rfl, he, -⟩ := lowerLet_eq_ok hb'
      obtain ⟨t, ht⟩ := lowers_of_ok he
      obtain ⟨bs, r, hrest⟩ := ih hloop
      exact ⟨_, _, .letIn ht hrest x⟩

/-- **Every allowed block has its bindings and its result**, by induction over the statements. -/
theorem AllowedBlock.binds {stmts : List Stmt} (h : AllowedBlock stmts) :
    ∃ bs r, Binds stmts bs r := by
  induction h with
  | ret h =>
    obtain ⟨t, ht⟩ := h.lowers
    exact ⟨_, _, .ret ht⟩
  | letIn h _ ih =>
    obtain ⟨t, ht⟩ := h.lowers
    obtain ⟨bs, r, hrest⟩ := ih
    exact ⟨_, _, .letIn ht hrest _⟩

/-- The last statement returns. -/
theorem returns_lowerLast (b : Bindings) (s : Stmt) : (lowerLast b s).Returns := by
  cases s with
  | expr e semi =>
    cases semi with
    | false => exact returns_lower _ e
    | true => trivial
  | _ => trivial

/-! ### When the slots run out -/

/-- A `let` panics only when there are no more slots. -/
theorem lowerLet_panics {b : Bindings} {s : Stmt} (h : ¬ (lowerLet b s).Returns) :
    b.nextSlot.toNat + 1 = 2 ^ 16 := by
  cases s with
  | other => exact absurd trivial h
  | expr e semi => cases semi <;> exact absurd trivial h
  | letIn pat init =>
    by_contra hslots
    refine h (Outcome.returns_bind.mpr ⟨returns_identOr _ pat, fun x _ =>
      Outcome.returns_bind.mpr ⟨returns_initOf init, fun init _ =>
        Outcome.returns_bind.mpr ⟨returns_lower b.locals init, fun e _ => ?_⟩⟩⟩)
    rcases bindLocal_cases b x e with ⟨-, hb⟩ | ⟨hfull, -⟩
    · rw [hb]
      trivial
    · exact absurd hfull hslots

/-- **The loop panics only when there are no more slots**, by induction on the statements. -/
theorem lowerStmts_panics {stmts : List Stmt} : ∀ {b : Bindings},
    ¬ (lowerStmts b stmts).Returns → 2 ^ 16 < b.nextSlot.toNat + stmts.length := by
  induction stmts with
  | nil => exact fun h => absurd trivial h
  | cons s rest ih =>
    intro b h
    rw [List.length_cons]
    by_cases hrest : rest = []
    · subst hrest
      exact absurd (Outcome.returns_bind.mpr ⟨returns_lowerLast b s, fun _ _ =>
        Outcome.returns_ok _⟩) h
    · have hpos := List.length_pos_of_ne_nil hrest
      rw [lowerStmts.eq_3 _ _ _ hrest, Outcome.returns_bind] at h
      by_cases hlet : (lowerLet b s).Returns
      · obtain ⟨b', hb', hloop⟩ : ∃ b', lowerLet b s = .ok b' ∧ ¬ (lowerStmts b' rest).Returns := by
          by_contra hall
          exact h ⟨hlet, fun b' hb' => by_contra fun hn => hall ⟨b', hb', hn⟩⟩
        obtain ⟨x, init, e, -, -, hbind⟩ := lowerLet_eq_ok hb'
        have hmany := ih hloop
        rcases bindLocal_cases b x e with ⟨hlt, hb⟩ | ⟨-, hb⟩
        · rw [hb] at hbind
          obtain rfl := Outcome.ok.inj hbind
          rw [Scope.toNat_succ hlt] at hmany
          omega
        · rw [hb] at hbind
          cases hbind
      · have hfull := lowerLet_panics hlet
        omega

/-! ### What a block means -/

/-- What a compiled program is to its block. -/
structure Means (stmts : List Stmt) (p : Program) : Prop where
  /-- A run gives the value of the block. -/
  result : ∀ host maxSteps maxBytes, (Eval.runWith host p maxSteps maxBytes).1 =
    (runBlock host [] stmts (Scope.namedFrame maxSteps maxBytes)).1
  /-- The effects are those of the block, in order. -/
  effects : ∀ host maxSteps maxBytes, (Eval.runWith host p maxSteps maxBytes).2.events =
    (runBlock host [] stmts (Scope.namedFrame maxSteps maxBytes)).2.events
  /-- No slot is read before it is stored. -/
  guarded : ∀ host maxSteps maxBytes, Scope.Guarded (Eval.runWith host p maxSteps maxBytes).2.log
  /-- Each `let` has a slot of its own. -/
  slots : (p.body.map LetBinding.slot).Nodup ∧ p.nLocals.toNat + 1 = stmts.length

/-- The front end on a block: what it accepts, that it comes back, and what it compiles. -/
structure Compiles (stmts : List Stmt) : Prop where
  accepts_iff : (∃ p, compileBlock stmts = .ok p) ↔ AllowedBlock stmts ∧ stmts.length ≤ 2 ^ 16
  returns : stmts.length ≤ 2 ^ 16 → (compileBlock stmts).Returns
  means : ∀ p, compileBlock stmts = .ok p → Means stmts p

/-- The program of a block on the list. -/
theorem Binds.compileBlock_eq {stmts : List Stmt} {bs : List (String × Expr)} {r : Expr}
    (h : Binds stmts bs r) : compileBlock stmts = if stmts.length ≤ 2 ^ 16 then
      .ok (finish (Grammar.compiled bs r).1 (Grammar.compiled bs r).2) else .panic := by
  have hzero : (0 : UInt16).toNat = 0 := rfl
  rw [compileBlock, h.lowers, hzero, Nat.zero_add, h.length]
  by_cases hfew : bs.length < 2 ^ 16
  · rw [if_pos hfew, if_pos (by omega)]
    rfl
  · rw [if_neg hfew, if_neg (by omega)]
    rfl

/-- While the slots last, the block means what the program compiled from its bindings computes. -/
theorem Binds.means_compiled {stmts : List Stmt} {bs : List (String × Expr)} {r : Expr}
    (h : Binds stmts bs r) (hlen : stmts.length ≤ 2 ^ 16) :
    Means stmts (finish (Grammar.compiled bs r).1 (Grammar.compiled bs r).2) := by
  have hfew : bs.length < 2 ^ 16 := by
    have := h.length
    omega
  have hscoped := Scope.scoped_of_slotless h.slotless hfew defaultMaxSteps
  refine ⟨fun host steps bytes => ?_, fun host steps bytes => ?_, hscoped.guarded,
    hscoped.distinct, ?_⟩
  · rw [h.means]
    exact (hscoped.named host steps bytes).1
  · rw [h.means]
    exact (hscoped.named host steps bytes).2
  · rw [h.length, ← hscoped.count.2, ← hscoped.count.1]
    rfl

/-- **The front end is correct on every block.** -/
theorem compileBlock_correct (stmts : List Stmt) : Compiles stmts := by
  refine ⟨⟨?_, ?_⟩, fun hlen => ?_, fun p hp => ?_⟩
  · rintro ⟨p, hp⟩
    obtain ⟨out, hout, -⟩ := Outcome.bind_eq_ok.mp hp
    obtain ⟨bs, r, hbinds⟩ := binds_of_ok hout
    refine ⟨hbinds.allowed, ?_⟩
    by_contra hmany
    rw [hbinds.compileBlock_eq, if_neg hmany] at hp
    cases hp
  · rintro ⟨hallowed, hlen⟩
    obtain ⟨bs, r, hbinds⟩ := hallowed.binds
    exact ⟨_, hbinds.compileBlock_eq.trans (if_pos hlen)⟩
  · refine Outcome.returns_bind.mpr ⟨?_, fun _ _ => trivial⟩
    by_contra hpanic
    have hmany := lowerStmts_panics hpanic
    have hzero : (0 : UInt16).toNat = 0 := rfl
    rw [hzero] at hmany
    omega
  · obtain ⟨out, hout, -⟩ := Outcome.bind_eq_ok.mp hp
    obtain ⟨bs, r, hbinds⟩ := binds_of_ok hout
    rw [hbinds.compileBlock_eq] at hp
    split at hp
    · next hlen =>
      obtain rfl := Outcome.ok.inj hp
      exact hbinds.means_compiled hlen
    · cases hp

end RustFrontend
