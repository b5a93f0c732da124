/-
# The Python front end of the host

`compile_python`, on the syntax tree of a Python expression, beside `compile_rust`.

The two languages have different forms: a chain of comparisons and `x in l` on one side, a
method, brackets and `if` with blocks on the other.  `toRust` and `toPython` write an
expression of one language in the other, and `front_ends_agree` says that the program stays
the same: what one front end accepts, the other does, as the same program.
-/
import PySpell.RustFrontend

open Parse
open Grammar (resolveIn resolveAll)
open RustFrontend (SExpr SBin SUn Lit Stmt)

namespace PyFrontend

/-! ## The syntax tree -/

/-- `ast::Constant`, with the value of the literal. -/
inductive Constant where
  | int (n : ℕ)
  | float (x : Binary64)
  | bool (b : Bool)
  | str (s : String)
  | other

/-- `ast::Operator`. -/
inductive Operator where
  | add | sub | mult | div | floorDiv | mod | other
  deriving DecidableEq

/-- `ast::UnaryOp`. -/
inductive UnaryOp where
  | not | uSub | uAdd | invert
  deriving DecidableEq

/-- The expressions that the front end knows by name only. -/
inductive Unlowered where
  | lambda | dict | set | listComp | setComp | dictComp | generatorExp | attribute | await | yield
  | yieldFrom | namedExpr | starred | tuple | slice | unsupported
  deriving DecidableEq

/-- `ast::Expr`.  Each comparison of a chain comes with the operand behind it, and a call
with whether it has keyword arguments. -/
inductive AstExpr where
  | constant (c : Constant)
  | name (id : String)
  | binOp (left : AstExpr) (op : Operator) (right : AstExpr)
  | unaryOp (op : UnaryOp) (operand : AstExpr)
  | boolOp (op : BoolOp) (values : List AstExpr)
  | compare (left : AstExpr) (links : List (Chain.AstCmpOp × AstExpr))
  | ifExp (test body orelse : AstExpr)
  | subscript (value slice : AstExpr)
  | list (elts : List AstExpr)
  | call (func : AstExpr) (args : List AstExpr) (keywords : Bool)
  | other (kind : Unlowered)

/-! ## Lowering -/

/-- `lower_const`. -/
def lowerConst : Constant → Outcome DslError Expr
  | .int n =>
    if n < 2 ^ 63 then .ok (.const (.int (Int64.ofNat n)))
    else .err (.forbidden "integer literal out of range")
  | .float x => .ok (.const (.float x))
  | .bool b => .ok (.const (.bool b))
  | .str s => .ok (.const (.str s))
  | .other => .err (.forbidden "constant")

/-- `expr_kind`, of an expression that is not lowered. -/
def exprKind : Unlowered → String
  | .lambda => "lambda"
  | .dict => "dict"
  | .set => "set"
  | .listComp | .setComp | .dictComp => "comprehension"
  | .generatorExp => "generator"
  | .attribute => "attribute access"
  | .await => "await"
  | .yield | .yieldFrom => "yield"
  | .namedExpr => "walrus `:=`"
  | .starred => "starred"
  | .tuple => "tuple"
  | .slice => "slice"
  | .unsupported => "unsupported"

/-- The operator of an arithmetic expression. -/
def operatorOf : Operator → Outcome DslError BinOp
  | .add => .ok .add
  | .sub => .ok .sub
  | .mult => .ok .mul
  | .div | .floorDiv => .ok .div
  | .mod => .ok .rem
  | .other => .err (.forbidden "arithmetic operator")

/-- The operator of a unary expression, on what its operand becomes. -/
def lowerUnary (op : UnaryOp) (v : Expr) : Outcome DslError Expr :=
  match op with
  | .not => .ok (.unary .not v)
  | .uSub => .ok (.unary .neg v)
  | .uAdd => .ok v
  | .invert => .err (.forbidden "bitwise `~`")

/-- The fold over the values of `and` and `or`, on what they become. -/
def foldBool (op : BoolOp) : List Expr → Outcome DslError Expr
  | [] => .err (.parse "empty boolean expression")
  | first :: rest => .ok (rest.foldl (.bool op) first)

/-- The name of a call target. -/
def callTarget : AstExpr → Outcome DslError String
  | .name id => .ok id
  | _ => .err (.forbidden "call target")

mutual

/-- `lower`. -/
def lower (locals : List (String × UInt16)) : AstExpr → Outcome DslError Expr
  | .constant c => lowerConst c
  | .name id => .ok (resolve locals id)
  | .binOp a op b => do
    let l ← lower locals a
    let r ← lower locals b
    let op ← operatorOf op
    .ok (.bin op l r)
  | .unaryOp op e => do
    let v ← lower locals e
    lowerUnary op v
  | .boolOp op values => do
    let vals ← lowerAll locals values
    foldBool op vals
  | .compare left links => do
    let left ← lower locals left
    let operands ← lowerLinks locals links
    Chain.lowerCompare (left :: operands) (links.map Prod.fst)
  | .ifExp test body orelse => do
    let c ← lower locals test
    let t ← lower locals body
    let e ← lower locals orelse
    .ok (.ite c t e)
  | .subscript value slice =>
    match slice with
    | .other .slice => .err (.forbidden "slice")
    | slice => do
      let l ← lower locals value
      let i ← lower locals slice
      .ok (.index l i)
  | .list elts => do
    let items ← lowerAll locals elts
    .ok (.list items)
  | .call func args keywords => do
    let name ← callTarget func
    if keywords then .err (.forbidden "keyword arguments")
    else do
      let b ← builtinFrom name
      let args ← lowerAll locals args
      .ok (.call b args)
  | .other kind => .err (.forbidden (exprKind kind ++ " expression"))

/-- `lower`, on the elements of a list, the arguments of a call or the values of `and`. -/
def lowerAll (locals : List (String × UInt16)) : List AstExpr → Outcome DslError (List Expr)
  | [] => .ok []
  | e :: es => do
    let t ← lower locals e
    let ts ← lowerAll locals es
    .ok (t :: ts)

/-- `lower`, on the operands behind the first of a chain. -/
def lowerLinks (locals : List (String × UInt16)) :
    List (Chain.AstCmpOp × AstExpr) → Outcome DslError (List Expr)
  | [] => .ok []
  | (_, e) :: ls => do
    let t ← lower locals e
    let ts ← lowerLinks locals ls
    .ok (t :: ts)

end

/-- `compile_python`, behind the parser. -/
def compileExpr (e : AstExpr) : Outcome DslError Program := do
  let ret ← lower [] e
  .ok (RustFrontend.finish ⟨[], 0, []⟩ ret)

/-- `compile_python`, with the parser of the host. -/
def compilePython (parseExpr : String → Except String AstExpr) (src : String) :
    Outcome DslError Program :=
  match parseExpr src with
  | .error e => .err (.parse e)
  | .ok e => compileExpr e

/-! ## Rust in Python -/

/-- A literal of Rust as a constant of Python. -/
def constantOf : Lit → Constant
  | .int n => .int n
  | .float x => .float x
  | .bool b => .bool b
  | .str s => .str s
  | .other => .other

/-- A binary expression of Rust in Python. -/
def binaryOf (op : SBin) (a b : AstExpr) : AstExpr :=
  match op with
  | .add => .binOp a .add b
  | .sub => .binOp a .sub b
  | .mul => .binOp a .mult b
  | .div => .binOp a .floorDiv b
  | .rem => .binOp a .mod b
  | .and => .boolOp .and [a, b]
  | .or => .boolOp .or [a, b]
  | .eq => .compare a [(.eq, b)]
  | .ne => .compare a [(.notEq, b)]
  | .lt => .compare a [(.lt, b)]
  | .le => .compare a [(.ltE, b)]
  | .gt => .compare a [(.gt, b)]
  | .ge => .compare a [(.gtE, b)]
  | .other => .binOp a .other b

def unaryOf : SUn → UnaryOp
  | .not => .not
  | .neg => .uSub
  | .other => .invert

/-- The name of a function that is called. -/
def targetName : SExpr → Option String
  | .path ident => ident
  | _ => none

mutual

/-- An expression of Rust in Python.  What has no counterpart becomes an expression that
neither front end accepts. -/
def toPython : SExpr → AstExpr
  | .paren e => toPython e
  | .group e => toPython e
  | .lit l => .constant (constantOf l)
  | .unary op e => .unaryOp (unaryOf op) (toPython e)
  | .binary a op b => binaryOf op (toPython a) (toPython b)
  | .path none => .other .unsupported
  | .path (some name) => .name name
  | .index e i => .subscript (toPython e) (toPython i)
  | .array elems => .list (toPythonAll elems)
  | .ifElse c t e => .ifExp (toPython c) (tailToPython t) (branchToPython e)
  | .call func args =>
    match targetName func with
    | some name => .call (.name name) (toPythonAll args) false
    | none => .other .unsupported
  | .methodCall receiver method args =>
    if method ≠ "contains" then .other .unsupported
    else
      match args with
      | [x] => .compare (toPython x) [(.inOp, toPython receiver)]
      | _ => .other .unsupported
  | .block _ => .other .unsupported
  | .other _ => .other .unsupported

def toPythonAll : List SExpr → List AstExpr
  | [] => []
  | e :: es => toPython e :: toPythonAll es

def tailToPython : List Stmt → AstExpr
  | [.expr e false] => toPython e
  | _ => .other .unsupported

def branchToPython : Option SExpr → AstExpr
  | none => .other .unsupported
  | some (.block stmts) => tailToPython stmts
  | some e => toPython e

end

/-! ## Python in Rust -/

/-- A constant of Python as a literal of Rust. -/
def litOf : Constant → Lit
  | .int n => .int n
  | .float x => .float x
  | .bool b => .bool b
  | .str s => .str s
  | .other => .other

def operatorToRust : Operator → SBin
  | .add => .add
  | .sub => .sub
  | .mult => .mul
  | .div | .floorDiv => .div
  | .mod => .rem
  | .other => .other

def unaryToRust (op : UnaryOp) (e : SExpr) : SExpr :=
  match op with
  | .not => .unary .not e
  | .uSub => .unary .neg e
  | .uAdd => .paren e
  | .invert => .unary .other e

/-- `and` and `or`. -/
def boolToRust : BoolOp → SBin
  | .and => .and
  | .or => .or

/-- An operator between expressions, from the left. -/
def joinRust (op : SBin) : List SExpr → SExpr
  | [] => .other .unsupported
  | e :: es => es.foldl (fun acc e => .binary acc op e) e

/-- One comparison of a chain. -/
def linkToRust (op : Chain.AstCmpOp) (a b : SExpr) : SExpr :=
  match op with
  | .eq => .binary a .eq b
  | .notEq => .binary a .ne b
  | .lt => .binary a .lt b
  | .ltE => .binary a .le b
  | .gt => .binary a .gt b
  | .gtE => .binary a .ge b
  | .inOp => .methodCall b "contains" [a]
  | .notIn => .unary .not (.methodCall b "contains" [a])
  | .isOp | .isNot => .binary a .other b

/-- The comparisons of a chain, between neighbours. -/
def linksToRust : SExpr → List (Chain.AstCmpOp × SExpr) → List SExpr
  | _, [] => []
  | a, (op, b) :: ls => linkToRust op a b :: linksToRust b ls

/-- The name of a function that is called. -/
def astName : AstExpr → Option String
  | .name id => some id
  | _ => none

mutual

/-- An expression of Python in Rust: a chain is a conjunction of its comparisons. -/
def toRust : AstExpr → SExpr
  | .constant c => .lit (litOf c)
  | .name id => .path (some id)
  | .binOp a op b => .binary (toRust a) (operatorToRust op) (toRust b)
  | .unaryOp op e => unaryToRust op (toRust e)
  | .boolOp op values => joinRust (boolToRust op) (toRustAll values)
  | .compare left links => joinRust .and (linksToRust (toRust left) (toRustLinks links))
  | .ifExp test body orelse =>
    .ifElse (toRust test) [.expr (toRust body) false]
      (some (.block [.expr (toRust orelse) false]))
  | .subscript value slice =>
    match slice with
    | .other .slice => .other .unsupported
    | slice => .index (toRust value) (toRust slice)
  | .list elts => .array (toRustAll elts)
  | .call func args keywords =>
    match astName func, keywords with
    | some id, false => .call (.path (some id)) (toRustAll args)
    | _, _ => .other .unsupported
  | .other _ => .other .unsupported

def toRustAll : List AstExpr → List SExpr
  | [] => []
  | e :: es => toRust e :: toRustAll es

def toRustLinks : List (Chain.AstCmpOp × AstExpr) → List (Chain.AstCmpOp × SExpr)
  | [] => []
  | (op, e) :: ls => (op, toRust e) :: toRustLinks ls

end

/-! ## The programs stay the same -/

/-- Constants of both languages are accepted alike: the same range of integers, and the same
trees. -/
theorem toOption_lowerConst (l : Lit) :
    (lowerConst (constantOf l)).toOption = (RustFrontend.lowerLit l).toOption := by
  cases l with
  | int n =>
    rw [constantOf, lowerConst, RustFrontend.lowerLit]
    split_ifs <;> rfl
  | _ => rfl

/-- Two operands are one comparison, without a conjunction. -/
theorem lowerCompare_pair (op : Chain.AstCmpOp) (l r : Expr) :
    Chain.lowerCompare [l, r] [op] = Chain.oneCmp op l r := by
  cases op <;> rfl

/-- Both front ends call plain names only. -/
theorem toOption_callTarget (func : SExpr) :
    (RustFrontend.callTarget func).toOption = targetName func := by
  cases func with
  | path ident => cases ident <;> rfl
  | _ => rfl

/-- A binary expression, from its operands. -/
theorem toOption_binaryOf (locals : List (String × UInt16)) (op : SBin) (a b : AstExpr) :
    (lower locals (binaryOf op a b)).toOption =
      (lower locals a).toOption.bind fun l => (lower locals b).toOption.bind fun r =>
        (RustFrontend.lowerBinary op l r).toOption := by
  have hbin : ∀ o : Operator, (lower locals (.binOp a o b)).toOption =
      (lower locals a).toOption.bind fun l => (lower locals b).toOption.bind fun r =>
        (operatorOf o).toOption.bind fun o => some (.bin o l r) := fun o => by
    simp only [lower, Outcome.toOption_bind, Outcome.toOption_ok]
  have hbool : ∀ o : BoolOp, (lower locals (.boolOp o [a, b])).toOption =
      (lower locals a).toOption.bind fun l => (lower locals b).toOption.bind fun r =>
        some (.bool o l r) := fun o => by
    simp only [lower, lowerAll, Outcome.toOption_bind, Outcome.toOption_ok, Option.bind_assoc,
      Option.bind_some, foldBool, List.foldl_cons, List.foldl_nil]
  have hcmp : ∀ o : Chain.AstCmpOp, (lower locals (.compare a [(o, b)])).toOption =
      (lower locals a).toOption.bind fun l => (lower locals b).toOption.bind fun r =>
        (Chain.oneCmp o l r).toOption := fun o => by
    simp only [lower, lowerLinks, Outcome.toOption_bind, Outcome.toOption_ok, Option.bind_assoc,
      Option.bind_some, List.map_cons, List.map_nil, lowerCompare_pair]
  cases op with
  | add | sub | mul | div | rem | other => exact hbin _
  | and | or => exact hbool _
  | _ => exact hcmp _

/-! ### From Rust's tree -/

/-- What has no counterpart is not a slice either. -/
theorem toPython_ne_slice : ∀ e : SExpr, toPython e ≠ .other .slice
  | .paren e => by
    rw [toPython]
    exact toPython_ne_slice e
  | .group e => by
    rw [toPython]
    exact toPython_ne_slice e
  | .binary a op b => by
    rw [toPython]
    cases op <;> nofun
  | .path ident => by cases ident <;> nofun
  | .ifElse _ _ _ => by rw [toPython]; nofun
  | .call func args => by
    rw [toPython]
    split <;> nofun
  | .methodCall e method args => by
    rw [toPython.eq_def]
    dsimp only
    split
    · nofun
    · split <;> nofun
  | .lit _ | .unary _ _ | .index _ _ | .array _ | .block _ | .other _ => by rw [toPython]; nofun

mutual

/-- **An expression of Rust and its counterpart in Python become the same tree, or none**,
by induction on the expression. -/
theorem toOption_toPython (locals : List (String × UInt16)) : ∀ e : SExpr,
    (lower locals (toPython e)).toOption = (RustFrontend.lower locals e).toOption
  | .paren e => by
    rw [toPython, RustFrontend.lower]
    exact toOption_toPython locals e
  | .group e => by
    rw [toPython, RustFrontend.lower]
    exact toOption_toPython locals e
  | .lit l => by
    rw [toPython, RustFrontend.lower, lower]
    exact toOption_lowerConst l
  | .unary op e => by
    rw [toPython, lower, Outcome.toOption_bind, toOption_toPython locals e]
    cases op with
    | other =>
      rw [RustFrontend.lower, Outcome.toOption_err]
      exact Option.bind_eq_none_iff.mpr fun _ _ => rfl
    | _ =>
      rw [RustFrontend.lower, Outcome.toOption_bind]
      rfl
  | .binary a op b => by
    rw [toPython, toOption_binaryOf, toOption_toPython locals a, toOption_toPython locals b,
      RustFrontend.lower]
    simp only [Outcome.toOption_bind]
  | .path ident => by cases ident <;> rfl
  | .index e i => by
    rw [toPython, lower.eq_9 _ _ _ (toPython_ne_slice i), RustFrontend.lower]
    simp only [Outcome.toOption_bind, toOption_toPython locals e, toOption_toPython locals i]
  | .array es => by
    rw [toPython, lower, RustFrontend.lower]
    simp only [Outcome.toOption_bind, toOption_toPythonAll locals es]
  | .ifElse c b none => by
    rw [toPython, lower, RustFrontend.lower]
    simp only [Outcome.toOption_bind, branchToPython, lower, Outcome.toOption_err,
      Option.bind_none, Option.bind_fun_none]
    rfl
  | .ifElse c b (some e) => by
    rw [toPython, lower, RustFrontend.lower]
    simp only [Outcome.toOption_bind, toOption_toPython locals c, toOption_tailToPython locals b,
      toOption_branchToPython locals e, Option.isNone_some, Bool.false_eq_true, if_false]
  | .call func args => by
    rw [toPython, RustFrontend.lower, Outcome.toOption_bind, toOption_callTarget]
    cases targetName func with
    | none => rfl
    | some name =>
      dsimp only
      rw [lower, callTarget, Outcome.ok_bind]
      simp only [Bool.false_eq_true, if_false, Outcome.toOption_bind,
        toOption_toPythonAll locals args, Option.bind_some]
  | .methodCall e method args => by
    rw [toPython.eq_def, RustFrontend.lower.eq_def]
    dsimp only
    split_ifs with hmethod
    · rfl
    · match args with
      | [] => rfl
      | [x] =>
        dsimp only
        rw [lower]
        simp only [lowerLinks, Outcome.toOption_bind, Outcome.toOption_ok, Option.bind_assoc,
          Option.bind_some, List.map_cons, List.map_nil, lowerCompare_pair,
          toOption_toPython locals e, toOption_toPython locals x]
        -- the operands change places
        cases (RustFrontend.lower locals e).toOption <;>
          cases (RustFrontend.lower locals x).toOption <;> rfl
      | _ :: _ :: _ => rfl
  | .block _ | .other _ => by rw [toPython, lower, RustFrontend.lower]; rfl

/-- Arguments are translated and lowered one by one. -/
theorem toOption_toPythonAll (locals : List (String × UInt16)) : ∀ es : List SExpr,
    (lowerAll locals (toPythonAll es)).toOption = (RustFrontend.lowerAll locals es).toOption
  | [] => rfl
  | e :: es => by
    rw [toPythonAll, lowerAll, RustFrontend.lowerAll]
    simp only [Outcome.toOption_bind, toOption_toPython locals e, toOption_toPythonAll locals es]

/-- The expression at the end of a block stands for the block. -/
theorem toOption_tailToPython (locals : List (String × UInt16)) : ∀ b : List Stmt,
    (lower locals (tailToPython b)).toOption = (RustFrontend.lowerTail locals b).toOption
  | [.expr e false] => by
    rw [tailToPython, RustFrontend.lowerTail]
    exact toOption_toPython locals e
  | [] | [.expr _ true] | [.letIn _ _] | [.other] => rfl
  | _ :: _ :: _ => by
    rw [tailToPython, RustFrontend.lowerTail]
    · rfl
    all_goals rintro _ ⟨⟩

/-- An `else` becomes the second branch of Python's conditional. -/
theorem toOption_branchToPython (locals : List (String × UInt16)) : ∀ e : SExpr,
    (lower locals (branchToPython (some e))).toOption =
      (RustFrontend.lowerBranch locals (some e)).toOption
  | e => by
    by_cases hblock : ∃ stmts, e = .block stmts
    · obtain ⟨stmts, rfl⟩ := hblock
      exact toOption_tailToPython locals stmts
    · have hother : ∀ stmts, e ≠ .block stmts := fun stmts hs => hblock ⟨stmts, hs⟩
      rw [branchToPython.eq_3 _ hother, RustFrontend.lowerBranch.eq_3 _ _ hother]
      exact toOption_toPython locals e

end

/-! ### Chains and conjunctions -/

/-- An operator between expressions becomes a fold over their trees. -/
theorem toOption_foldBinary (locals : List (String × UInt16)) (op : BoolOp) (es : List SExpr) :
    ∀ acc : SExpr, (RustFrontend.lower locals
        (es.foldl (fun acc e => .binary acc (boolToRust op) e) acc)).toOption =
      (RustFrontend.lower locals acc).toOption.bind fun t =>
        (RustFrontend.lowerAll locals es).toOption.bind fun ts =>
          some (ts.foldl (.bool op) t) := by
  have hop : ∀ l r : Expr, RustFrontend.lowerBinary (boolToRust op) l r = .ok (.bool op l r) := by
    cases op <;> exact fun _ _ => rfl
  induction es with
  | nil =>
    intro acc
    rw [RustFrontend.lowerAll, List.foldl_nil]
    cases (RustFrontend.lower locals acc).toOption <;> rfl
  | cons e es ih =>
    intro acc
    rw [List.foldl_cons, ih, RustFrontend.lower, RustFrontend.lowerAll]
    simp only [Outcome.toOption_bind, Outcome.toOption_ok, Option.bind_assoc, hop,
      Option.bind_some, List.foldl_cons]

/-- The conjunction or disjunction of trees, if there is one at least. -/
def joinTrees (op : BoolOp) : List Expr → Option Expr
  | [] => none
  | t :: ts => some (ts.foldl (.bool op) t)

/-- A list of operands joined by a Rust operator lowers to the trees of its operands, joined. -/
theorem toOption_joinRust (locals : List (String × UInt16)) (op : BoolOp) (es : List SExpr) :
    (RustFrontend.lower locals (joinRust (boolToRust op) es)).toOption =
      (RustFrontend.lowerAll locals es).toOption.bind (joinTrees op) := by
  cases es with
  | nil => rfl
  | cons e es =>
    rw [joinRust, toOption_foldBinary, RustFrontend.lowerAll]
    simp only [Outcome.toOption_bind, Outcome.toOption_ok, Option.bind_assoc, Option.bind_some,
      joinTrees]

/-- The operands of Python's list are joined from the left. -/
theorem toOption_foldBool (op : BoolOp) (ts : List Expr) :
    (foldBool op ts).toOption = joinTrees op ts := by
  cases ts <;> rfl

/-- A chain is lowered to the conjunction of its comparisons, so it can be written with `&&`. -/
theorem toOption_lowerCompare (operands : List Expr) (ops : List Chain.AstCmpOp) :
    (Chain.lowerCompare operands ops).toOption =
      (Chain.oneCmps operands 0 ops).toOption.bind (joinTrees .and) := by
  rw [Chain.lowerCompare, Outcome.toOption_bind]
  congr 1
  funext ts
  cases ts <;> rfl

/-- One comparison, from its operands. -/
theorem toOption_linkToRust (locals : List (String × UInt16)) (op : Chain.AstCmpOp)
    (a b : SExpr) : (RustFrontend.lower locals (linkToRust op a b)).toOption =
      (RustFrontend.lower locals a).toOption.bind fun l =>
        (RustFrontend.lower locals b).toOption.bind fun r => (Chain.oneCmp op l r).toOption := by
  have hcontains : (RustFrontend.lower locals (.methodCall b "contains" [a])).toOption =
      (RustFrontend.lower locals a).toOption.bind fun l =>
        (RustFrontend.lower locals b).toOption.bind fun r => some (.call .contains [r, l]) := by
    rw [RustFrontend.lower, if_neg (not_not.mpr rfl)]
    simp only [Outcome.toOption_bind, Outcome.toOption_ok]
    cases (RustFrontend.lower locals a).toOption <;>
      cases (RustFrontend.lower locals b).toOption <;> rfl
  have hbinary : ∀ op : SBin, (RustFrontend.lower locals (.binary a op b)).toOption =
      (RustFrontend.lower locals a).toOption.bind fun l =>
        (RustFrontend.lower locals b).toOption.bind fun r =>
          (RustFrontend.lowerBinary op l r).toOption := fun op => by
    rw [RustFrontend.lower]
    simp only [Outcome.toOption_bind]
  cases op with
  | inOp => exact hcontains
  | notIn =>
    rw [linkToRust, RustFrontend.lower]
    simp only [Outcome.toOption_bind, hcontains, Option.bind_assoc, Option.bind_some]
    rfl
  | _ => exact hbinary _

/-- The first comparison behind some operands. -/
theorem oneCmps_cons (pre : List Expr) (t u : Expr) (ts : List Expr) (op : Chain.AstCmpOp)
    (ops : List Chain.AstCmpOp) :
    Chain.oneCmps (pre ++ t :: u :: ts) pre.length (op :: ops) = (do
      let term ← Chain.oneCmp op t u
      let terms ← Chain.oneCmps (pre ++ [t] ++ u :: ts) (pre ++ [t]).length ops
      .ok (term :: terms)) := by
  have ht : (pre ++ t :: u :: ts)[pre.length]? = some t := by simp
  have hu : (pre ++ t :: u :: ts)[pre.length + 1]? = some u := by
    rw [List.getElem?_append_right (Nat.le_succ _)]
    simp
  rw [Chain.oneCmps, ht, hu, List.append_assoc, List.length_append]
  rfl

/-- The comparisons of a chain, behind operands that are there already. -/
theorem toOption_linksToRust (locals : List (String × UInt16))
    (ls : List (Chain.AstCmpOp × SExpr)) : ∀ (pre : List Expr) {a : SExpr} {t : Expr},
      (RustFrontend.lower locals a).toOption = some t →
      (RustFrontend.lowerAll locals (linksToRust a ls)).toOption =
        (RustFrontend.lowerAll locals (ls.map Prod.snd)).toOption.bind fun ts =>
          (Chain.oneCmps (pre ++ t :: ts) pre.length (ls.map Prod.fst)).toOption := by
  induction ls with
  | nil => exact fun pre a t ha => rfl
  | cons l ls ih =>
    intro pre a t ha
    obtain ⟨op, b⟩ := l
    rw [linksToRust, List.map_cons, List.map_cons, RustFrontend.lowerAll, RustFrontend.lowerAll]
    simp only [Outcome.toOption_bind, toOption_linkToRust, ha, Option.bind_some]
    cases hb : (RustFrontend.lower locals b).toOption with
    | none => rfl
    | some u =>
      rw [ih (pre ++ [t]) hb]
      simp only [Option.bind_some, Option.bind_assoc, Outcome.toOption_ok, oneCmps_cons,
        Outcome.toOption_bind]
      -- the comparison is made before the operands behind it are lowered, or after
      cases (Chain.oneCmp op t u).toOption <;>
        cases (RustFrontend.lowerAll locals (ls.map Prod.snd)).toOption <;> rfl

/-- Without its first operand a chain with a comparison is refused. -/
theorem toOption_linksToRust_of_none {locals : List (String × UInt16)} {a : SExpr}
    (ha : (RustFrontend.lower locals a).toOption = none)
    (ls : List (Chain.AstCmpOp × SExpr)) :
    (RustFrontend.lowerAll locals (linksToRust a ls)).toOption.bind (joinTrees .and) = none := by
  cases ls with
  | nil => rfl
  | cons l ls =>
    rw [linksToRust, RustFrontend.lowerAll]
    simp only [Outcome.toOption_bind, toOption_linkToRust, ha, Option.bind_none]

/-- A chain, from its operands. -/
theorem toOption_chain (locals : List (String × UInt16)) (a : SExpr)
    (ls : List (Chain.AstCmpOp × SExpr)) :
    (RustFrontend.lower locals (joinRust .and (linksToRust a ls))).toOption =
      (RustFrontend.lower locals a).toOption.bind fun t =>
        (RustFrontend.lowerAll locals (ls.map Prod.snd)).toOption.bind fun ts =>
          (Chain.lowerCompare (t :: ts) (ls.map Prod.fst)).toOption := by
  have hjoin := toOption_joinRust locals .and (linksToRust a ls)
  rw [boolToRust] at hjoin
  rw [hjoin]
  cases ha : (RustFrontend.lower locals a).toOption with
  | none => exact toOption_linksToRust_of_none ha ls
  | some t =>
    rw [toOption_linksToRust locals ls [] ha]
    simp only [Option.bind_assoc, Option.bind_some, toOption_lowerCompare]
    rfl

/-! ### Python in Rust -/

/-- A constant and the literal that it is written as are accepted alike. -/
theorem toOption_litOf (c : Constant) :
    (RustFrontend.lowerLit (litOf c)).toOption = (lowerConst c).toOption := by
  cases c with
  | int n =>
    rw [litOf, lowerConst, RustFrontend.lowerLit]
    split_ifs <;> rfl
  | _ => rfl

/-- A name of Python is called under the same conditions. -/
theorem toOption_astName (func : AstExpr) : (callTarget func).toOption = astName func := by
  cases func <;> rfl

/-- The translation of a chain keeps its comparisons. -/
theorem fst_toRustLinks (ls : List (Chain.AstCmpOp × AstExpr)) :
    (toRustLinks ls).map Prod.fst = ls.map Prod.fst := by
  induction ls with
  | nil => rfl
  | cons l ls ih => rw [toRustLinks, List.map_cons, List.map_cons, ih]

mutual

/-- **An expression of Python and its counterpart in Rust become the same tree, or none**,
by induction on the expression. -/
theorem toOption_toRust (locals : List (String × UInt16)) : ∀ e : AstExpr,
    (RustFrontend.lower locals (toRust e)).toOption = (lower locals e).toOption
  | .constant c => by
    rw [toRust, RustFrontend.lower, lower]
    exact toOption_litOf c
  | .name id => rfl
  | .binOp a op b => by
    rw [toRust, RustFrontend.lower, lower]
    simp only [Outcome.toOption_bind, toOption_toRust locals a, toOption_toRust locals b]
    cases op <;> rfl
  | .unaryOp op e => by
    rw [toRust, lower, Outcome.toOption_bind, ← toOption_toRust locals e]
    -- a complement is refused on both sides, and a plus sign leaves parentheses
    cases op with
    | invert => exact (Option.bind_eq_none_iff.mpr fun _ _ => rfl).symm
    | uAdd =>
      rw [unaryToRust, RustFrontend.lower]
      cases (RustFrontend.lower locals (toRust e)).toOption <;> rfl
    | _ =>
      rw [unaryToRust, RustFrontend.lower, Outcome.toOption_bind]
      rfl
  | .boolOp op values => by
    rw [toRust, toOption_joinRust, toOption_toRustAll locals values, lower, Outcome.toOption_bind]
    simp only [toOption_foldBool]
  | .compare left links => by
    rw [toRust, toOption_chain, toOption_toRust locals left, lower]
    simp only [Outcome.toOption_bind, toOption_toRustLinks locals links, fst_toRustLinks]
  | .ifExp test body orelse => by
    rw [toRust, RustFrontend.lower, lower]
    simp only [Option.isNone_some, Bool.false_eq_true, if_false, RustFrontend.lowerTail,
      RustFrontend.lowerBranch, Outcome.toOption_bind, toOption_toRust locals test,
      toOption_toRust locals body, toOption_toRust locals orelse]
  | .subscript value slice => by
    -- a slice is refused on both sides
    by_cases hslice : slice = .other .slice
    · subst hslice
      rfl
    · rw [toRust.eq_9 _ _ hslice, RustFrontend.lower, lower.eq_9 _ _ _ hslice]
      simp only [Outcome.toOption_bind, toOption_toRust locals value, toOption_toRust locals slice]
  | .list elts => by
    rw [toRust, RustFrontend.lower, lower]
    simp only [Outcome.toOption_bind, toOption_toRustAll locals elts]
  | .call func args keywords => by
    rw [toRust.eq_def, lower, Outcome.toOption_bind, toOption_astName]
    dsimp only
    cases astName func with
    | none => rfl
    | some id =>
      cases keywords with
      | true => rfl
      | false =>
        rw [RustFrontend.lower, RustFrontend.callTarget, RustFrontend.identOr, Outcome.ok_bind]
        simp only [Bool.false_eq_true, if_false, Outcome.toOption_bind, Option.bind_some,
          toOption_toRustAll locals args]
  | .other kind => by
    rw [lower]
    rfl

/-- Arguments are translated and lowered one by one. -/
theorem toOption_toRustAll (locals : List (String × UInt16)) : ∀ es : List AstExpr,
    (RustFrontend.lowerAll locals (toRustAll es)).toOption = (lowerAll locals es).toOption
  | [] => rfl
  | e :: es => by
    rw [toRustAll, lowerAll, RustFrontend.lowerAll]
    simp only [Outcome.toOption_bind, toOption_toRust locals e, toOption_toRustAll locals es]

/-- So are the operands of a chain. -/
theorem toOption_toRustLinks (locals : List (String × UInt16)) :
    ∀ ls : List (Chain.AstCmpOp × AstExpr),
      (RustFrontend.lowerAll locals ((toRustLinks ls).map Prod.snd)).toOption =
        (lowerLinks locals ls).toOption
  | [] => rfl
  | (op, e) :: ls => by
    rw [toRustLinks, List.map_cons, lowerLinks, RustFrontend.lowerAll]
    simp only [Outcome.toOption_bind, toOption_toRust locals e, toOption_toRustLinks locals ls]

end

/-! ## The two front ends -/

/-- A program of one expression, from what the expression becomes. -/
theorem compileBlock_expr_eq_ok (e : SExpr) (p : Program) :
    RustFrontend.compileBlock [.expr e false] = .ok p ↔
      ∃ t, (RustFrontend.lower [] e).toOption = some t ∧
        RustFrontend.finish ⟨[], 0, []⟩ t = p := by
  rw [RustFrontend.compileBlock, RustFrontend.lowerStmts, RustFrontend.lowerLast]
  simp [Outcome.bind_eq_ok, Outcome.toOption_eq_some]

/-- A program of Python is one expression, with no names bound. -/
theorem compileExpr_eq_ok (e : AstExpr) (p : Program) :
    compileExpr e = .ok p ↔ ∃ t, (lower [] e).toOption = some t ∧
      RustFrontend.finish ⟨[], 0, []⟩ t = p := by
  rw [compileExpr]
  simp [Outcome.bind_eq_ok, Outcome.toOption_eq_some]

/-- **The front ends agree**: an expression and its counterpart in the other language are
both compiled, as the same program, or both refused. -/
theorem front_ends_agree :
    (∀ (e : SExpr) (p : Program), RustFrontend.compileBlock [.expr e false] = .ok p ↔
      compileExpr (toPython e) = .ok p) ∧
    ∀ (e : AstExpr) (p : Program), compileExpr e = .ok p ↔
      RustFrontend.compileBlock [.expr (toRust e) false] = .ok p := by
  constructor
  · intro e p
    rw [compileBlock_expr_eq_ok, compileExpr_eq_ok, toOption_toPython]
  · intro e p
    rw [compileBlock_expr_eq_ok, compileExpr_eq_ok, toOption_toRust]

end PyFrontend
