/-
# The on-device parser

The recursive-descent parser of `parse.rs`, level by level under the source's
names, as `TokenParser`s over the tokens that `lex` returns.  A level that
descends into itself through brackets takes the parsers of the inner levels as
arguments, `cond` for `conditional` and `orE` for `or_expr`; `conditional` and
`orExpr` tie the knot, with a bound on the nesting depth.  Twice the number of
tokens is always enough (`consumes_conditional`).

The slot counter of `declare` is 16 bits wide, and the 65536th binding overflows
it, which is a panic (`declare_returns_iff`).
-/
import PySpell.Lex
import PySpell.Lib.TokenParser

open TokenParser

namespace Parse

/-- A parser of the on-device language. -/
abbrev P (α : Type) := TokenParser Tok DslError α

/-- The derived `Debug` text of a token.  Tokens with a payload start an
expression, so they never stand in a message. -/
def debugTok : Tok → String
  | .int _ => "Int"
  | .float _ => "Float"
  | .bool _ => "Bool"
  | .str _ => "Str"
  | .ident _ => "Ident"
  | .letKw => "Let"
  | .ifKw => "If"
  | .elseKw => "Else"
  | .inKw => "In"
  | .andKw => "And"
  | .orKw => "Or"
  | .notKw => "Not"
  | .plus => "Plus"
  | .minus => "Minus"
  | .star => "Star"
  | .slash => "Slash"
  | .percent => "Percent"
  | .eqEq => "EqEq"
  | .ne => "Ne"
  | .lt => "Lt"
  | .le => "Le"
  | .gt => "Gt"
  | .ge => "Ge"
  | .andAnd => "AndAnd"
  | .orOr => "OrOr"
  | .bang => "Bang"
  | .lParen => "LParen"
  | .rParen => "RParen"
  | .lBracket => "LBracket"
  | .rBracket => "RBracket"
  | .lBrace => "LBrace"
  | .rBrace => "RBrace"
  | .comma => "Comma"
  | .dot => "Dot"
  | .assign => "Assign"
  | .semi => "Semi"

/-- `builtin_from`; `contains` is a method and has no function name. -/
def builtinTable : List (String × Builtin) :=
  [("len", .len), ("abs", .abs), ("min", .min), ("max", .max), ("sum", .sum), ("any", .any),
    ("all", .all), ("round", .round), ("int", .int), ("float", .float), ("bool", .bool),
    ("index", .indexOf), ("before", .before), ("first", .first), ("last", .last), ("str", .str),
    ("json_get", .jsonGet), ("fetch", .fetch), ("fetch_json", .fetchJson), ("show", .show),
    ("print", .print), ("led", .led), ("flash", .flash), ("upper", .upper), ("lower", .lower),
    ("reverse", .reverse)]

def builtinFrom (name : String) : Outcome DslError Builtin :=
  match builtinTable.lookup name with
  | some b => .ok b
  | none => .err (.forbidden ("function `" ++ name ++ "()`"))

/-- `expect`. -/
def expectTok (t : Tok) (what : String) : P Unit := expect t (.parse ("expected " ++ what))

/-! ## Locals -/

/-- `declare`: the next slot, and the locals with the new name. -/
def declare (locals : List (String × UInt16)) (nextSlot : UInt16) (name : String) :
    Outcome DslError (UInt16 × UInt16 × List (String × UInt16)) :=
  if nextSlot.toNat + 1 < 2 ^ 16 then
    .ok (nextSlot, nextSlot + 1, locals ++ [(name, nextSlot)])
  else .panic

/-- `resolve`: the last binding wins. -/
def resolve (locals : List (String × UInt16)) (name : String) : Expr :=
  match locals.reverse.lookup name with
  | some slot => .local slot
  | none => .var name

/-! ## Expressions -/

section Levels

variable (lang : Lang) (locals : List (String × UInt16)) (cond orE : P Expr)

/-- The arguments of a call or the items of a list, up to the closing token. -/
def itemsUntil (close : Tok) (items : P (List Expr)) : P (List Expr) := do
  if (← peek) = some close then pure [] else items

/-- `else if …` or `else { … }`. -/
def elsePart (chain : P Expr) : P Expr := do
  if (← peek) = some .ifKw then
    let _ ← advance
    chain
  else
    expectTok .lBrace "`\x7b` after `else`"
    let e ← cond
    expectTok .rBrace "`\x7d`"
    pure e

/-! ### Primaries -/

/-- `rust_if`, with a bound on the length of an `else if` chain. -/
def rustIf : ℕ → P Expr
  | 0 => fun _ => .outOfFuel
  | n + 1 => do
    let c ← orE
    expectTok .lBrace "`\x7b` after `if`"
    let t ← cond
    expectTok .rBrace "`\x7d`"
    expectTok .elseKw "`else` (if without else is not allowed)"
    let e ← elsePart cond (rustIf n)
    pure (.ite c t e)

/-- What may follow a name: the arguments of a call, or nothing. -/
def callOrName (name : String) : P Expr := do
  if (← peek) = some .lParen then
    let _ ← advance
    let args ← itemsUntil .rParen (commaList .comma (fun _ => false) cond)
    expectTok .rParen "`)`"
    let b ← lift (builtinFrom name)
    pure (.call b args)
  else pure (resolve locals name)

/-- `primary`. -/
def primary : P Expr := do
  match ← advance with
  | some (.int n) => pure (.const (.int n))
  | some (.float x) => pure (.const (.float x))
  | some (.bool b) => pure (.const (.bool b))
  | some (.str s) => pure (.const (.str s))
  | some .lParen =>
    let e ← cond
    expectTok .rParen "`)`"
    pure e
  | some .lBracket =>
    -- a comma may stand before the closing bracket
    let items ← itemsUntil .rBracket (commaList .comma (· = some .rBracket) cond)
    expectTok .rBracket "`]`"
    pure (.list items)
  | some .ifKw =>
    if lang = .rust then fun ts => rustIf cond orE (ts.length + 1) ts
    else fail (.parse ("unexpected token " ++ debugTok .ifKw))
  | some (.ident name) => callOrName locals cond name
  | some t => fail (.parse ("unexpected token " ++ debugTok t))
  | none => fail (.parse "unexpected end of input")

/-! ### What follows a primary -/

/-- `[idx]`, after the bracket. -/
def indexSuffix : P (Expr → Expr) := do
  let idx ← cond
  expectTok .rBracket "`]`"
  pure fun e => .index e idx

/-- `.contains(arg)`, after the point. -/
def methodSuffix : P (Expr → Expr) := do
  match ← advance with
  | some (.ident method) =>
    if method ≠ "contains" then fail (.forbidden "only `.contains()` is allowed")
    else
      expectTok .lParen "`(`"
      let arg ← cond
      expectTok .rParen "`)`"
      pure fun e => .call .contains [e, arg]
  | _ => fail (.forbidden "method call")

def postfixOp : Tok → Option (P (Expr → Expr))
  | .lBracket => some (indexSuffix cond)
  | .dot => some (methodSuffix cond)
  | _ => none

/-- `postfix`. -/
def postfixExpr : P Expr := suffixed (postfixOp cond) (primary lang locals cond orE)

/-! ### Signs, products and sums -/

def negOp : Tok → Option (Expr → Expr)
  | .minus => some (.unary .neg)
  | _ => none

/-- `unary`. -/
def unary : P Expr := prefixed negOp (postfixExpr lang locals cond orE)

def mulOp : Tok → Option (Expr → Expr → Expr)
  | .star => some (.bin .mul)
  | .slash => some (.bin .div)
  | .percent => some (.bin .rem)
  | _ => none

/-- `mul_expr`. -/
def mulExpr : P Expr := leftAssoc mulOp (unary lang locals cond orE)

def addOp : Tok → Option (Expr → Expr → Expr)
  | .plus => some (.bin .add)
  | .minus => some (.bin .sub)
  | _ => none

/-- `add_expr`. -/
def addExpr : P Expr := leftAssoc addOp (mulExpr lang locals cond orE)

/-! ### Comparisons -/

inductive CmpKind where
  | cmp (op : CmpOp) | isIn | notIn

/-- The comparison that comes next, if any; it is consumed. -/
def cmpKind : P (Option CmpKind)
  | .eqEq :: ts => .ok (some (.cmp .eq), ts)
  | .ne :: ts => .ok (some (.cmp .ne), ts)
  | .lt :: ts => .ok (some (.cmp .lt), ts)
  | .le :: ts => .ok (some (.cmp .le), ts)
  | .gt :: ts => .ok (some (.cmp .gt), ts)
  | .ge :: ts => .ok (some (.cmp .ge), ts)
  | .inKw :: ts => .ok (some .isIn, ts)
  | .notKw :: .inKw :: ts => .ok (some .notIn, ts)
  | ts => .ok (none, ts)

/-- The loop that collects the operands and the comparisons of a chain. -/
def cmpLoop (operand : P Expr) : ℕ → List Expr → List CmpKind → P (List Expr × List CmpKind)
  | 0, _, _ => fun _ => .outOfFuel
  | n + 1, operands, ops => do
    match ← cmpKind with
    | none => pure (operands, ops)
    | some k =>
      let e ← operand
      cmpLoop operand n (operands ++ [e]) (ops ++ [k])

/-- One comparison; `x in list` is `contains(list, x)`. -/
def cmpTerm (k : CmpKind) (lhs rhs : Expr) : Expr :=
  match k with
  | .cmp op => .cmp op lhs rhs
  | .isIn => .call .contains [rhs, lhs]
  | .notIn => .unary .not (.call .contains [rhs, lhs])

/-- The comparisons of a chain from the `i`th on: each takes two neighbours of the
operands, and a missing one is an index out of range. -/
def cmpTerms (operands : List Expr) : ℕ → List CmpKind → Outcome DslError (List Expr)
  | _, [] => .ok []
  | i, k :: ks => do
    let lhs ← .unwrap operands[i]?
    let rhs ← .unwrap operands[i + 1]?
    let terms ← cmpTerms operands (i + 1) ks
    .ok (cmpTerm k lhs rhs :: terms)

/-- The conjunction of the comparisons; without a first one, `unwrap` panics. -/
def conjunction : List Expr → Outcome DslError Expr
  | [] => .panic
  | term :: terms => .ok (terms.foldl (.bool .and) term)

/-- The expression of a chain. -/
def cmpChain (operands : List Expr) (ops : List CmpKind) : Outcome DslError Expr :=
  match ops with
  | [] => .unwrap operands.getLast?
  | _ :: _ => do
    let terms ← cmpTerms operands 0 ops
    conjunction terms

/-- `cmp_expr`. -/
def cmpExpr : P Expr := fun ts => (do
  let first ← addExpr lang locals cond orE
  let (operands, ops) ← cmpLoop (addExpr lang locals cond orE) (ts.length + 1) [first] []
  lift (cmpChain operands ops) : P Expr) ts

/-! ### Truth -/

def notOp : Tok → Option (Expr → Expr)
  | .notKw => some (.unary .not)
  | .bang => some (.unary .not)
  | _ => none

/-- `not_expr`. -/
def notExpr : P Expr := prefixed notOp (cmpExpr lang locals cond orE)

def andOp : Tok → Option (Expr → Expr → Expr)
  | .andKw => some (.bool .and)
  | .andAnd => some (.bool .and)
  | _ => none

/-- `and_expr`. -/
def andExpr : P Expr := leftAssoc andOp (notExpr lang locals cond orE)

def orOp : Tok → Option (Expr → Expr → Expr)
  | .orKw => some (.bool .or)
  | .orOr => some (.bool .or)
  | _ => none

/-- `or_expr`. -/
def orLevel : P Expr := leftAssoc orOp (andExpr lang locals cond orE)

/-! ### Conditionals -/

/-- `test else orelse`, after the `if` of a Python conditional. -/
def pythonElse (e : Expr) : P Expr := do
  let test ← orE
  expectTok .elseKw "`else` in conditional expression"
  let orelse ← cond
  pure (.ite test e orelse)

/-- `conditional`. -/
def condLevel : P Expr := do
  let e ← orE
  if lang = .python ∧ (← peek) = some .ifKw then
    let _ ← advance
    pythonElse cond orE e
  else pure e

end Levels

mutual

/-- `conditional`, with a bound on the nesting depth. -/
def conditional (lang : Lang) (locals : List (String × UInt16)) : ℕ → P Expr
  | 0 => fun _ => .outOfFuel
  | n + 1 => condLevel lang (conditional lang locals n) (orExpr lang locals n)

/-- `or_expr`, with a bound on the nesting depth. -/
def orExpr (lang : Lang) (locals : List (String × UInt16)) : ℕ → P Expr
  | 0 => fun _ => .outOfFuel
  | n + 1 => orLevel lang locals (conditional lang locals n) (orExpr lang locals n)

end

/-- An expression, with depth enough for the tokens that are left. -/
def expr (lang : Lang) (locals : List (String × UInt16)) : P Expr := fun ts =>
  conditional lang locals (2 * ts.length + 2) ts

/-! ## Programs -/

/-- The bindings of a program: what `declare` and `body.push` update. -/
structure Bindings where
  locals : List (String × UInt16)
  nextSlot : UInt16
  body : List LetBinding

/-- `name = e;`, after `let`. -/
def letStatement (locals : List (String × UInt16)) : P (String × Expr) := do
  match ← advance with
  | some (.ident name) =>
    expectTok .assign "`=`"
    let e ← expr .rust locals
    expectTok .semi "`;`"
    pure (name, e)
  | _ => fail (.parse "expected name after `let`")

/-- `self.declare(name)` and `self.body.push(..)`. -/
def bindLocal (b : Bindings) (name : String) (e : Expr) : Outcome DslError Bindings := do
  let (slot, nextSlot, locals) ← declare b.locals b.nextSlot name
  .ok ⟨locals, nextSlot, b.body ++ [⟨slot, e⟩]⟩

/-- The loop over the `let`s of a Rust program. -/
def letLoop : ℕ → Bindings → P Bindings
  | 0, _ => fun _ => .outOfFuel
  | n + 1, b => do
    if (← peek) = some .letKw then
      let _ ← advance
      let (name, e) ← letStatement b.locals
      let b ← lift (bindLocal b name e)
      letLoop n b
    else pure b

/-- The bindings of a Rust program; a Python program has none. -/
def bindings (lang : Lang) : P Bindings := fun ts =>
  if lang = .rust then letLoop (ts.length + 1) ⟨[], 0, []⟩ ts else .ok (⟨[], 0, []⟩, ts)

/-- The final expression; a semicolon behind it is tolerated. -/
def finalExpr (lang : Lang) (b : Bindings) : P (Bindings × Expr) := do
  let ret ← expr lang b.locals
  let _ ← eat Tok.semi
  if (← peek) = none then pure (b, ret)
  else fail (.parse "trailing tokens after expression")

/-- `program`: in Rust, `let`s and a final expression; in Python, one expression. -/
def program (lang : Lang) : P (Bindings × Expr) := do
  let b ← bindings lang
  finalExpr lang b

/-- `parse`. -/
def parse (src : String) (lang : Lang) : Outcome DslError Program := do
  let toks ← Lex.lex src
  let ((b, ret), _) ← program lang toks
  .ok ⟨b.body, ret, b.nextSlot, defaultMaxSteps⟩

end Parse
