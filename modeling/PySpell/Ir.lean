/-
# Values, errors and the intermediate representation

The data that the front ends, the wire format and both evaluators share:
`value.rs`, `error.rs` and `ir.rs` of `pyspell-core`.  Integers are 64-bit,
floats are binary64, slots are 16-bit.  Reference counting is not visible in the
model: a shared string or list is the string or list itself.
-/
import Mathlib.Data.List.Basic
import PySpell.Lib.Binary64

/-! ## Values -/

/-- A runtime value. -/
inductive Value where
  | int (n : Int64)
  | float (x : Binary64)
  | bool (b : Bool)
  | str (s : String)
  | list (l : List Value)
  deriving Repr, Inhabited

namespace Value

mutual

/-- Structural identity of values. -/
def same : Value → Value → Bool
  | .int a, .int b => a = b
  | .float a, .float b => a = b
  | .bool a, .bool b => a = b
  | .str a, .str b => a = b
  | .list a, .list b => sameList a b
  | _, _ => false

def sameList : List Value → List Value → Bool
  | [], [] => true
  | a :: as, b :: bs => same a b && sameList as bs
  | _, _ => false

end

mutual

theorem same_iff : ∀ a b : Value, same a b = true ↔ a = b
  | .int _, b => by cases b <;> simp [same]
  | .float _, b => by cases b <;> simp [same]
  | .bool _, b => by cases b <;> simp [same]
  | .str _, b => by cases b <;> simp [same]
  | .list l, b => by
    cases b with
    | list l' => simpa [same] using sameList_iff l l'
    | _ => simp [same]

theorem sameList_iff : ∀ l l' : List Value, sameList l l' = true ↔ l = l'
  | [], l' => by cases l' <;> simp [sameList]
  | a :: as, l' => by
    cases l' with
    | nil => simp [sameList]
    | cons b bs => simp [sameList, same_iff a b, sameList_iff as bs]

end

instance : DecidableEq Value := fun a b => decidable_of_iff _ (same_iff a b)

end Value

/-! ## Errors -/

/-- `DslError`: compile-time and evaluation-time errors. -/
inductive DslError where
  | parse (m : String)
  | forbidden (m : String)
  | unknownName (n : String)
  | arity (builtin : String) (got : ℕ)
  | type (m : String)
  | budget
  | memoryLimit
  | timeout
  | wire (m : String)
  | net (m : String)
  | display (m : String)
  deriving DecidableEq, Repr, Inhabited

/-- The text of an error. -/
def DslError.text : DslError → String
  | .parse m => s!"parse error: {m}"
  | .forbidden m => s!"not allowed: {m}"
  | .unknownName n => s!"unknown name `{n}`"
  | .arity builtin got => s!"builtin `{builtin}` called with {got} argument(s)"
  | .type m => s!"type error: {m}"
  | .budget => "program exceeded its evaluation step budget"
  | .memoryLimit => "program exceeded its memory budget"
  | .timeout => "program exceeded its time limit"
  | .wire m => s!"wire error: {m}"
  | .net m => s!"network error: {m}"
  | .display m => s!"display error: {m}"

/-! ## Expressions and programs -/

inductive BinOp where
  | add | sub | mul | div | rem
  deriving DecidableEq, Repr

inductive CmpOp where
  | eq | ne | lt | le | gt | ge
  deriving DecidableEq, Repr

inductive BoolOp where
  | and | or
  deriving DecidableEq, Repr

inductive UnOp where
  | neg | not
  deriving DecidableEq, Repr

inductive Builtin where
  | len | abs | min | max | sum | any | all | round | int | float | bool
  | contains | indexOf | before | first | last | str | jsonGet
  | fetch | fetchJson | show | print | led | flash | upper | lower | reverse
  deriving DecidableEq, Repr

inductive Expr where
  | const (v : Value)
  /-- A free identifier, looked up in the host environment. -/
  | var (name : String)
  /-- A `let`-bound local, by slot. -/
  | local (slot : UInt16)
  | bin (op : BinOp) (a b : Expr)
  | cmp (op : CmpOp) (a b : Expr)
  | bool (op : BoolOp) (a b : Expr)
  | unary (op : UnOp) (a : Expr)
  | index (l i : Expr)
  | ite (c t e : Expr)
  | call (b : Builtin) (args : List Expr)
  | list (items : List Expr)
  deriving Repr, Inhabited

structure LetBinding where
  slot : UInt16
  expr : Expr
  deriving Repr

/-- Ordered `let` bindings, then a return expression. -/
structure Program where
  body : List LetBinding
  ret : Expr
  nLocals : UInt16
  maxSteps : UInt32
  deriving Repr

/-- `DEFAULT_MAX_STEPS`. -/
def defaultMaxSteps : UInt32 := 4096

/-- `builtin_name`: the name a builtin reports in its errors. -/
def builtinName : Builtin → String
  | .len => "len"
  | .abs => "abs"
  | .min => "min"
  | .max => "max"
  | .sum => "sum"
  | .any => "any"
  | .all => "all"
  | .round => "round"
  | .int => "int"
  | .float => "float"
  | .bool => "bool"
  | .contains => "contains"
  | .indexOf => "index"
  | .before => "before"
  | .first => "first"
  | .last => "last"
  | .str => "str"
  | .jsonGet => "json_get"
  | .fetch => "fetch"
  | .fetchJson => "fetch_json"
  | .show => "show"
  | .print => "print"
  | .led => "led"
  | .flash => "flash"
  | .upper => "upper"
  | .lower => "lower"
  | .reverse => "reverse"
