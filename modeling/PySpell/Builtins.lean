/-
# Operators and builtins

The functions of `eval.rs` that both evaluators share: truth and numbers of a
value, rendering, `num_binop`, `compare`, `index` and `apply_builtin`.  Integer
arithmetic that overflows without a wrapping operation is a panic
(`checkedNeg`, `checkedAdd`, `checkedDiv`, `checkedRem`).

The capabilities that a host installs answer from the history of the effects so
far, so that nothing is assumed about what they remember or what time it is.
-/
import PySpell.JsonStream
import PySpell.Lib.StateOutcome

open Text

/-! ## Capabilities -/

/-- An effect of a program on its host. -/
inductive Event where
  | lookup (name : String)
  | show (text : String)
  | fetch (url : String)
  | fetchExtract (url path : String)
  | poll
  | led (on : Bool) (color : Option (ℕ × ℕ × ℕ))
  | flash
  deriving DecidableEq, Repr

/-- `Net`. -/
structure Net where
  fetch : List Event → String → Except DslError String
  fetchExtract : List Event → String → (List UInt8 → Option Value) → Except DslError Value

/-- `Actuator`. -/
structure Actuator where
  led : List Event → Bool → Option (ℕ × ℕ × ℕ) → Except DslError Unit
  flash : List Event → Except DslError Unit

/-- What the host provides: the environment and the capabilities of `Limits`.
The Unicode case mappings and the size of a `Value` belong to the platform. -/
structure Host where
  env : List Event → String → Option Value
  net : Option Net
  display : Option (List Event → String → Except DslError Unit)
  actuator : Option Actuator
  deadline : Option (List Event → Bool)
  toUppercase : String → String
  toLowercase : String → String
  sizeOfValue : ℕ

/-- A computation with effects on the host. -/
abbrev Effect (α : Type) := StateOutcome (List Event) DslError α

/-- Ask the host: the answer depends on the history, and the effect joins it. -/
def perform {α : Type} (e : Event) (answer : List Event → Except DslError α) : Effect α :=
  fun events => (.ofExcept (answer events), events ++ [e])

namespace Eval

def typeErr {α : Type} (m : String) : Outcome DslError α := .err (.type m)

/-! ## Integers -/

def minI64 : Int64 := Int64.minValue

/-- `-n`, with the overflow check of the language. -/
def checkedNeg (n : Int64) : Outcome DslError Int64 := if n = minI64 then .panic else .ok (-n)

/-- `x + y`, with the overflow check. -/
def checkedAdd (x y : Int64) : Outcome DslError Int64 :=
  if -(2 : ℤ) ^ 63 ≤ x.toInt + y.toInt ∧ x.toInt + y.toInt < 2 ^ 63 then .ok (x + y) else .panic

/-- `x / y` for `y ≠ 0`. -/
def checkedDiv (x y : Int64) : Outcome DslError Int64 :=
  if x = minI64 ∧ y = -1 then .panic else .ok (x / y)

/-- `x % y` for `y ≠ 0`. -/
def checkedRem (x y : Int64) : Outcome DslError Int64 :=
  if x = minI64 ∧ y = -1 then .panic else .ok (x % y)

/-! ## Values -/

/-- `as_bool`; it never fails. -/
def asBool : Value → Bool
  | .bool b => b
  | .int n => n ≠ 0
  | .float x => !Binary64.eq x (Binary64.zero false)
  | .str s => s ≠ ""
  | .list l => !l.isEmpty

/-- `as_f64`; a numeric string coerces. -/
def asF64 : Value → Except DslError Binary64
  | .int n => .ok (Binary64.ofInt n.toInt)
  | .float x => .ok x
  | .bool b => .ok (Binary64.ofInt (if b then 1 else 0))
  | .str s =>
    match Binary64.parse (trim s) with
    | some x => .ok x
    | none => .error (.type "expected a number, got a non-numeric string")
  | .list _ => .error (.type "expected a number, got a list")

mutual

/-- `to_str`. -/
def toStr : Value → String
  | .int n => toString n.toInt
  | .float x => Binary64.display x
  | .bool b => if b then "true" else "false"
  | .str s => s
  | .list l => "[" ++ joinStr l ++ "]"

/-- The items of a list, with commas. -/
def joinStr : List Value → String
  | [] => ""
  | [v] => toStr v
  | v :: vs => toStr v ++ ", " ++ joinStr vs

end

def isStr : Value → Bool
  | .str _ => true
  | _ => false

/-- `num_binop`. -/
def numBinop (op : BinOp) (a b : Value) : Outcome DslError Value :=
  -- `+` with a string operand concatenates
  if op = .add ∧ (isStr a || isStr b) then .ok (.str (toStr a ++ toStr b))
  else
    match a, b with
    | .int x, .int y =>
      match op with
      | .add => .ok (.int (x + y))
      | .sub => .ok (.int (x - y))
      | .mul => .ok (.int (x * y))
      | .div => if y = 0 then typeErr "division by zero" else Value.int <$> checkedDiv x y
      | .rem => if y = 0 then typeErr "modulo by zero" else Value.int <$> checkedRem x y
    | a, b => do
      let x ← .ofExcept (asF64 a)
      let y ← .ofExcept (asF64 b)
      match op with
      | .add => .ok (.float (Binary64.add x y))
      | .sub => .ok (.float (Binary64.sub x y))
      | .mul => .ok (.float (Binary64.mul x y))
      | .div => .ok (.float (Binary64.div x y))
      | .rem => .ok (.float (Binary64.rem x y))

/-- `compare`. -/
def compare (op : CmpOp) (a b : Value) : Except DslError Bool :=
  match a, b with
  | .bool x, .bool y =>
    match op with
    | .eq => .ok (x = y)
    | .ne => .ok (x ≠ y)
    | _ => .error (.type "booleans support only == and !=")
  | .str x, .str y =>
    match op with
    | .eq => .ok (x = y)
    | .ne => .ok (x ≠ y)
    | .lt => .ok (x < y)
    | .le => .ok (x ≤ y)
    | .gt => .ok (y < x)
    | .ge => .ok (y ≤ x)
  | a, b => do
    let x ← asF64 a
    let y ← asF64 b
    match op with
    | .eq => .ok (Binary64.eq x y)
    | .ne => .ok (!Binary64.eq x y)
    | .lt => .ok (Binary64.lt x y)
    | .le => .ok (Binary64.le x y)
    | .gt => .ok (Binary64.lt y x)
    | .ge => .ok (Binary64.le y x)

/-- `index`, with negative indices from the end. -/
def index (list idx : Value) : Except DslError Value :=
  match list with
  | .list items =>
    match idx with
    | .int i =>
      let real : ℤ := if i < 0 then items.length + i.toInt else i.toInt
      if real < 0 then .error (.type "list index out of range")
      else
        match items[real.toNat]? with
        | some v => .ok v
        | none => .error (.type "list index out of range")
    | _ => .error (.type "list index must be an integer")
  | _ => .error (.type "cannot index a non-list")

/-- `-v`. -/
def negate : Value → Outcome DslError Value
  | .int n => Value.int <$> checkedNeg n
  | .float x => .ok (.float x.neg)
  | _ => typeErr "cannot negate a non-number"

/-! ## Builtins -/

def arityErr {α : Type} (b : Builtin) (got : ℕ) : Outcome DslError α :=
  .err (.arity (builtinName b) got)

/-- `expect_str`. -/
def expectStr (v : Value) (msg : String) : Except DslError String :=
  match v with
  | .str s => .ok s
  | _ => .error (.type msg)

/-- `list_of`. -/
def listOf (v : Value) (name : String) : Except DslError (List Value) :=
  match v with
  | .list l => .ok l
  | _ => .error (.type (name ++ "() expects a list as its first argument"))

/-- `single_list`. -/
def singleList (b : Builtin) (vals : List Value) : Except DslError (List Value) :=
  match vals with
  | [.list l] => .ok l
  | [_] => .error (.type (builtinName b ++ "() expects a list"))
  | _ => .error (.arity (builtinName b) vals.length)

/-! ### Numbers -/

/-- The value equals the number, where it is one. -/
def equalsNumber (needle : Binary64) (v : Value) : Bool :=
  match asF64 v with
  | .ok x => Binary64.eq x needle
  | .error _ => false

/-- `position_of`. -/
def positionOf (items : List Value) (needle : Binary64) : Option ℕ :=
  items.findIdx? (equalsNumber needle)

/-- `round_half_away`. -/
def roundHalfAway (x : Binary64) : Binary64 :=
  let half : Binary64 := ⟨0x3fe0000000000000⟩
  if Binary64.le (Binary64.zero false) x then
    Binary64.ofInt (Binary64.add x half).toI64.toInt
  else (Binary64.ofInt (Binary64.add x.neg half).toI64.toInt).neg

/-- `libm_abs`. -/
def libmAbs (x : Binary64) : Binary64 := if Binary64.lt x (Binary64.zero false) then x.neg else x

/-- The loop of `sum`: integers and floats are added up apart. -/
def sumLoop : List Value → Int64 → Binary64 → Bool → Outcome DslError Value
  | [], intAcc, floatAcc, anyFloat =>
    if anyFloat then .ok (.float (Binary64.add floatAcc (Binary64.ofInt intAcc.toInt)))
    else .ok (.int intAcc)
  | .int n :: vs, intAcc, floatAcc, anyFloat => do
    let intAcc ← checkedAdd intAcc n
    sumLoop vs intAcc floatAcc anyFloat
  | .float x :: vs, intAcc, floatAcc, _ => sumLoop vs intAcc (Binary64.add floatAcc x) true
  | _ :: _, _, _, _ => typeErr "sum() expects a list of numbers"

/-- The loop of `reduce_minmax`: the best value so far and its number. -/
def minmaxLoop (b : Builtin) : List Value → Value → Binary64 → Except DslError Value
  | [], best, _ => .ok best
  | v :: vs, best, bestF => do
    let val ← asF64 v
    let take := if b = .min then Binary64.lt val bestF else Binary64.lt bestF val
    if take then minmaxLoop b vs v val else minmaxLoop b vs best bestF

/-- `reduce_minmax`. -/
def reduceMinmax (b : Builtin) (vals : List Value) : Except DslError Value := do
  let items ← match vals with
    | [.list l] => .ok l
    | [_] => .error (.type (builtinName b ++ "() of a single non-list"))
    | [] => .error (.arity (builtinName b) 0)
    | vals => .ok vals
  match items with
  | [] => .error (.type (builtinName b ++ "() of an empty list"))
  | v :: vs => do
    let x ← asF64 v
    minmaxLoop b vs v x

/-! ### Texts for the host -/

/-- The words of `print`, with blanks. -/
def printStr (vals : List Value) : String := " ".intercalate (vals.map toStr)

/-- `color_rgb`. -/
def colorRgb (name : String) : Option (ℕ × ℕ × ℕ) :=
  let colors : List (String × ℕ × ℕ × ℕ) :=
    [("red", 255, 0, 0), ("green", 0, 255, 0), ("blue", 0, 0, 255), ("white", 255, 255, 255),
      ("yellow", 255, 255, 0), ("cyan", 0, 255, 255), ("magenta", 255, 0, 255),
      ("pink", 255, 0, 255), ("orange", 255, 90, 0), ("purple", 140, 0, 255),
      ("violet", 140, 0, 255), ("off", 0, 0, 0), ("black", 0, 0, 0)]
  colors.lookup ((trim name).map Char.toLower)

/-- What `led` does for a value: on or off, and the colour. -/
def ledState (v : Value) : Except DslError (Bool × Option (ℕ × ℕ × ℕ)) :=
  match v with
  | .str s =>
    match colorRgb s with
    | some (0, 0, 0) => .ok (false, none)
    | some rgb => .ok (true, some rgb)
    | none => .error (.type ("unknown colour `" ++ s ++ "`"))
  | v => .ok (asBool v, none)

/-! ### The table of builtins -/

/-- The builtins without an effect. -/
def pureBuiltin (host : Host) (b : Builtin) (vals : List Value) : Outcome DslError Value :=
  match b, vals with
  | .len, [.list l] => .ok (.int (Int64.ofNat l.length))
  | .len, [.str s] => .ok (.int (Int64.ofNat s.toList.length))
  | .len, [_] => typeErr "len() expects a list or string"
  | .abs, [.int n] => if n < 0 then Value.int <$> checkedNeg n else .ok (.int n)
  | .abs, [.float x] => .ok (.float (libmAbs x))
  | .abs, [_] => typeErr "abs() expects a number"
  | .round, [v] => .ofExcept ((asF64 v).map fun x => .int (roundHalfAway x).toI64)
  | .int, [v] => .ofExcept ((asF64 v).map fun x => .int x.toI64)
  | .float, [v] => .ofExcept ((asF64 v).map .float)
  | .bool, [v] => .ok (.bool (asBool v))
  | .min, vals => .ofExcept (reduceMinmax .min vals)
  | .max, vals => .ofExcept (reduceMinmax .max vals)
  | .sum, vals => do
    let items ← .ofExcept (singleList .sum vals)
    sumLoop items 0 (Binary64.zero false) false
  | .any, vals => .ofExcept ((singleList .any vals).map fun items => .bool (items.any asBool))
  | .all, vals => .ofExcept ((singleList .all vals).map fun items => .bool (items.all asBool))
  | .contains, [.list items, v] =>
    .ofExcept ((asF64 v).map fun needle => .bool (items.any (equalsNumber needle)))
  | .contains, [_, _] => typeErr "contains expects a list"
  | .indexOf, [l, v] => .ofExcept do
    let items ← listOf l "index"
    let needle ← asF64 v
    match positionOf items needle with
    | some i => .ok (.int (Int64.ofNat i))
    | none => .ok (.int (-1))
  | .before, [l, v, w] => .ofExcept do
    let items ← listOf l "before"
    let x ← asF64 v
    let y ← asF64 w
    match positionOf items x, positionOf items y with
    | some i, some j => .ok (.bool (i < j))
    | _, _ => .ok (.bool false)
  | .first, vals => .ofExcept ((singleList .first vals).map fun items =>
      items.head?.getD (.int (-1)))
  | .last, vals => .ofExcept ((singleList .last vals).map fun items =>
      items.getLast?.getD (.int (-1)))
  | .str, [v] => .ok (.str (toStr v))
  | .jsonGet, [.str text, .str path] => .ofExcept (Json.get (utf8 text) path)
  | .jsonGet, [.str _, _] => typeErr "json_get() expects a path string as 2nd arg"
  | .jsonGet, [_, _] => typeErr "json_get() expects a string as 1st arg"
  | .print, [v] => .ok v
  | .print, vals => .ok (.str (printStr vals))
  | .upper, [v] => .ofExcept ((expectStr v "upper").map fun s => .str (host.toUppercase s))
  | .lower, [v] => .ofExcept ((expectStr v "lower").map fun s => .str (host.toLowercase s))
  | .reverse, [.str s] => .ok (.str (String.ofList s.toList.reverse))
  | .reverse, [.list l] => .ok (.list l.reverse)
  | .reverse, [_] => typeErr "reverse() expects a string or list"
  | b, vals => arityErr b vals.length

/-- `apply_builtin`.  The network builtins never reach it; the source has an
`unreachable!` there. -/
def applyBuiltin (host : Host) (actuator : Option Actuator) (b : Builtin) (vals : List Value) :
    Effect Value :=
  match b, vals with
  | .fetch, _ => .lift .panic
  | .fetchJson, _ => .lift .panic
  | .show, [v] =>
    match host.display with
    | some display => do
      perform (.show (toStr v)) fun events => display events (toStr v)
      pure v
    | none => .fail (.display "no display capability installed")
  | .led, [v] =>
    match actuator with
    | some act => do
      let (on, color) ← .lift (.ofExcept (ledState v))
      perform (.led on color) fun events => act.led events on color
      pure v
    | none => .fail (.display "no LED capability installed")
  | .flash, [] =>
    match actuator with
    | some act => do
      perform .flash act.flash
      pure (.bool true)
    | none => .fail (.display "no LED capability installed")
  | b, vals => .lift (pureBuiltin host b vals)

/-- The call of a builtin on evaluated arguments: the network builtins, or
`apply_builtin`. -/
def dispatch (host : Host) (actuator : Option Actuator) (b : Builtin) (vals : List Value) :
    Effect Value :=
  match b with
  | .fetch =>
    match vals with
    | [v] => do
      let url ← .lift (.ofExcept (expectStr v "fetch() expects a url string"))
      match host.net with
      | some net => do
        let body ← perform (.fetch url) fun events => net.fetch events url
        pure (.str body)
      | none => .fail (.net "no network capability installed")
    | _ => .lift (arityErr .fetch vals.length)
  | .fetchJson =>
    match vals with
    | [v, w] => do
      let url ← .lift (.ofExcept (expectStr v "fetch_json() expects a url string"))
      let path ← .lift (.ofExcept (expectStr w "fetch_json() expects a path string"))
      match host.net with
      | some net =>
        perform (.fetchExtract url path) fun events =>
          net.fetchExtract events url (Json.jsonProbe path)
      | none => .fail (.net "no network capability installed")
    | _ => .lift (arityErr .fetchJson vals.length)
  | b => applyBuiltin host actuator b vals

end Eval
