/-
# IEEE 754 binary64 numbers

A number is its bit pattern.  The finite numbers are the integer multiples of
`2^-1074` that fit the format, so `scaled` reads a finite number as an integer,
and an arithmetic operation is one exact integer fraction followed by one
rounding (`roundRat`, to nearest, ties to even).

Reading and printing follow the usual library conventions: `parse` is correctly
rounded, and `display` prints the shortest decimal that reads back as the same
number, without an exponent.
-/
import Mathlib.Data.Nat.Log
import PySpell.Lib.Text

/-- A binary64 number, by its bit pattern. -/
structure Binary64 where
  bits : UInt64
  deriving DecidableEq, Repr, Inhabited

namespace Binary64

open Text

/-! ## Fields -/

/-- The biased exponent of infinities and NaNs. -/
def maxExpo : ℕ := 0x7ff

/-- The sign bit. -/
def isNeg (x : Binary64) : Bool := 2 ^ 63 ≤ x.bits.toNat

/-- The biased exponent. -/
def expo (x : Binary64) : ℕ := x.bits.toNat / 2 ^ 52 % 2 ^ 11

/-- The fraction field. -/
def frac (x : Binary64) : ℕ := x.bits.toNat % 2 ^ 52

def isNaN (x : Binary64) : Bool := x.expo = maxExpo && x.frac ≠ 0
def isInf (x : Binary64) : Bool := x.expo = maxExpo && x.frac = 0

/-- The magnitude of a finite number in units of `2^-1074`. -/
def mag (x : Binary64) : ℕ :=
  if x.expo = 0 then x.frac else (2 ^ 52 + x.frac) * 2 ^ (x.expo - 1)

/-- A finite number in units of `2^-1074`; an infinity lies beyond all of them. -/
def scaled (x : Binary64) : ℤ := if x.isNeg then -(x.mag : ℤ) else x.mag

/-- The number with a given sign and given exponent and fraction fields. -/
def ofFields (neg : Bool) (m : ℕ) : Binary64 :=
  ⟨UInt64.ofNat ((if neg then 2 ^ 63 else 0) + m)⟩

def nan (neg : Bool) : Binary64 := ofFields neg (maxExpo * 2 ^ 52 + 2 ^ 51)
def inf (neg : Bool) : Binary64 := ofFields neg (maxExpo * 2 ^ 52)
def zero (neg : Bool) : Binary64 := ofFields neg 0

/-! ## Rounding -/

/-- `n / d` to the nearest integer, ties to even. -/
def roundDiv (n d : ℕ) : ℕ :=
  if d < 2 * (n % d) ∨ (2 * (n % d) = d ∧ n / d % 2 = 1) then n / d + 1 else n / d

/-- The exponent of the last place of `n / d`, counted from `2^-1074`. -/
def ulpExpo (n d : ℕ) : ℕ := Nat.log2 (n * 2 ^ 1074 / d) - 52

/-- The number nearest to `n / d`, ties to even, with overflow to infinity.  A
significand that rounds up to `2^53` carries into the exponent field. -/
def roundRat (neg : Bool) (n d : ℕ) : Binary64 :=
  let e := ulpExpo n d
  let m := e * 2 ^ 52 + roundDiv (n * 2 ^ 1074) (d * 2 ^ e)
  if maxExpo * 2 ^ 52 ≤ m then inf neg else ofFields neg m

/-- The number nearest to `z / d`; the sign of an exact zero is chosen. -/
def roundInt (z : ℤ) (d : ℕ) (zeroNeg : Bool) : Binary64 :=
  if z = 0 then zero zeroNeg else roundRat (z < 0) z.natAbs d

/-! ## Arithmetic -/

def neg (x : Binary64) : Binary64 := ⟨x.bits ^^^ 0x8000000000000000⟩

def add (x y : Binary64) : Binary64 :=
  if x.isNaN || y.isNaN then nan false
  else if x.isInf then (if y.isInf && x.isNeg != y.isNeg then nan false else x)
  else if y.isInf then y
  else roundInt (x.scaled + y.scaled) (2 ^ 1074) (x.isNeg && y.isNeg)

def sub (x y : Binary64) : Binary64 := if y.isNaN then nan false else add x y.neg

def mul (x y : Binary64) : Binary64 :=
  let s := x.isNeg != y.isNeg
  if x.isNaN || y.isNaN then nan false
  else if x.isInf || y.isInf then (if x.mag = 0 || y.mag = 0 then nan false else inf s)
  else if x.mag * y.mag = 0 then zero s
  else roundRat s (x.mag * y.mag) (2 ^ 2148)

def div (x y : Binary64) : Binary64 :=
  let s := x.isNeg != y.isNeg
  if x.isNaN || y.isNaN then nan false
  else if x.isInf then (if y.isInf then nan false else inf s)
  else if y.isInf then zero s
  else if y.mag = 0 then (if x.mag = 0 then nan false else inf s)
  else if x.mag = 0 then zero s
  else roundRat s x.mag y.mag

/-- The remainder of a division truncated toward zero; it has the sign of the
dividend. -/
def rem (x y : Binary64) : Binary64 :=
  if x.isNaN || y.isNaN || x.isInf || (!y.isInf && y.mag = 0) then nan false
  else if y.isInf then x
  else if x.mag % y.mag = 0 then zero x.isNeg
  else roundRat x.isNeg (x.mag % y.mag) (2 ^ 1074)

/-! ## Comparison: every comparison with a NaN is false -/

def lt (x y : Binary64) : Bool := !x.isNaN && !y.isNaN && x.scaled < y.scaled
def le (x y : Binary64) : Bool := !x.isNaN && !y.isNaN && x.scaled ≤ y.scaled
def eq (x y : Binary64) : Bool := !x.isNaN && !y.isNaN && x.scaled = y.scaled

/-! ## Conversions -/

/-- The number nearest to an integer. -/
def ofInt (z : ℤ) : Binary64 := roundInt z 1 false

/-- Conversion to a 64-bit integer: toward zero, saturating, a NaN to zero. -/
def toI64 (x : Binary64) : Int64 :=
  if x.isNaN then 0
  else
    let t : ℤ := x.scaled.tdiv (2 ^ 1074)
    if t < -2 ^ 63 then Int64.minValue
    else if 2 ^ 63 - 1 < t then Int64.maxValue
    else Int64.ofInt t

/-! ## Reading a decimal -/

/-- The exponent part of a decimal; an absent one is zero. -/
def parseExp : List Char → Option ℤ
  | [] => some 0
  | c :: cs =>
    if c = 'e' || c = 'E' then
      let (s, ds) := match cs with
        | '-' :: r => (true, r)
        | '+' :: r => (false, r)
        | r => (false, r)
      if ds ≠ [] && ds.all isDigit then
        some (if s then -(digitsVal ds : ℤ) else digitsVal ds)
      else none
    else none

/-- `m * 10^e`, correctly rounded, where `m` has `len` digits.  Far outside the
range of the format the power of ten is not computed. -/
def ofDecimal (neg : Bool) (m len : ℕ) (e : ℤ) : Binary64 :=
  if m = 0 then zero neg
  else if 400 < e then inf neg
  else if e < -(400 + len : ℤ) then zero neg
  else if 0 ≤ e then roundRat neg (m * 10 ^ e.toNat) 1
  else roundRat neg m (10 ^ (-e).toNat)

/-- Digits with an optional point and an optional exponent. -/
def parseNumber (neg : Bool) (cs : List Char) : Option Binary64 :=
  let ip := cs.takeWhile isDigit
  let (fp, r) := match cs.dropWhile isDigit with
    | '.' :: r => (r.takeWhile isDigit, r.dropWhile isDigit)
    | r => ([], r)
  if ip = [] && fp = [] then none
  else (parseExp r).map fun e =>
    ofDecimal neg (digitsVal (ip ++ fp)) (ip ++ fp).length (e - fp.length)

def parseUnsigned (neg : Bool) (cs : List Char) : Option Binary64 :=
  let low := cs.map Char.toLower
  if low = "inf".toList || low = "infinity".toList then some (inf neg)
  else if low = "nan".toList then some (nan neg)
  else parseNumber neg cs

/-- Reading a number: a sign, then a word for infinity or NaN, or a decimal. -/
def parse (s : String) : Option Binary64 :=
  match s.toList with
  | '-' :: cs => parseUnsigned true cs
  | '+' :: cs => parseUnsigned false cs
  | cs => parseUnsigned false cs

/-! ## Printing the shortest decimal -/

/-- The `k` with `10^(k-1) ≤ n / d < 10^k`. -/
def decExpo (n d : ℕ) : ℤ :=
  if d ≤ n then Nat.log 10 (n / d) + 1 else 1 - Nat.clog 10 ((d + n - 1) / n)

/-- `q * 10^s`, correctly rounded. -/
def decimalOf (q : ℕ) (s : ℤ) : Binary64 :=
  if 0 ≤ s then roundRat false (q * 10 ^ s.toNat) 1 else roundRat false q (10 ^ (-s).toNat)

/-- The digits of a magnitude in units of `10^s`, when some such decimal reads
back as the number; of two, the nearer one, and the upper one on a tie. -/
def shortestAt (x : Binary64) (s : ℤ) : Option ℕ :=
  let n := x.mag * 10 ^ (-s).toNat
  let d := 2 ^ 1074 * 10 ^ s.toNat
  let down := decimalOf (n / d) s = ofFields false (x.bits.toNat % 2 ^ 63)
  let up := decimalOf (n / d + 1) s = ofFields false (x.bits.toNat % 2 ^ 63)
  if up && (!down || d ≤ 2 * (n % d)) then some (n / d + 1)
  else if down then some (n / d)
  else none

/-- Move trailing zeros of the digits into the exponent. -/
def stripZeros : ℕ → ℕ → ℤ → ℕ × ℤ
  | 0, q, s => (q, s)
  | fuel + 1, q, s => if q % 10 = 0 then stripZeros fuel (q / 10) (s + 1) else (q, s)

/-- The shortest digits and their exponent, for a finite nonzero number; 17
digits always suffice. -/
def shortest (x : Binary64) : ℕ × ℤ :=
  let k := decExpo x.mag (2 ^ 1074)
  let found := (List.range 17).findSome? fun (p : ℕ) =>
    (shortestAt x (k - (p : ℤ) - 1)).map fun q => (q, k - (p : ℤ) - 1)
  match found with
  | some (q, s) => stripZeros 18 q s
  | none => (0, 0)

/-- `q * 10^s` written without an exponent. -/
def positional (q : ℕ) (s : ℤ) : List Char :=
  let ds := Nat.toDigits 10 q
  let k := (-s).toNat
  if 0 ≤ s then ds ++ List.replicate s.toNat '0'
  else if ds.length ≤ k then "0.".toList ++ List.replicate (k - ds.length) '0' ++ ds
  else ds.take (ds.length - k) ++ '.' :: ds.drop (ds.length - k)

/-- Printing a number without an exponent. -/
def display (x : Binary64) : String :=
  let sign := if x.isNeg then "-" else ""
  if x.isNaN then "NaN"
  else if x.isInf then sign ++ "inf"
  else if x.mag = 0 then sign ++ "0"
  else
    let (q, s) := shortest x
    sign ++ String.ofList (positional q s)

/-- Three tenths is not the sum of one tenth and two tenths. -/
example : display (add ⟨0x3fb999999999999a⟩ ⟨0x3fc999999999999a⟩) = "0.30000000000000004" := by
  decide +kernel

end Binary64
