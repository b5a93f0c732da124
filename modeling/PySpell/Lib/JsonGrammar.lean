/-
# The JSON grammar

JSON texts as lists of characters, following the published grammar: a text is a
value between whitespace, and a value is a literal, a number, a string, an array
or an object.  Numbers and the insides of strings are regular and are checked by
functions; values nest and are an inductive predicate.
-/
import Mathlib.Data.List.Basic

namespace JsonGrammar

def isWs (c : Char) : Bool := c = ' ' || c = '\t' || c = '\n' || c = '\r'

def isHex (c : Char) : Bool :=
  c.isDigit || ('a' ≤ c && c ≤ 'f') || ('A' ≤ c && c ≤ 'F')

/-! ## Numbers and strings -/

/-- One digit or more. -/
def isDigits (l : List Char) : Bool := l ≠ [] && l.all Char.isDigit

/-- `int`: no leading zero, but for zero itself. -/
def isInt : List Char → Bool
  | ['0'] => true
  | c :: l => c ≠ '0' && c.isDigit && l.all Char.isDigit
  | [] => false

/-- What may follow the exponent mark: an optional sign and digits. -/
def isExp : List Char → Bool
  | '+' :: l => isDigits l
  | '-' :: l => isDigits l
  | l => isDigits l

/-- `[ minus ] int [ frac ] [ exp ]`. -/
def isNumber (l : List Char) : Bool :=
  let l := if l.head? = some '-' then l.tail else l
  let mantissa := l.takeWhile fun c => c ≠ 'e' && c ≠ 'E'
  let rest := l.dropWhile fun c => c ≠ 'e' && c ≠ 'E'
  let whole := mantissa.takeWhile fun c => c ≠ '.'
  let frac := mantissa.dropWhile fun c => c ≠ '.'
  isInt whole && (frac = [] || isDigits frac.tail) && (rest = [] || isExp rest.tail)

/-- The characters between the quotes of a string. -/
def isStringBody : List Char → Bool
  | [] => true
  | '\\' :: 'u' :: a :: b :: c :: d :: l =>
    isHex a && isHex b && isHex c && isHex d && isStringBody l
  | '\\' :: c :: l => "\"\\/bfnrt".toList.contains c && isStringBody l
  | c :: l => c ≠ '"' && c ≠ '\\' && 0x20 ≤ c.toNat && isStringBody l

/-! ## Values and texts -/

/-- A piece between whitespace. -/
structure Padded where
  before : List Char
  text : List Char
  after : List Char

namespace Padded

def chars (e : Padded) : List Char := e.before ++ e.text ++ e.after

def Blank (e : Padded) : Prop := e.before.all isWs ∧ e.after.all isWs

end Padded

/-- The characters of a list of pieces between two brackets, with commas. -/
def bracketed (l r : Char) (items : List (List Char)) : List Char :=
  l :: [','].intercalate items ++ [r]

/-- A JSON value. -/
inductive IsValue : List Char → Prop where
  | literal {l : List Char}
      (h : l = "null".toList ∨ l = "true".toList ∨ l = "false".toList) : IsValue l
  | number {l : List Char} (h : isNumber l) : IsValue l
  | string {l : List Char} (h : isStringBody l) : IsValue ('"' :: l ++ ['"'])
  | emptyArray {w : List Char} (hw : w.all isWs) : IsValue ('[' :: w ++ [']'])
  | array (items : List Padded) (hne : items ≠ [])
      (hpad : ∀ e ∈ items, e.Blank) (h : ∀ e ∈ items, IsValue e.text) :
      IsValue (bracketed '[' ']' (items.map Padded.chars))
  | emptyObject {w : List Char} (hw : w.all isWs) : IsValue ('{' :: w ++ ['}'])
  | object (members : List (Padded × Padded)) (hne : members ≠ [])
      (hpad : ∀ e ∈ members, e.1.Blank ∧ e.2.Blank)
      (hkey : ∀ e ∈ members, ∃ k, isStringBody k ∧ e.1.text = '"' :: k ++ ['"'])
      (h : ∀ e ∈ members, IsValue e.2.text) :
      IsValue (bracketed '{' '}' (members.map fun e => e.1.chars ++ ':' :: e.2.chars))

/-- A JSON text. -/
def IsJson (s : String) : Prop :=
  ∃ e : Padded, e.Blank ∧ IsValue e.text ∧ s.toList = e.chars

/-- A value on its own is a text. -/
theorem isJson_of_isValue {s : String} (h : IsValue s.toList) : IsJson s :=
  ⟨⟨[], s.toList, []⟩, ⟨rfl, rfl⟩, h, by simp [Padded.chars]⟩

/-- An object of one member without whitespace. -/
theorem isValue_singleton {k v : List Char} (hk : isStringBody k) (hv : IsValue v) :
    IsValue ('{' :: '"' :: k ++ '"' :: ':' :: v ++ ['}']) := by
  have h := IsValue.object [(⟨[], '"' :: k ++ ['"'], []⟩, ⟨[], v, []⟩)] (by simp)
    (by simp [Padded.Blank]) (by simpa using hk) (by simpa using hv)
  simpa [bracketed, Padded.chars] using h

end JsonGrammar
