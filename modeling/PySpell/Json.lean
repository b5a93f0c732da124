/-
# The path-directed JSON scanner

`json.rs` of `pyspell-core`: `get` follows a dotted path through a JSON text
without building a document, skipping every value it does not need.  All
functions work on the bytes of the text and on byte positions.

Each loop is a recursion on the position, and each carries the reason why it
ends: the position advances (`parseString_lt`, `skipValue_lt`).  The nesting
depth of `skip_value` is an `i32` of the source; it counts bytes of the text, so
it stays in range on every text shorter than 2 GiB, and the model counts it with
a natural number.
-/
import PySpell.Ir

namespace Json

open Text

/-! ## Bytes -/

/-- The byte of an ASCII character. -/
def ch (c : Char) : UInt8 := UInt8.ofNat c.toNat

/-- `' ' | '\t' | '\r' | '\n'`. -/
def isWs (c : UInt8) : Bool := c = ch ' ' || c = ch '\t' || c = ch '\r' || c = ch '\n'

/-- The bytes that end a scalar token. -/
def isDelim (c : UInt8) : Bool := c = ch ',' || c = ch '}' || c = ch ']' || isWs c

def err {α : Type} (m : String) : Except DslError α := .error (.type m)

/-- The first position from `p` on that holds no whitespace. -/
def skipWs (b : List UInt8) (p : ℕ) : ℕ :=
  if h : p < b.length then
    if isWs b[p] then skipWs b (p + 1) else p
  else p
termination_by b.length - p

theorem le_skipWs (b : List UInt8) (p : ℕ) : p ≤ skipWs b p := by
  fun_induction skipWs b p with
  | case1 p h hw ih => omega
  | case2 p h hw => rfl
  | case3 p h => rfl

/-! ## Strings -/

/-- The loop of `skip_string_raw`. -/
def skipStringLoop (b : List UInt8) (p : ℕ) : Except DslError ℕ :=
  if h : p < b.length then
    if b[p] = ch '\\' then skipStringLoop b (p + 2)
    else if b[p] = ch '"' then .ok (p + 1)
    else skipStringLoop b (p + 1)
  else err "json: unterminated string"
termination_by b.length - p

/-- Skip a quoted string; `p` is at the opening quote. -/
def skipStringRaw (b : List UInt8) (p : ℕ) : Except DslError ℕ := skipStringLoop b (p + 1)

theorem skipStringLoop_lt {b : List UInt8} {p q : ℕ} (h : skipStringLoop b p = .ok q) :
    p < q ∧ q ≤ b.length := by
  fun_induction skipStringLoop b p with
  | case1 p hp hb ih => have := ih h; omega
  | case2 p hp hb hq =>
    obtain rfl : p + 1 = q := by simpa using h
    omega
  | case3 p hp hb hq ih => have := ih h; omega
  | case4 p hp => simp [err] at h

/-- The value of a hexadecimal digit. -/
def hexDigit (c : UInt8) : Option ℕ :=
  let n := c.toNat
  if '0'.toNat ≤ n ∧ n ≤ '9'.toNat then some (n - '0'.toNat)
  else if 'a'.toNat ≤ n ∧ n ≤ 'f'.toNat then some (n - 'a'.toNat + 10)
  else if 'A'.toNat ≤ n ∧ n ≤ 'F'.toNat then some (n - 'A'.toNat + 10)
  else none

/-- The four hexadecimal digits at `p`. -/
def hex4 (b : List UInt8) (p : ℕ) : Except DslError ℕ :=
  if b.length < p + 4 then err "json: bad \\u escape"
  else
    ((b.drop p).take 4).foldlM (fun v c =>
      match hexDigit c with
      | some d => .ok (v * 16 + d)
      | none => err "json: bad \\u digit") 0

/-- The end of the run of raw bytes that starts at `p`. -/
def rawRun (b : List UInt8) (p : ℕ) : ℕ :=
  if h : p < b.length then
    if b[p] = ch '"' ∨ b[p] = ch '\\' then p else rawRun b (p + 1)
  else p
termination_by b.length - p

theorem le_rawRun (b : List UInt8) (p : ℕ) : p ≤ rawRun b p := by
  fun_induction rawRun b p with
  | case1 p h hw => rfl
  | case2 p h hw ih => omega
  | case3 p h => rfl

/-- A run that starts at a raw byte is not empty. -/
theorem lt_rawRun {b : List UInt8} {p : ℕ} (h : p < b.length) (hq : ¬ b[p] = ch '"')
    (hb : ¬ b[p] = ch '\\') : p < rawRun b p := by
  rw [rawRun, dif_pos h, if_neg (by tauto)]
  exact le_rawRun b (p + 1)

/-- The character a short escape stands for. -/
def shortEscape (c : UInt8) : Option Char :=
  if c = ch '"' then some '"'
  else if c = ch '\\' then some '\\'
  else if c = ch '/' then some '/'
  else if c = ch 'n' then some '\n'
  else if c = ch 't' then some '\t'
  else if c = ch 'r' then some '\r'
  else if c = ch 'b' then some (Char.ofNat 8)
  else if c = ch 'f' then some (Char.ofNat 12)
  else none

/-- `char::from_u32`, with the replacement character for a surrogate. -/
def charOfCode (n : ℕ) : Char := if n.isValidChar then Char.ofNat n else Char.ofNat 0xfffd

/-- One piece of a string at a backslash: the character and the next position. -/
def parseEscape (b : List UInt8) (p : ℕ) : Except DslError (Char × ℕ) :=
  match b[p + 1]? with
  | none => err "json: bad escape"
  | some c =>
    match shortEscape c with
    | some d => .ok (d, p + 2)
    | none =>
      if c = ch 'u' then (hex4 b (p + 2)).map fun n => (charOfCode n, p + 6)
      else err "json: bad escape"

theorem parseEscape_lt {b : List UInt8} {p q : ℕ} {c : Char}
    (h : parseEscape b p = .ok (c, q)) : p + 1 < q ∧ q ≤ b.length := by
  unfold parseEscape at h
  rcases hb : b[p + 1]? with _ | d
  · simp [hb, err] at h
  · have hlen := (List.getElem?_eq_some_iff.mp hb).1
    rcases hs : shortEscape d with _ | e
    · simp only [hb, hs] at h
      split at h
      · rcases hx : hex4 b (p + 2) with e | n
        · simp [hx, Except.map] at h
        · simp only [hx, Except.map, Except.ok.injEq, Prod.mk.injEq] at h
          unfold hex4 at hx
          split at hx
          · simp [err] at hx
          · omega
      · simp [err] at h
    · simp only [hb, hs, Except.ok.injEq, Prod.mk.injEq] at h
      omega

/-- The loop of `parse_string`. -/
def parseStringLoop (b : List UInt8) (p : ℕ) (out : String) : Except DslError (String × ℕ) :=
  if h : p < b.length then
    if b[p] = ch '"' then .ok (out, p + 1)
    else if b[p] = ch '\\' then
      match _hq : parseEscape b p with
      | .error e => .error e
      | .ok (c, q) => parseStringLoop b q (out.push c)
    else
      -- copy the raw run up to the next quote or backslash
      match fromUtf8 ((b.drop p).take (rawRun b p - p)) with
      | .error _ => err "json: bad utf-8"
      | .ok s => parseStringLoop b (rawRun b p) (out ++ s)
  else err "json: unterminated string"
termination_by b.length - p
decreasing_by
  · have := parseEscape_lt _hq
    omega
  · have := lt_rawRun ‹p < b.length› ‹¬ b[p] = ch '"'› ‹¬ b[p] = ch '\\'›
    omega

/-- Parse a quoted string; `p` is at the opening quote. -/
def parseString (b : List UInt8) (p : ℕ) : Except DslError (String × ℕ) :=
  parseStringLoop b (p + 1) ""

theorem parseStringLoop_lt {b : List UInt8} {p q : ℕ} {out s : String}
    (h : parseStringLoop b p out = .ok (s, q)) : p < q ∧ q ≤ b.length := by
  fun_induction parseStringLoop b p out with
  | case1 p out hp hq => simp_all; omega
  | case2 p out hp hq hb e he => simp at h
  | case3 p out hp hq hb c r hr ih =>
    have h1 := ih h
    have h2 := parseEscape_lt hr
    omega
  | case4 p out hp hq hb e he => simp [err] at h
  | case5 p out hp hq hb s' hs ih =>
    have h1 := ih h
    have h2 := le_rawRun b p
    omega
  | case6 p out hp => simp [err] at h

theorem parseString_lt {b : List UInt8} {p q : ℕ} {s : String}
    (h : parseString b p = .ok (s, q)) : p < q ∧ q ≤ b.length := by
  have := parseStringLoop_lt h
  omega

/-! ## Skipping a value -/

/-- The container loop of `skip_value`.  The depth of the source is an `i32`; here it is the
number of open brackets, which is the same on every text below 2³¹ bytes.  `Json.Scan` counts as
the source does, and its `get_eq` compares the two. -/
def skipContainer (b : List UInt8) (q depth : ℕ) : Except DslError ℕ :=
  if h : q < b.length then
    if b[q] = ch '"' then
      match _hs : skipStringRaw b q with
      | .error e => .error e
      | .ok r => skipContainer b r depth
    else if b[q] = ch '{' ∨ b[q] = ch '[' then skipContainer b (q + 1) (depth + 1)
    else if b[q] = ch '}' ∨ b[q] = ch ']' then
      if depth = 1 then .ok (q + 1) else skipContainer b (q + 1) (depth - 1)
    else skipContainer b (q + 1) depth
  else err "json: unterminated container"
termination_by b.length - q
decreasing_by
  · have := skipStringLoop_lt _hs
    omega
  all_goals omega

theorem skipContainer_lt {b : List UInt8} {p q d : ℕ} (h : skipContainer b p d = .ok q) :
    p < q ∧ q ≤ b.length := by
  fun_induction skipContainer b p d with
  | case1 p d hp hs e he => simp at h
  | case2 p d hp hs r hr ih =>
    have h1 := ih h
    have h2 := skipStringLoop_lt hr
    omega
  | case3 p d hp hs ho ih => have := ih h; omega
  | case4 p hp hs ho hc => simp_all; omega
  | case5 p d hp hs ho hc hd ih => have := ih h; omega
  | case6 p d hp hs ho hc ih => have := ih h; omega
  | case7 p d hp => simp [err] at h

/-- The first position from `q` on that holds a delimiter. -/
def scanToken (b : List UInt8) (q : ℕ) : ℕ :=
  if h : q < b.length then
    if isDelim b[q] then q else scanToken b (q + 1)
  else q
termination_by b.length - q

theorem le_scanToken (b : List UInt8) (q : ℕ) : q ≤ scanToken b q := by
  fun_induction scanToken b q with
  | case1 p h hw => rfl
  | case2 p h hw ih => omega
  | case3 p h => rfl

/-- Skip exactly one value. -/
def skipValue (b : List UInt8) (p : ℕ) : Except DslError ℕ :=
  let p := skipWs b p
  match b[p]? with
  | none => err "json: unexpected end"
  | some c =>
    if c = ch '{' ∨ c = ch '[' then skipContainer b p 0
    else if c = ch '"' then skipStringRaw b p
    else .ok (scanToken b p)

theorem le_of_skipValue {b : List UInt8} {p q : ℕ} (h : skipValue b p = .ok q) : p ≤ q := by
  have hws := le_skipWs b p
  unfold skipValue at h
  dsimp only at h
  split at h
  · simp [err] at h
  · split at h
    · have := skipContainer_lt h
      omega
    · split at h
      · have := skipStringLoop_lt h
        omega
      · have := le_scanToken b (skipWs b p)
        simp only [Except.ok.injEq] at h
        omega

/-! ## Descending -/

/-- The loop of `enter_object`. -/
def enterObjectLoop (b : List UInt8) (p : ℕ) (key : String) : Except DslError ℕ :=
  let p₁ := skipWs b p
  match b[p₁]? with
  | none => err "json: unterminated object"
  | some c =>
    if c = ch '}' then err "json: key not found"
    else if c ≠ ch '"' then err "json: expected a key string"
    else match _hk : parseString b p₁ with
      | .error e => .error e
      | .ok (k, np) =>
        let p₂ := skipWs b np
        if b[p₂]? ≠ some (ch ':') then err "json: expected ':'"
        else
          let p₃ := skipWs b (p₂ + 1)
          if k = key then .ok p₃
          else match _hv : skipValue b p₃ with
            | .error e => .error e
            | .ok p₄ =>
              let p₅ := skipWs b p₄
              match b[p₅]? with
              | some c =>
                if c = ch ',' then enterObjectLoop b (p₅ + 1) key
                else if c = ch '}' then err "json: key not found"
                else err "json: malformed object"
              | none => err "json: malformed object"
termination_by b.length - p
decreasing_by
  have h1 := le_skipWs b p
  have h2 := parseString_lt _hk
  have h3 := le_skipWs b np
  have h4 := le_skipWs b (p₂ + 1)
  have h5 := le_of_skipValue _hv
  have h6 := le_skipWs b p₄
  omega

def enterObject (b : List UInt8) (p : ℕ) (key : String) : Except DslError ℕ :=
  enterObjectLoop b (p + 1) key

/-- The loop of `enter_array`. -/
def enterArrayLoop (b : List UInt8) (p i target : ℕ) : Except DslError ℕ :=
  let p₁ := skipWs b p
  match b[p₁]? with
  | none => err "json: unterminated array"
  | some c =>
    if c = ch ']' then err "json: array index out of range"
    else if i = target then .ok p₁
    else match _hv : skipValue b p₁ with
      | .error e => .error e
      | .ok p₂ =>
        let p₃ := skipWs b p₂
        match _h : b[p₃]? with
        | some c =>
          if c = ch ',' then enterArrayLoop b (p₃ + 1) (i + 1) target
          else if c = ch ']' then err "json: array index out of range"
          else err "json: malformed array"
        | none => err "json: malformed array"
termination_by b.length - p
decreasing_by
  have h1 := le_skipWs b p
  have h2 := le_of_skipValue _hv
  have h3 := le_skipWs b p₂
  have h4 := (List.getElem?_eq_some_iff.mp _h).1
  omega

def enterArray (b : List UInt8) (p : ℕ) (idx : String) : Except DslError ℕ :=
  match parseUsize idx with
  | none => err "json: array index not a number"
  | some target => enterArrayLoop b (p + 1) 0 target

/-- Descend into a member or an element of the value at `p`. -/
def enter (b : List UInt8) (p : ℕ) (comp : String) : Except DslError ℕ :=
  match b[p]? with
  | none => err "json: unexpected end"
  | some c =>
    if c = ch '{' then enterObject b p comp
    else if c = ch '[' then enterArray b p comp
    else err "json: cannot index a scalar with a path component"

/-! ## Scalars -/

/-- The number a token denotes; a point or an exponent makes it a float. -/
def parseNumber (tok : List UInt8) : Except DslError Value :=
  match fromUtf8 tok with
  | .error _ => err "json: bad number"
  | .ok s =>
    if tok.any (fun c => c = ch '.' || c = ch 'e' || c = ch 'E') then
      match Binary64.parse s with
      | some x => .ok (.float x)
      | none => err "json: bad float"
    else
      match parseI64 s with
      | some n => .ok (.int n)
      | none => err "json: bad integer"

/-- The bytes from `p` up to the next delimiter. -/
def tokenAt (b : List UInt8) (p : ℕ) : List UInt8 := (b.drop p).take (scanToken b p - p)

/-- The scalar at `p`. -/
def parseScalar (b : List UInt8) (p : ℕ) : Except DslError (Value × ℕ) :=
  match b[p]? with
  | none => err "json: unexpected end"
  | some c =>
    if c = ch '"' then (parseString b p).map fun (s, np) => (.str s, np)
    else if c = ch 't' then .ok (.bool true, p + 4)
    else if c = ch 'f' then .ok (.bool false, p + 5)
    else if c = ch 'n' then err "json: value is null"
    else if c = ch '{' ∨ c = ch '[' then err "json: path leads to an object/array, not a scalar"
    else (parseNumber (tokenAt b p)).map fun v => (v, scanToken b p)

/-- The position a path leads to from `p`. -/
def followPath (b : List UInt8) : ℕ → List String → Except DslError ℕ
  | p, [] => .ok p
  | p, comp :: comps =>
    match enter b p comp with
    | .error e => .error e
    | .ok q => followPath b (skipWs b q) comps

/-- The components of a dotted path. -/
def pathComps (path : String) : List String := if path = "" then [] else splitChar '.' path

/-- `json::get` on the bytes of a text. -/
def get (b : List UInt8) (path : String) : Except DslError Value :=
  match followPath b (skipWs b 0) (pathComps path) with
  | .error e => .error e
  | .ok p => (parseScalar b p).map Prod.fst

example : get (utf8 "\x7b\"a\":[\x7b\"x\":1\x7d,\x7b\"b\" : 12.5\x7d]\x7d") "a.1.b" =
    .ok (.float ⟨0x4029000000000000⟩) := by decide +kernel

end Json
