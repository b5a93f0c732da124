/-
# The lexer of the on-device parser

`lex` of `parse.rs`: it walks over the bytes of the source text with an index `i`
and cuts pieces out of the text with `&src[i..j]`, which panics when an end of
the piece splits a character.

`lexStep` is one round of the loop at a byte `c`.  Every round advances
(`lexStep_lt`).  All pieces but one end next to ASCII bytes; the exception is the
window of two bytes in which a two-character operator is looked up, and
`CutsChar` says when that window splits a character.  `lex_returns_iff` shows
that this is the only way for the lexer to panic.
-/
import PySpell.Ir

open Text

/-! ## Tokens -/

/-- Surface syntax to parse. -/
inductive Lang where
  | python | rust
  deriving DecidableEq, Repr

inductive Tok where
  | int (n : Int64)
  | float (x : Binary64)
  | bool (b : Bool)
  | str (s : String)
  | ident (s : String)
  | letKw | ifKw | elseKw | inKw | andKw | orKw | notKw
  | plus | minus | star | slash | percent
  | eqEq | ne | lt | le | gt | ge
  | andAnd | orOr | bang
  | lParen | rParen | lBracket | rBracket | lBrace | rBrace
  | comma | dot | assign | semi
  deriving DecidableEq, Repr

/-- What stands for a character after a backslash. -/
def unescapeChar (c : Char) : Char :=
  if c = 'n' then '\n' else if c = 't' then '\t' else if c = 'r' then '\r' else c

def unescapeChars : List Char → List Char
  | '\\' :: c :: cs => unescapeChar c :: unescapeChars cs
  | ['\\'] => []
  | c :: cs => c :: unescapeChars cs
  | [] => []

/-- `unescape`: a backslash before any other character is dropped. -/
def unescape (raw : String) : String := String.ofList (unescapeChars raw.toList)

/-- The token of a word. -/
def wordTok (word : String) : Tok :=
  if word = "let" then .letKw
  else if word = "if" then .ifKw
  else if word = "else" then .elseKw
  else if word = "in" then .inKw
  else if word = "and" then .andKw
  else if word = "or" then .orKw
  else if word = "not" then .notKw
  else if word = "true" ∨ word = "True" then .bool true
  else if word = "false" ∨ word = "False" then .bool false
  else .ident word

/-- The two-character operators; `//` is accepted as an alias of `/`. -/
def twoCharTok (two : List UInt8) : Option Tok :=
  if two = utf8 "==" then some .eqEq
  else if two = utf8 "!=" then some .ne
  else if two = utf8 "<=" then some .le
  else if two = utf8 ">=" then some .ge
  else if two = utf8 "&&" then some .andAnd
  else if two = utf8 "||" then some .orOr
  else if two = utf8 "//" then some .slash
  else none

/-- No token of two characters begins at the end. -/
theorem twoCharTok_nil : twoCharTok [] = none := by decide

/-- The tokens of one character. -/
def oneCharToks : List (Char × Tok) :=
  [('+', .plus), ('-', .minus), ('*', .star), ('/', .slash), ('%', .percent), ('<', .lt),
    ('>', .gt), ('!', .bang), ('(', .lParen), (')', .rParen), ('[', .lBracket), (']', .rBracket),
    ('{', .lBrace), ('}', .rBrace), (',', .comma), ('.', .dot), ('=', .assign), (';', .semi)]

def oneCharTok (c : UInt8) : Option Tok := oneCharToks.lookup (Char.ofNat c.toNat)

/-! ## Bytes -/

namespace Lex

def isSpace (c : UInt8) : Bool := c.toNat = 0x20 || c.toNat = 9 || c.toNat = 13 || c.toNat = 10

def isDigit (c : UInt8) : Bool := 0x30 ≤ c.toNat && c.toNat ≤ 0x39

def isAlpha (c : UInt8) : Bool :=
  (0x61 ≤ c.toNat && c.toNat ≤ 0x7a) || (0x41 ≤ c.toNat && c.toNat ≤ 0x5a) || c.toNat = 0x5f

def isQuote (c : UInt8) : Bool := c.toNat = 0x22 || c.toNat = 0x27

/-- The text of a slice of a source text. -/
def text (bs : List UInt8) : String := String.ofList (validPrefix bs).1

/-- The loop over a number: where it ends, and whether it holds a point. -/
def numberEnd (b : List UInt8) (i : ℕ) (isFloat : Bool) : Except DslError (ℕ × Bool) :=
  if h : i < b.length then
    if isDigit b[i] then numberEnd b (i + 1) isFloat
    else if b[i].toNat = 0x2e then
      if isFloat then .error (.parse "malformed number") else numberEnd b (i + 1) true
    else .ok (i, isFloat)
  else .ok (i, isFloat)
termination_by b.length - i

/-- The loop over a word. -/
def wordEnd (b : List UInt8) (i : ℕ) : ℕ :=
  if h : i < b.length then
    if isAlpha b[i] || isDigit b[i] then wordEnd b (i + 1) else i
  else i
termination_by b.length - i

/-- The scan to the matching unescaped quote. -/
def quoteEnd (b : List UInt8) (quote : UInt8) (j : ℕ) : ℕ :=
  if h : j < b.length then
    if b[j].toNat = 0x5c then quoteEnd b quote (j + 2)
    else if b[j] = quote then j
    else quoteEnd b quote (j + 1)
  else j
termination_by b.length - j

/-! ## One round of the loop -/

/-- What a round ends with: a token, unless it skipped a space, and the next
position. -/
abbrev Step := Outcome DslError (Option Tok × ℕ)

def lexNumber (b : List UInt8) (i : ℕ) : Step := do
  let (j, isFloat) ← .ofExcept (numberEnd b i false)
  let slice ← strSlice b i j
  if isFloat then
    match Binary64.parse (text slice) with
    | some x => .ok (some (.float x), j)
    | none => .err (.parse "bad float")
  else
    match parseI64 (text slice) with
    | some n => .ok (some (.int n), j)
    | none => .err (.parse "bad integer")

def lexWord (b : List UInt8) (i : ℕ) : Step := do
  let word ← strSlice b i (wordEnd b i)
  .ok (some (wordTok (text word)), wordEnd b i)

def lexString (b : List UInt8) (i : ℕ) (quote : UInt8) : Step :=
  let j := quoteEnd b quote (i + 1)
  if b.length ≤ j then .err (.parse "unterminated string")
  else do
    let raw ← strSlice b (i + 1) j
    .ok (some (.str (unescape (text raw))), j + 1)

/-- The window in which a two-character operator is looked up. -/
def twoBytes (b : List UInt8) (i : ℕ) : Outcome DslError (List UInt8) :=
  if i + 1 < b.length then strSlice b i (i + 2) else .ok []

def lexOperator (b : List UInt8) (i : ℕ) (c : UInt8) : Step := do
  let two ← twoBytes b i
  match twoCharTok two with
  | some t => .ok (some t, i + 2)
  | none =>
    match oneCharTok c with
    | some t => .ok (some t, i + 1)
    | none => .err (.parse
        ("unexpected character `" ++ String.singleton (Char.ofNat c.toNat) ++ "`"))

/-- The round at position `i`, which holds the byte `c`. -/
def lexStep (b : List UInt8) (i : ℕ) (c : UInt8) : Step :=
  if isSpace c then .ok (none, i + 1)
  else if isDigit c then lexNumber b i
  else if isAlpha c then lexWord b i
  else if isQuote c then lexString b i c
  else lexOperator b i c

/-! ## Every round advances -/

/-- The end of a number is not before the position. -/
theorem le_numberEnd {b : List UInt8} {i j : ℕ} {f g : Bool}
    (h : numberEnd b i f = .ok (j, g)) : i ≤ j := by
  fun_induction numberEnd b i f with
  | case1 i f hi hd ih => have := ih h; omega
  | case2 i hi hd hp => simp at h
  | case3 i f hi hd hp hf ih => have := ih h; omega
  | case4 i f hi hd hp => simp_all
  | case5 i f hi => simp_all

/-- A digit at the position is taken, so the lexer moves on. -/
theorem lt_numberEnd {b : List UInt8} {i j : ℕ} {f g : Bool} (hi : i < b.length)
    (hd : isDigit b[i] = true) (h : numberEnd b i f = .ok (j, g)) : i < j := by
  rw [numberEnd, dif_pos hi, if_pos hd] at h
  exact le_numberEnd h

/-- The end of a word is not before the position. -/
theorem le_wordEnd (b : List UInt8) (i : ℕ) : i ≤ wordEnd b i := by
  fun_induction wordEnd b i with
  | case1 i hi hc ih => omega
  | case2 i hi hc => rfl
  | case3 i hi => rfl

/-- A letter at the position is taken. -/
theorem lt_wordEnd {b : List UInt8} {i : ℕ} (hi : i < b.length) (hc : isAlpha b[i] = true) :
    i < wordEnd b i := by
  rw [wordEnd, dif_pos hi, if_pos (by rw [hc, Bool.true_or])]
  exact le_wordEnd b (i + 1)

/-- The closing quote is searched forwards. -/
theorem le_quoteEnd (b : List UInt8) (quote : UInt8) (j : ℕ) : j ≤ quoteEnd b quote j := by
  fun_induction quoteEnd b quote j with
  | case1 j hj hb ih => omega
  | case2 j hj hb => rfl
  | case3 j hj hb hq ih => omega
  | case4 j hj => rfl

/-- **Every round of the lexer advances.** -/
theorem lexStep_lt {b : List UInt8} {i j : ℕ} {t : Option Tok} (hi : i < b.length)
    (h : lexStep b i b[i] = .ok (t, j)) : i < j := by
  unfold lexStep at h
  split_ifs at h with hs hd ha hq
  · simp only [Outcome.ok.injEq, Prod.mk.injEq] at h
    omega
  · obtain ⟨⟨k, f⟩, hk, h⟩ := Outcome.bind_eq_ok.mp h
    obtain ⟨slice, -, h⟩ := Outcome.bind_eq_ok.mp h
    have hlt : i < k := by
      refine lt_numberEnd hi hd (f := false) (g := f) ?_
      revert hk
      cases numberEnd b i false <;> simp
    split_ifs at h
    all_goals
      split at h
      · simp only [Outcome.ok.injEq, Prod.mk.injEq] at h
        omega
      · simp at h
  · obtain ⟨word, -, h⟩ := Outcome.bind_eq_ok.mp h
    have := lt_wordEnd hi ha
    simp only [Outcome.ok.injEq, Prod.mk.injEq] at h
    omega
  · unfold lexString at h
    dsimp only at h
    split_ifs at h
    obtain ⟨raw, -, h⟩ := Outcome.bind_eq_ok.mp h
    have := le_quoteEnd b b[i] (i + 1)
    simp only [Outcome.ok.injEq, Prod.mk.injEq] at h
    omega
  · obtain ⟨two, -, h⟩ := Outcome.bind_eq_ok.mp h
    split at h
    · simp only [Outcome.ok.injEq, Prod.mk.injEq] at h
      omega
    · split at h
      · simp only [Outcome.ok.injEq, Prod.mk.injEq] at h
        omega
      · simp at h

/-! ## The loop -/

def lexLoop (b : List UInt8) (i : ℕ) : Outcome DslError (List Tok) :=
  if h : i < b.length then
    match _hs : lexStep b i b[i] with
    | .ok (t, j) => do
      let ts ← lexLoop b j
      .ok (t.toList ++ ts)
    | .err e => .err e
    | .panic => .panic
    | .outOfFuel => .outOfFuel
  else .ok []
termination_by b.length - i
decreasing_by
  have := lexStep_lt h _hs
  omega

/-- A round that returns, and the rounds behind it. -/
theorem lexLoop_of_step {b : List UInt8} {i j : ℕ} {c : UInt8} {t : Option Tok}
    (hc : b[i]? = some c) (h : lexStep b i c = .ok (t, j)) :
    lexLoop b i = lexLoop b j >>= fun ts => .ok (t.toList ++ ts) := by
  obtain ⟨hi, rfl⟩ := List.getElem?_eq_some_iff.mp hc
  rw [lexLoop, dif_pos hi]
  split <;> simp_all

/-- `lex`. -/
def lex (src : String) : Outcome DslError (List Tok) := lexLoop (utf8 src) 0

/-! ## Pieces end next to ASCII bytes -/

/-- A digit is a byte of its own, in UTF-8. -/
theorem toNat_lt_of_isDigit {c : UInt8} (h : isDigit c = true) : c.toNat < 0x80 := by
  simp only [isDigit, Bool.and_eq_true, decide_eq_true_eq] at h
  omega

/-- So is a letter, because only ASCII letters begin words. -/
theorem toNat_lt_of_isAlpha {c : UInt8} (h : isAlpha c = true) : c.toNat < 0x80 := by
  simp only [isAlpha, Bool.or_eq_true, Bool.and_eq_true, decide_eq_true_eq] at h
  omega

/-- So is white space. -/
theorem toNat_lt_of_isSpace {c : UInt8} (h : isSpace c = true) : c.toNat < 0x80 := by
  simp only [isSpace, Bool.or_eq_true, decide_eq_true_eq] at h
  omega

/-- So is a quote. -/
theorem toNat_lt_of_isQuote {c : UInt8} (h : isQuote c = true) : c.toNat < 0x80 := by
  simp only [isQuote, Bool.or_eq_true, decide_eq_true_eq] at h
  omega

/-- The one-character tokens are ASCII. -/
theorem toNat_lt_of_oneCharTok {c : UInt8} {t : Tok} (h : oneCharTok c = some t) :
    c.toNat < 0x80 := by
  by_contra hge
  have hall : ∀ n < 256, 0x80 ≤ n → oneCharToks.lookup (Char.ofNat n) = none := by decide +kernel
  have := hall c.toNat c.toNat_lt (by omega)
  rw [oneCharTok, this] at h
  cases h

section Boundaries

variable {s : String} {i j : ℕ}

/-- Behind a byte of its own a character ends. -/
theorem isCharBoundary_succ (hi : i < (utf8 s).length) (h : (utf8 s)[i].toNat < 0x80) :
    isCharBoundary (utf8 s) (i + 1) = true :=
  isCharBoundary_succ_of_ascii (List.getElem?_eq_getElem hi) h

/-- A number ends at the end of a character. -/
theorem isCharBoundary_numberEnd {f g : Bool} (hb : isCharBoundary (utf8 s) i = true)
    (h : numberEnd (utf8 s) i f = .ok (j, g)) : isCharBoundary (utf8 s) j = true := by
  fun_induction numberEnd (utf8 s) i f with
  | case1 i f hi hd ih => exact ih (isCharBoundary_succ hi (toNat_lt_of_isDigit hd)) h
  | case2 i hi hd hp => simp at h
  | case3 i f hi hd hp hf ih => exact ih (isCharBoundary_succ hi (by omega)) h
  | case4 i f hi hd hp => simp_all
  | case5 i f hi => simp_all

/-- So does a word. -/
theorem isCharBoundary_wordEnd (hb : isCharBoundary (utf8 s) i = true) :
    isCharBoundary (utf8 s) (wordEnd (utf8 s) i) = true := by
  fun_induction wordEnd (utf8 s) i with
  | case1 i hi hc ih =>
    refine ih (isCharBoundary_succ hi ?_)
    rcases Bool.or_eq_true_iff.mp hc with ha | hd
    · exact toNat_lt_of_isAlpha ha
    · exact toNat_lt_of_isDigit hd
  | case2 i hi hc => exact hb
  | case3 i hi => exact hb

/-- The scan stops at a quote or behind the text. -/
theorem getElem?_quoteEnd {b : List UInt8} {quote : UInt8} (h : quoteEnd b quote j < b.length) :
    b[quoteEnd b quote j]? = some quote := by
  fun_induction quoteEnd b quote j with
  | case1 j hj hb ih => exact ih h
  | case2 j hj hb hq => simpa [List.getElem?_eq_getElem hj] using hq
  | case3 j hj hb hq ih => exact ih h
  | case4 j hj => omega

end Boundaries

/-! ## When the lexer panics -/

/-- The byte starts none of the space, number, word and string rounds. -/
def isOperatorByte (c : UInt8) : Bool := !(isSpace c || isDigit c || isAlpha c || isQuote c)

/-- **The operator window at `i` splits a character.** -/
def CutsChar (b : List UInt8) (i : ℕ) : Prop :=
  (∃ c, b[i]? = some c ∧ isOperatorByte c = true) ∧ ∃ y, b[i + 2]? = some y ∧ isCont y = true

section Rounds

variable {s : String} {i j : ℕ}

/-- **Looking at two bytes fails in a character**: exactly when the second of them is not the last
one of its character. -/
theorem twoBytes_returns_iff (hi : i < (utf8 s).length) (hb : isCharBoundary (utf8 s) i = true) :
    (twoBytes (utf8 s) i).Returns ↔ ¬ ∃ y, (utf8 s)[i + 2]? = some y ∧ isCont y = true := by
  unfold twoBytes strSlice
  split_ifs with h1 h2
  · simp only [Outcome.returns_ok, true_iff, not_exists, not_and, Bool.not_eq_true]
    intro y hy
    rcases isCharBoundary_iff.mp h2.2.2 with heq | ⟨c, hc, hcont⟩
    · have := (List.getElem?_eq_some_iff.mp hy).1
      omega
    · rw [hc] at hy
      obtain rfl := Option.some.inj hy
      exact hcont
  · simp only [Outcome.not_returns_panic, false_iff, not_not]
    have hnb : ¬ isCharBoundary (utf8 s) (i + 2) = true := fun h => h2 ⟨by omega, hb, h⟩
    rw [isCharBoundary_iff] at hnb
    push Not at hnb
    rcases hy : (utf8 s)[i + 2]? with _ | y
    · have := List.getElem?_eq_none_iff.mp hy
      omega
    · exact ⟨y, rfl, by simpa using hnb.2 y hy⟩
  · simp only [Outcome.returns_ok, true_iff, not_exists, not_and]
    intro y hy
    have := (List.getElem?_eq_some_iff.mp hy).1
    omega

/-- **A round panics exactly when its operator window splits a character.** -/
theorem lexStep_returns_iff (hi : i < (utf8 s).length)
    (hb : isCharBoundary (utf8 s) i = true) :
    (lexStep (utf8 s) i (utf8 s)[i]).Returns ↔ ¬ CutsChar (utf8 s) i := by
  have hcut : ∀ {c}, (utf8 s)[i] = c → isOperatorByte c = false → ¬ CutsChar (utf8 s) i := by
    rintro c rfl hop ⟨⟨c, hc, hop'⟩, -⟩
    rw [List.getElem?_eq_getElem hi] at hc
    obtain rfl := Option.some.inj hc
    simp [hop] at hop'
  unfold lexStep
  split_ifs with hs hd ha hq
  · simp [hcut rfl (by simp [isOperatorByte, hs])]
  · simp only [hcut rfl (by simp [isOperatorByte, hd]), not_false_eq_true, iff_true]
    unfold lexNumber
    rcases hn : numberEnd (utf8 s) i false with e | ⟨k, f⟩
    · simp
    · simp only [Outcome.ofExcept_ok, Outcome.ok_bind]
      rw [strSlice_eq_ok (le_numberEnd hn) hb (isCharBoundary_numberEnd hb hn), Outcome.ok_bind]
      split_ifs <;> split <;> simp
  · simp only [hcut rfl (by simp [isOperatorByte, ha]), not_false_eq_true, iff_true]
    rw [lexWord, strSlice_eq_ok (le_wordEnd _ _) hb (isCharBoundary_wordEnd hb)]
    simp
  · simp only [hcut rfl (by simp [isOperatorByte, hq]), not_false_eq_true, iff_true]
    unfold lexString
    dsimp only
    split_ifs with hj
    · simp
    · have hq' := toNat_lt_of_isQuote hq
      rw [strSlice_eq_ok (le_quoteEnd _ _ _) (isCharBoundary_succ hi hq')
        (isCharBoundary_of_ascii (getElem?_quoteEnd (by omega)) hq')]
      simp
  · have hop : isOperatorByte (utf8 s)[i] = true := by simp [isOperatorByte, hs, hd, ha, hq]
    have hiff : CutsChar (utf8 s) i ↔ ∃ y, (utf8 s)[i + 2]? = some y ∧ isCont y = true :=
      and_iff_right ⟨_, List.getElem?_eq_getElem hi, hop⟩
    rw [hiff, ← twoBytes_returns_iff hi hb, lexOperator, Outcome.returns_bind]
    refine and_iff_left fun two _ => ?_
    cases twoCharTok two with
    | some t => simp
    | none => cases oneCharTok (utf8 s)[i] <;> simp

/-- A round leads from a boundary to a boundary. -/
theorem isCharBoundary_lexStep {t : Option Tok} (hi : i < (utf8 s).length)
    (hb : isCharBoundary (utf8 s) i = true)
    (h : lexStep (utf8 s) i (utf8 s)[i] = .ok (t, j)) : isCharBoundary (utf8 s) j = true := by
  unfold lexStep at h
  -- white space, a number, a word, a text or an operator
  split_ifs at h with hs hd ha hq
  · obtain ⟨-, rfl⟩ := Prod.mk.inj (Outcome.ok.inj h)
    exact isCharBoundary_succ hi (toNat_lt_of_isSpace hs)
  · obtain ⟨⟨k, f⟩, hk, h⟩ := Outcome.bind_eq_ok.mp h
    obtain ⟨slice, -, h⟩ := Outcome.bind_eq_ok.mp h
    have hk' : numberEnd (utf8 s) i false = .ok (k, f) := by
      revert hk
      cases numberEnd (utf8 s) i false <;> simp
    have hbk := isCharBoundary_numberEnd hb hk'
    split_ifs at h
    all_goals
      split at h
      · obtain ⟨-, rfl⟩ := Prod.mk.inj (Outcome.ok.inj h)
        exact hbk
      · simp at h
  · obtain ⟨word, -, h⟩ := Outcome.bind_eq_ok.mp h
    obtain ⟨-, rfl⟩ := Prod.mk.inj (Outcome.ok.inj h)
    exact isCharBoundary_wordEnd hb
  · unfold lexString at h
    dsimp only at h
    split_ifs at h with hj
    obtain ⟨raw, -, h⟩ := Outcome.bind_eq_ok.mp h
    obtain ⟨-, rfl⟩ := Prod.mk.inj (Outcome.ok.inj h)
    exact isCharBoundary_succ_of_ascii (getElem?_quoteEnd (by omega)) (toNat_lt_of_isQuote hq)
  · obtain ⟨two, htwo, h⟩ := Outcome.bind_eq_ok.mp h
    split at h
    · next t' ht =>
      obtain ⟨-, rfl⟩ := Prod.mk.inj (Outcome.ok.inj h)
      unfold twoBytes strSlice at htwo
      split_ifs at htwo with h1 h2
      · exact h2.2.2
      · obtain rfl := Outcome.ok.inj htwo
        rw [twoCharTok_nil] at ht
        cases ht
    · split at h
      · next t' ht =>
        obtain ⟨-, rfl⟩ := Prod.mk.inj (Outcome.ok.inj h)
        exact isCharBoundary_succ hi (toNat_lt_of_oneCharTok ht)
      · simp at h

end Rounds

/-- The positions at which a round of the lexer starts. -/
inductive Reaches (b : List UInt8) : ℕ → ℕ → Prop where
  | refl (i : ℕ) : Reaches b i i
  | step {i j k : ℕ} {t : Option Tok} (hi : i < b.length)
      (h : lexStep b i b[i] = .ok (t, j)) (hr : Reaches b j k) : Reaches b i k

/-- **The lexer returns unless it comes to such a place**: induction over the positions that it
reaches, each at the end of a character. -/
theorem lexLoop_returns_iff {s : String} {i : ℕ} (hb : isCharBoundary (utf8 s) i = true) :
    (lexLoop (utf8 s) i).Returns ↔ ∀ k, Reaches (utf8 s) i k → ¬ CutsChar (utf8 s) k := by
  induction hn : (utf8 s).length - i using Nat.strong_induction_on generalizing i with
  | _ n ih =>
    have hstep := fun hi => lexStep_returns_iff (s := s) (i := i) hi hb
    rw [lexLoop]
    by_cases hi : i < (utf8 s).length
    · rw [dif_pos hi]
      have hfail : ¬ (∃ p, lexStep (utf8 s) i (utf8 s)[i] = .ok p) →
          ((∀ k, Reaches (utf8 s) i k → ¬ CutsChar (utf8 s) k) ↔ ¬ CutsChar (utf8 s) i) := by
        intro hno
        refine ⟨fun h => h i (.refl i), fun h k hk => ?_⟩
        cases hk with
        | refl => exact h
        | step hi' hs hr => exact absurd ⟨_, hs⟩ hno
      split
      · next t j hs =>
        have hlt := lexStep_lt hi hs
        rw [Outcome.returns_bind, and_iff_left (by simp),
          ih _ (by omega) (isCharBoundary_lexStep hi hb hs) rfl]
        constructor
        · intro h k hk
          cases hk with
          | refl => exact (hstep hi).mp (by rw [hs]; trivial)
          | step hi' hs' hr =>
            rw [hs] at hs'
            obtain ⟨-, rfl⟩ := Prod.mk.inj (Outcome.ok.inj hs')
            exact h k hr
        · exact fun h k hk => h k (.step hi hs hk)
      · next e hs => rw [hfail (by simp [hs]), ← hstep hi, hs]; simp
      · next hs => rw [hfail (by simp [hs]), ← hstep hi, hs]; simp
      · next hs => rw [hfail (by simp [hs]), ← hstep hi, hs]; simp
    · rw [dif_neg hi]
      simp only [Outcome.returns_ok, true_iff]
      intro k hk
      cases hk with
      | refl =>
        rintro ⟨⟨c, hc, -⟩, -⟩
        exact hi (List.getElem?_eq_some_iff.mp hc).1
      | step hi' hs hr => exact absurd hi' hi

/-- **The lexer returns exactly when no operator window splits a character.** -/
theorem lex_returns_iff (src : String) :
    (lex src).Returns ↔ ∀ i, Reaches (utf8 src) 0 i → ¬ CutsChar (utf8 src) i :=
  lexLoop_returns_iff (isCharBoundary_zero src)

end Lex
