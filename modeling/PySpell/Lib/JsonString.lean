/-
# JSON strings

The inside of a JSON string, piece by piece: raw characters, short escapes and `\u`
escapes.  `encode` is the text of the pieces, and these are all the texts that the grammar
allows (`isStringBody_iff`).  `decode` is the string they stand for: a high and a low
surrogate together stand for one character, and a surrogate on its own, which stands for
none, reads as the replacement character.
-/
import Mathlib.Data.List.Basic
import PySpell.Lib.JsonGrammar

namespace JsonGrammar

/-! ## Pieces -/

/-- The letters of the short escapes. -/
inductive Short where
  | quote | backslash | slash | b | f | n | r | t
  deriving DecidableEq, Repr

namespace Short

def letter : Short → Char
  | .quote => '"'
  | .backslash => '\\'
  | .slash => '/'
  | .b => 'b'
  | .f => 'f'
  | .n => 'n'
  | .r => 'r'
  | .t => 't'

/-- What the escape stands for. -/
def char : Short → Char
  | .quote => '"'
  | .backslash => '\\'
  | .slash => '/'
  | .b => Char.ofNat 8
  | .f => Char.ofNat 12
  | .n => '\n'
  | .r => '\r'
  | .t => '\t'

end Short

/-- A character that may stand for itself. -/
abbrev Raw := { c : Char // c ≠ '"' ∧ c ≠ '\\' ∧ 0x20 ≤ c.toNat }

/-- A hexadecimal digit. -/
abbrev Hex := { c : Char // isHex c = true }

def Hex.val (h : Hex) : ℕ :=
  if h.1.isDigit then h.1.toNat - 48 else if 'a' ≤ h.1 then h.1.toNat - 87 else h.1.toNat - 55

/-- A piece of a string. -/
inductive Piece where
  | raw (c : Raw)
  | short (e : Short)
  | unicode (a b c d : Hex)

/-- The character with a code, if there is one. -/
def charOfCode (n : ℕ) : Char := if n.isValidChar then Char.ofNat n else Char.ofNat 0xfffd

namespace Piece

/-- The text of a piece. -/
def text : Piece → List Char
  | .raw c => [c.1]
  | .short e => ['\\', e.letter]
  | .unicode a b c d => ['\\', 'u', a.1, b.1, c.1, d.1]

/-- The code of a `\u` escape. -/
def code : Piece → Option ℕ
  | .unicode a b c d => some (((a.val * 16 + b.val) * 16 + c.val) * 16 + d.val)
  | _ => none

/-- The character of a piece on its own. -/
def char : Piece → Char
  | .raw c => c.1
  | .short e => e.char
  | .unicode a b c d => charOfCode (((a.val * 16 + b.val) * 16 + c.val) * 16 + d.val)

end Piece

/-- The character of a high surrogate and a low one. -/
def pairChar (p q : Piece) : Option Char :=
  match p.code, q.code with
  | some hi, some lo =>
    if 0xd800 ≤ hi ∧ hi < 0xdc00 ∧ 0xdc00 ≤ lo ∧ lo < 0xe000 then
      some (Char.ofNat (0x10000 + (hi - 0xd800) * 0x400 + (lo - 0xdc00)))
    else none
  | _, _ => none

/-- The text of a string. -/
def encode (ps : List Piece) : List Char := ps.flatMap Piece.text

/-- The string of a text. -/
def decode : List Piece → List Char
  | [] => []
  | [p] => [p.char]
  | p :: q :: ps =>
    match pairChar p q with
    | some c => c :: decode ps
    | none => p.char :: decode (q :: ps)

/-- No surrogate pair. -/
def NoPair (ps : List Piece) : Prop := ps.IsChain fun p q => pairChar p q = none

/-! ## The texts are those of the grammar -/

theorem encode_cons (p : Piece) (ps : List Piece) : encode (p :: ps) = p.text ++ encode ps :=
  List.flatMap_cons

theorem isStringBody_text (p : Piece) (l : List Char) :
    isStringBody (p.text ++ l) = isStringBody l := by
  cases p with
  | raw c =>
    obtain ⟨c, hquote, hslash, hlow⟩ := c
    show isStringBody (c :: l) = isStringBody l
    rw [isStringBody]
    · simp [hquote, hslash, hlow]
    · intro _ _ _ _ _ hc
      exact absurd hc hslash
    · intro _ _ hc
      exact absurd hc hslash
  | short e => cases e <;> rfl
  | unicode a b c d =>
    show isStringBody ('\\' :: 'u' :: a.1 :: b.1 :: c.1 :: d.1 :: l) = isStringBody l
    rw [isStringBody, a.2, b.2, c.2, d.2]
    rfl

/-- **The grammar's strings are the texts of pieces.** -/
theorem isStringBody_iff (l : List Char) : isStringBody l = true ↔ ∃ ps, encode ps = l := by
  constructor
  · intro h
    fun_induction isStringBody l with
    | case1 => exact ⟨[], rfl⟩
    | case2 a b c d l ih =>
      simp only [Bool.and_eq_true] at h
      obtain ⟨⟨⟨⟨ha, hb⟩, hc⟩, hd⟩, hl⟩ := h
      obtain ⟨ps, rfl⟩ := ih hl
      exact ⟨.unicode ⟨a, ha⟩ ⟨b, hb⟩ ⟨c, hc⟩ ⟨d, hd⟩ :: ps, rfl⟩
    | case3 c l hne ih =>
      rw [Bool.and_eq_true] at h
      obtain ⟨ps, rfl⟩ := ih h.2
      have hmem : ∃ e : Short, e.letter = c := by
        have hc : c ∈ "\"\\/bfnrt".toList := List.contains_iff_mem.mp h.1
        simp only [String.reduceToList, List.mem_cons, List.not_mem_nil, or_false] at hc
        rcases hc with rfl | rfl | rfl | rfl | rfl | rfl | rfl | rfl
        · exact ⟨.quote, rfl⟩
        · exact ⟨.backslash, rfl⟩
        · exact ⟨.slash, rfl⟩
        · exact ⟨.b, rfl⟩
        · exact ⟨.f, rfl⟩
        · exact ⟨.n, rfl⟩
        · exact ⟨.r, rfl⟩
        · exact ⟨.t, rfl⟩
      obtain ⟨e, rfl⟩ := hmem
      exact ⟨.short e :: ps, rfl⟩
    | case4 c l hne hne' ih =>
      simp only [Bool.and_eq_true, decide_eq_true_eq] at h
      obtain ⟨⟨⟨hquote, hslash⟩, hlow⟩, hl⟩ := h
      obtain ⟨ps, rfl⟩ := ih hl
      exact ⟨.raw ⟨c, hquote, hslash, hlow⟩ :: ps, rfl⟩
  · rintro ⟨ps, rfl⟩
    induction ps with
    | nil => rfl
    | cons p ps ih =>
      rw [encode_cons, isStringBody_text]
      exact ih

/-! ## Surrogate pairs -/

theorem length_decode (ps : List Piece) : (decode ps).length ≤ ps.length := by
  fun_induction decode ps with
  | case1 => exact Nat.le_refl _
  | case2 p => exact Nat.le_refl _
  | case3 p q ps c h ih => simp only [List.length_cons]; omega
  | case4 p q ps h ih => simp only [List.length_cons] at ih ⊢; omega

/-- **Without a surrogate pair** every piece is read on its own, and only then. -/
theorem decode_eq_map_iff (ps : List Piece) : decode ps = ps.map Piece.char ↔ NoPair ps := by
  fun_induction decode ps with
  | case1 => simp [NoPair]
  | case2 p => simp [NoPair]
  | case3 p q ps c h ih =>
    refine iff_of_false (fun heq => ?_) (fun hno => ?_)
    · -- two pieces for one character
      have hlen := congrArg List.length heq
      have hle := length_decode ps
      simp only [List.length_cons, List.length_map] at hlen
      omega
    · rw [NoPair, List.isChain_cons_cons, h] at hno
      cases hno.1
  | case4 p q ps h ih =>
    rw [List.map_cons, List.cons.injEq, ih, NoPair, NoPair, List.isChain_cons_cons]
    simp [h]

end JsonGrammar
