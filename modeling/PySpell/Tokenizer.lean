/-
# The tokenizer

`tokenizer.rs`: a vocabulary of byte strings with scores, read from `tokenizer.bin`.
`encode` starts with a token for each character, or for each byte of a character that the
vocabulary lacks, and then merges the best-scoring adjacent pair as long as there is one.
`decode` gives the bytes of a token.

The merge loop is bounded by the number of tokens: every merge takes one away
(`mergeLoop_settled`).  What every merge preserves holds of the result (`mergeLoop_induct`).
-/
import PySpell.Checkpoint
import PySpell.Lib.Text

open Checked

namespace TinyLlm

def BOS : ℕ := 1
def EOS : ℕ := 2

inductive TokenizerError where
  | truncated
  | vocabMismatch
  deriving DecidableEq, Repr

/-- `Tokenizer`: a piece and a score for each token. -/
structure Tokenizer (F : Type) where
  vocab : List (List UInt8)
  scores : List F
  same : scores.length = vocab.length

namespace Tokenizer

variable {F : Type}

/-! ## Reading `tokenizer.bin` -/

section FromBytes

variable (M : Machine) (ops : FloatOps F)

/-- `rd_i32` and `rd_f32`: the word at an offset, if the buffer holds it. -/
def rdWord (buf : List UInt8) (off : ℕ) : Outcome TokenizerError UInt32 := do
  let stop ← Outcome.unwrap (M.add off 4)
  if buf.length < stop then .err .truncated else Outcome.unwrap (rdU32 buf off)

/-- `len as usize` for an `i32`. -/
def asUsize (len : ℤ) : ℕ := (len % 2 ^ M.width).toNat

/-- One record: its score, its piece and the offset behind it. -/
def readRecord (buf : List UInt8) (off : ℕ) : Outcome TokenizerError (F × List UInt8 × ℕ) := do
  let score ← rdWord M buf off
  let off ← Outcome.unwrap (M.add off 4)
  let len ← rdWord M buf off
  let off ← Outcome.unwrap (M.add off 4)
  let len := asUsize M len.toInt32.toInt
  let stop ← Outcome.unwrap (M.add off len)
  if stop < off ∨ buf.length < stop then .err .truncated
  else do
    let next ← Outcome.unwrap (M.add off len)
    .ok (ops.ofBits score, (buf.drop off).take (stop - off), next)

/-- The records from an offset on: scores and pieces. -/
def readRecords (buf : List UInt8) : ℕ → ℕ → Outcome TokenizerError (List (F × List UInt8))
  | 0, _ => .ok []
  | n + 1, off => do
    let (score, bytes, off) ← readRecord M ops buf off
    let rest ← readRecords buf n off
    .ok ((score, bytes) :: rest)

/-- `Vec::with_capacity`, for elements of `bytes` bytes: the capacity may be too large. -/
def withCapacity (bytes n : ℕ) : Outcome TokenizerError Unit :=
  if n * bytes < 2 ^ (M.width - 1) then .ok () else .panic

/-- The size of a `Vec`: a pointer and two words. -/
def vecBytes : ℕ := 3 * (M.width / 8)

theorem same_of_records (records : List (F × List UInt8)) :
    (records.map Prod.fst).length = (records.map Prod.snd).length := by
  rw [List.length_map, List.length_map]

/-- `from_bytes`. -/
def fromBytes (buf : List UInt8) (vocabSize : ℕ) : Outcome TokenizerError (Tokenizer F) := do
  let _maxLen ← rdWord M buf 0
  withCapacity M (vecBytes M) vocabSize
  withCapacity M 4 vocabSize
  let records ← readRecords M ops buf vocabSize 4
  if records.length ≠ vocabSize then .err .vocabMismatch
  else .ok ⟨records.map Prod.snd, records.map Prod.fst, same_of_records records⟩

end FromBytes

/-! ## Encoding -/

variable (t : Tokenizer F)

def vocabSize : ℕ := t.vocab.length

/-- `find`: the first token with this piece. -/
def find (s : List UInt8) : Option ℕ := t.vocab.findIdx? (· == s)

/-- The token of a byte, where the vocabulary is large enough to have one. -/
def byteFallback (b : UInt8) : ℕ := if b.toNat + 3 < t.vocab.length then b.toNat + 3 else 0

/-- The tokens of a character, before merges. -/
def charTokens (ch : Char) : List ℕ :=
  match t.find (String.utf8EncodeChar ch) with
  | some id => [id]
  | none => (String.utf8EncodeChar ch).map t.byteFallback

/-- The tokens that the merges start from. -/
def startTokens (text : String) (bos : Bool) : List ℕ :=
  (if bos then [BOS] else []) ++
    (if text.toList ≠ [] then (t.find [0x20]).toList else []) ++ text.toList.flatMap t.charTokens

variable (ops : FloatOps F)

/-- One round of the search: the pair at `i` is better than the best so far, or not. -/
def tryPair (tokens : List ℕ) (i : ℕ) (best : F × Option (ℕ × ℕ)) :
    Option (F × Option (ℕ × ℕ)) := do
  let a ← t.vocab[← tokens[i]?]?
  let b ← t.vocab[← tokens[i + 1]?]?
  match t.find (a ++ b) with
  | none => some best
  | some id => do
    let score ← t.scores[id]?
    some (if ops.lt best.1 score then (score, some (id, i)) else best)

/-- `f32::NEG_INFINITY`. -/
def negInfinity : F := ops.ofBits 0xff800000

/-- The best adjacent pair: the token that it makes, and where it is. -/
def bestPair (tokens : List ℕ) : Option (Option (ℕ × ℕ)) := do
  let best ← upTo (t.tryPair ops tokens) (tokens.length - 1) (negInfinity ops, none)
  some best.2

/-- `tokens[i] = id; tokens.remove(i + 1)`. -/
def mergeAt (tokens : List ℕ) (id i : ℕ) : List ℕ := (tokens.set i id).eraseIdx (i + 1)

/-- The merges, with a bound on their number. -/
def mergeLoop : ℕ → List ℕ → Option (List ℕ)
  | 0, tokens => some tokens
  | fuel + 1, tokens => do
    match ← t.bestPair ops tokens with
    | none => some tokens
    | some (id, i) => mergeLoop fuel (mergeAt tokens id i)

/-- `encode`. -/
def encode (text : String) (bos eos : Bool) : Option (List ℕ) := do
  let start := t.startTokens text bos
  let tokens ← t.mergeLoop ops start.length start
  some (if eos then tokens ++ [EOS] else tokens)

/-! ## Decoding -/

/-- `hex_val`. -/
def hexVal (c : UInt8) : Option UInt8 :=
  if 0x30 ≤ c.toNat ∧ c.toNat ≤ 0x39 then some (c - 0x30)
  else if 0x61 ≤ c.toNat ∧ c.toNat ≤ 0x66 then some (c - 0x61 + 10)
  else if 0x41 ≤ c.toNat ∧ c.toNat ≤ 0x46 then some (c - 0x41 + 10)
  else none

/-- `parse_hex_byte`: the byte of a piece `<0xXX>`. -/
def parseHexByte (p : List UInt8) : Option UInt8 :=
  if p.length = 6 ∧ p.take 3 = [0x3c, 0x30, 0x78] ∧ p.getD 5 0 = 0x3e then do
    let hi ← hexVal (p.getD 3 0)
    let lo ← hexVal (p.getD 4 0)
    some (hi <<< 4 ||| lo)
  else none

/-- The piece without the space that `encode` put in front of the text. -/
def stripSpace (prev : ℕ) (piece : List UInt8) : List UInt8 :=
  if prev = BOS ∧ piece.head? = some 0x20 then piece.drop 1 else piece

/-- `decode`: the bytes of a token, behind another one. -/
def decode (prev token : ℕ) : List UInt8 :=
  match t.vocab[token]? with
  | none => []
  | some piece =>
    let p := stripSpace prev piece
    match parseHexByte p with
    | some b => [b]
    | none => p

/-! ## Merges -/

variable {t}

theorem find_eq_some {s : List UInt8} {id : ℕ} (h : t.find s = some id) :
    t.vocab[id]? = some s := by
  obtain ⟨hlt, hbeq, -⟩ := List.findIdx?_eq_some_iff_getElem.mp h
  rw [List.getElem?_eq_getElem hlt, eq_of_beq hbeq]

theorem find_ne_none {s : List UInt8} (h : s ∈ t.vocab) : ∃ id, t.find s = some id := by
  cases hfind : t.find s with
  | some id => exact ⟨id, rfl⟩
  | none =>
    have hnone := List.findIdx?_eq_none_iff.mp hfind s h
    simp at hnone

/-- Two tokens merge into a third one, whose piece is both of theirs. -/
def Merges (t : Tokenizer F) (a b id : ℕ) : Prop :=
  ∃ p q, t.vocab[a]? = some p ∧ t.vocab[b]? = some q ∧ t.find (p ++ q) = some id

/-- Every token has a piece. -/
def Known (t : Tokenizer F) (tokens : List ℕ) : Prop := ∀ x ∈ tokens, x < t.vocab.length

theorem Known.piece {tokens : List ℕ} (h : t.Known tokens) {i : ℕ} (hi : i < tokens.length) :
    ∃ x p, tokens[i]? = some x ∧ t.vocab[x]? = some p := by
  obtain ⟨x, hx⟩ : ∃ x, tokens[i]? = some x := ⟨_, List.getElem?_eq_getElem hi⟩
  have hlt := h x (List.mem_of_getElem? hx)
  exact ⟨x, _, hx, List.getElem?_eq_getElem hlt⟩

/-- What the search has found after some rounds. -/
theorem upTo_tryPair {tokens : List ℕ} (hknown : t.Known tokens) (s : F) {n : ℕ}
    (hn : n ≤ tokens.length - 1) :
    ∃ best, upTo (t.tryPair ops tokens) n (s, none) = some best ∧
      ∀ id i, best.2 = some (id, i) → i + 1 < tokens.length ∧
        ∃ a b, tokens[i]? = some a ∧ tokens[i + 1]? = some b ∧ t.Merges a b id := by
  induction n with
  | zero => exact ⟨(s, none), rfl, fun id i h => by cases h⟩
  | succ n ih =>
    obtain ⟨best, hbest, hspec⟩ := ih (by omega)
    obtain ⟨a, p, ha, hp⟩ := hknown.piece (show n < tokens.length by omega)
    obtain ⟨b, q, hb, hq⟩ := hknown.piece (show n + 1 < tokens.length by omega)
    have hround : upTo (t.tryPair ops tokens) (n + 1) (s, none) = t.tryPair ops tokens n best := by
      rw [upTo, hbest]
      rfl
    cases hfind : t.find (p ++ q) with
    | none =>
      refine ⟨best, ?_, hspec⟩
      simp only [hround, tryPair, ha, hb, hp, hq, Option.bind_eq_bind, Option.bind_some, hfind]
    | some id =>
      have hid : id < t.scores.length := by
        rw [t.same]
        exact (List.getElem?_eq_some_iff.mp (find_eq_some hfind)).1
      simp only [hround, tryPair, ha, hb, hp, hq, Option.bind_eq_bind, Option.bind_some, hfind,
        List.getElem?_eq_getElem hid]
      refine ⟨_, rfl, ?_⟩
      intro id' i' h
      split at h
      · -- the pair of this round
        obtain ⟨rfl, rfl⟩ := Prod.mk.inj (Option.some_inj.mp h)
        exact ⟨by omega, a, b, ha, hb, p, q, hp, hq, hfind⟩
      · exact hspec id' i' h

/-- **The search** ends, and the pair that it finds is one that merges. -/
theorem bestPair_spec {tokens : List ℕ} (hknown : t.Known tokens) :
    t.bestPair ops tokens = some none ∨ ∃ id pre a b post,
      t.bestPair ops tokens = some (some (id, pre.length)) ∧ tokens = pre ++ a :: b :: post ∧
        t.Merges a b id := by
  obtain ⟨best, hbest, hspec⟩ := upTo_tryPair ops hknown (negInfinity ops) le_rfl
  have hpair : t.bestPair ops tokens = some best.2 := by
    rw [bestPair, hbest]
    rfl
  rcases hfound : best.2 with _ | ⟨id, i⟩
  · exact Or.inl (hpair.trans (congrArg some hfound))
  · right
    obtain ⟨hi, a, b, ha, hb, hmerges⟩ := hspec id i hfound
    obtain ⟨hlt, hgetA⟩ := List.getElem?_eq_some_iff.mp ha
    obtain ⟨hlt', hgetB⟩ := List.getElem?_eq_some_iff.mp hb
    refine ⟨id, tokens.take i, a, b, tokens.drop (i + 2), ?_, ?_, hmerges⟩
    · rw [hpair, hfound, List.length_take, min_eq_left hlt.le]
    · rw [← hgetA, ← hgetB, ← List.drop_eq_getElem_cons, ← List.drop_eq_getElem_cons,
        List.take_append_drop]

theorem mergeAt_append (pre post : List ℕ) (a b id : ℕ) :
    mergeAt (pre ++ a :: b :: post) id pre.length = pre ++ id :: post := by
  rw [mergeAt, List.set_append_right _ _ le_rfl, Nat.sub_self, List.set_cons_zero,
    List.eraseIdx_append_of_length_le (Nat.le_succ _), show pre.length + 1 - pre.length = 1 by omega]
  rfl

/-- **What merges preserve** holds of the result, and the merges end with one. -/
theorem mergeLoop_induct {P : List ℕ → Prop} (hknown : ∀ tokens, P tokens → t.Known tokens)
    (hstep : ∀ pre a b post id, P (pre ++ a :: b :: post) → t.Merges a b id →
      P (pre ++ id :: post)) (fuel : ℕ) {tokens : List ℕ} (h : P tokens) :
    ∃ merged, t.mergeLoop ops fuel tokens = some merged ∧ P merged := by
  induction fuel generalizing tokens with
  | zero => exact ⟨tokens, rfl, h⟩
  | succ fuel ih =>
    obtain hnone | ⟨id, pre, a, b, post, hbest, rfl, hmerges⟩ :=
      bestPair_spec ops (hknown tokens h)
    · exact ⟨tokens, by rw [mergeLoop, hnone]; rfl, h⟩
    · obtain ⟨merged, hmerged, hP⟩ := ih (hstep pre a b post id h hmerges)
      refine ⟨merged, ?_, hP⟩
      rw [mergeLoop, hbest, Option.bind_eq_bind, Option.bind_some]
      simp only [mergeAt_append]
      exact hmerged

/-- A merge makes a token that has a piece. -/
theorem Known.merge {pre post : List ℕ} {a b id : ℕ} (h : t.Known (pre ++ a :: b :: post))
    (hmerges : t.Merges a b id) : t.Known (pre ++ id :: post) := by
  obtain ⟨p, q, -, -, hfind⟩ := hmerges
  intro x hx
  rcases List.mem_append.mp hx with hpre | hpost
  · exact h x (List.mem_append_left _ hpre)
  · rcases List.mem_cons.mp hpost with rfl | hpost
    · exact (List.getElem?_eq_some_iff.mp (find_eq_some hfind)).1
    · exact h x (List.mem_append_right _ (List.mem_cons_of_mem _ (List.mem_cons_of_mem _ hpost)))

/-- **The merges go on to the end**: no pair is left that the search finds. -/
theorem mergeLoop_settled {fuel : ℕ} {tokens : List ℕ} (hknown : t.Known tokens)
    (hfuel : tokens.length ≤ fuel) :
    ∃ merged, t.mergeLoop ops fuel tokens = some merged ∧ t.bestPair ops merged = some none := by
  induction fuel generalizing tokens with
  | zero =>
    obtain rfl : tokens = [] := List.eq_nil_of_length_eq_zero (by omega)
    exact ⟨[], rfl, rfl⟩
  | succ fuel ih =>
    obtain hnone | ⟨id, pre, a, b, post, hbest, rfl, hmerges⟩ := bestPair_spec ops hknown
    · exact ⟨tokens, by rw [mergeLoop, hnone]; rfl, hnone⟩
    · have hlen : (pre ++ id :: post).length ≤ fuel := by
        simp only [List.length_append, List.length_cons] at hfuel ⊢
        omega
      obtain ⟨merged, hmerged, hsettled⟩ := ih (hknown.merge hmerges) hlen
      refine ⟨merged, ?_, hsettled⟩
      rw [mergeLoop, hbest, Option.bind_eq_bind, Option.bind_some]
      simp only [mergeAt_append]
      exact hmerged

end Tokenizer

end TinyLlm
