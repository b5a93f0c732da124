/-
# Texts are read back from their tokens

When `decode` inverts `encode`.  Merges keep what the tokens stand for: a token stands for
its piece, or for a byte when it is one of the 256 byte tokens, and no merge involves a
byte token or a marker, because a piece does not contain one (`Encodes.merge`).  So the
pieces after the first token are a space and the text, and the space is taken off again.

The pieces have to be read as what they are: a piece that is spelled like a byte token in
another letter case is decoded as a byte, and a text that has a marker as a character loses
it (`lossy_vocabularies`).
-/
import Mathlib.Data.List.Infix
import PySpell.Tokenizer
import PySpell.TokenizerFile

open Text

namespace TinyLlm

namespace Tokenizer

variable {F : Type} (t : Tokenizer F)

/-! ## Byte tokens -/

/-- A digit of `{b:02X}`. -/
def hexDigit (n : ℕ) : UInt8 := UInt8.ofNat (if n < 10 then 0x30 + n else 0x41 + (n - 10))

/-- The piece `<0xXX>`. -/
def byteToken (b : UInt8) : List UInt8 :=
  [0x3c, 0x30, 0x78, hexDigit (b.toNat / 16), hexDigit (b.toNat % 16), 0x3e]

theorem hexVal_hexDigit (n : Fin 16) : hexVal (hexDigit n) = some (UInt8.ofNat n) := by
  revert n
  decide

/-- A byte of its two halves. -/
theorem nibbles (hi lo : Fin 16) :
    UInt8.ofNat hi <<< 4 ||| UInt8.ofNat lo = UInt8.ofNat (hi * 16 + lo) := by
  revert hi lo
  decide

/-- **A byte token is read as its byte.** -/
theorem parseHexByte_byteToken (b : UInt8) : parseHexByte (byteToken b) = some b := by
  have hb := b.toNat_lt
  have hhi := hexVal_hexDigit ⟨b.toNat / 16, by omega⟩
  have hlo := hexVal_hexDigit ⟨b.toNat % 16, by omega⟩
  have hjoin := nibbles ⟨b.toNat / 16, by omega⟩ ⟨b.toNat % 16, by omega⟩
  have hget3 : (byteToken b).getD 3 0 = hexDigit (b.toNat / 16) := rfl
  have hget4 : (byteToken b).getD 4 0 = hexDigit (b.toNat % 16) := rfl
  rw [parseHexByte, if_pos ⟨rfl, rfl, rfl⟩, hget3, hget4, hhi, hlo]
  change some (UInt8.ofNat (b.toNat / 16) <<< 4 ||| UInt8.ofNat (b.toNat % 16)) = some b
  rw [hjoin]
  change some (UInt8.ofNat (b.toNat / 16 * 16 + b.toNat % 16)) = some b
  rw [Nat.div_add_mod', UInt8.ofNat_toNat]

theorem byteToken_injective : Function.Injective byteToken := by
  intro a b h
  have hparse := congrArg parseHexByte h
  rw [parseHexByte_byteToken, parseHexByte_byteToken] at hparse
  exact Option.some_inj.mp hparse

/-! ## Vocabularies with byte tokens -/

/-- A byte token, or the piece of a marker. -/
def Special (p : List UInt8) : Prop :=
  (∃ b, p = byteToken b) ∨ t.vocab[BOS]? = some p ∨ t.vocab[EOS]? = some p

/-- A vocabulary of distinct pieces with a space and the byte tokens, where pieces neither
make a byte token or a marker nor properly contain one. -/
structure ByteVocab : Prop where
  distinct : t.vocab.Nodup
  space : [0x20] ∈ t.vocab
  bytes : ∀ b : UInt8, t.vocab[b.toNat + 3]? = some (byteToken b)
  concat : ∀ p ∈ t.vocab, ∀ q ∈ t.vocab, ¬ t.Special (p ++ q)
  contains : ∀ p ∈ t.vocab, ∀ q, t.Special q → q <:+: p → q = p

/-- Only byte tokens are read as bytes, and no character of the text, and not the space, is
a marker. -/
structure Unambiguous (text : String) : Prop where
  reads : ∀ p ∈ t.vocab, (∀ b, p ≠ byteToken b) → ∀ prev, parseHexByte (stripSpace prev p) = none
  plain : ∀ c ∈ ' ' :: text.toList, t.vocab[BOS]? ≠ some (String.utf8EncodeChar c) ∧
    t.vocab[EOS]? ≠ some (String.utf8EncodeChar c)

/-- The bytes of tokens one by one, each with the one before it; markers are skipped. -/
def decodeAll : ℕ → List ℕ → List UInt8
  | _, [] => []
  | prev, id :: ids =>
    (if id = BOS ∨ id = EOS then [] else t.decode prev id) ++ decodeAll id ids

/-- The tokens of a text decode to its bytes. -/
def Lossless (ops : FloatOps F) (text : String) (eos : Bool) : Prop :=
  ∃ ids, t.encode ops text true eos = some ids ∧ t.decodeAll BOS ids = utf8 text

/-! ## What tokens stand for -/

/-- The tokens stand for these bytes. -/
inductive Stands : List ℕ → List UInt8 → Prop
  | nil : Stands [] []
  | byte (b : UInt8) {ids : List ℕ} {s : List UInt8} : Stands ids s → Stands ((b.toNat + 3) :: ids)
      (b :: s)
  | piece {id : ℕ} {p : List UInt8} {ids : List ℕ} {s : List UInt8} :
      t.vocab[id]? = some p → ¬ t.Special p → Stands ids s → Stands (id :: ids) (p ++ s)

variable {t}

theorem Stands.append {ids ids' : List ℕ} {s s' : List UInt8} (h : t.Stands ids s)
    (h' : t.Stands ids' s') : t.Stands (ids ++ ids') (s ++ s') := by
  induction h with
  | nil => exact h'
  | byte b _ ih => exact Stands.byte b ih
  | piece hp hplain _ ih =>
    rw [List.append_assoc]
    exact Stands.piece hp hplain ih

/-- Tokens in two parts stand for two parts. -/
theorem Stands.split {pre post : List ℕ} {s : List UInt8} (h : t.Stands (pre ++ post) s) :
    ∃ s₁ s₂, s = s₁ ++ s₂ ∧ t.Stands pre s₁ ∧ t.Stands post s₂ := by
  induction pre generalizing s with
  | nil => exact ⟨[], s, rfl, Stands.nil, h⟩
  | cons id pre ih =>
    cases h with
    | byte b h =>
      obtain ⟨s₁, s₂, rfl, h₁, h₂⟩ := ih h
      exact ⟨b :: s₁, s₂, rfl, Stands.byte b h₁, h₂⟩
    | piece hp hplain h =>
      obtain ⟨s₁, s₂, rfl, h₁, h₂⟩ := ih h
      exact ⟨_, s₂, (List.append_assoc _ _ _).symm, Stands.piece hp hplain h₁, h₂⟩

/-- A token whose piece is not special is no marker. -/
theorem ne_marker {id : ℕ} {p : List UInt8} (hp : t.vocab[id]? = some p)
    (hplain : ¬ t.Special p) : id ≠ BOS ∧ id ≠ EOS := by
  constructor
  · rintro rfl
    exact hplain (Or.inr (Or.inl hp))
  · rintro rfl
    exact hplain (Or.inr (Or.inr hp))

/-- A piece of a character that is no marker is not special. -/
theorem not_special_char {c : Char} (hbos : t.vocab[BOS]? ≠ some (String.utf8EncodeChar c))
    (heos : t.vocab[EOS]? ≠ some (String.utf8EncodeChar c)) :
    ¬ t.Special (String.utf8EncodeChar c) := by
  rintro (⟨b, hb⟩ | h | h)
  · -- a byte token is longer than a character
    have hlen := congrArg List.length hb
    have hsize := c.utf8Size_le_four
    rw [String.length_utf8EncodeChar] at hlen
    change c.utf8Size = 6 at hlen
    omega
  · exact hbos h
  · exact heos h

section Vocab

variable (hvocab : t.ByteVocab)

include hvocab

/-- A special piece is part of no concatenation of pieces. -/
theorem ByteVocab.not_special_of_merges {a b id : ℕ} (h : t.Merges a b id) {p q : List UInt8}
    (hp : t.vocab[a]? = some p) (hq : t.vocab[b]? = some q) : ¬ t.Special p ∧ ¬ t.Special q := by
  obtain ⟨p', q', hp', hq', hfind⟩ := h
  obtain rfl : p = p' := Option.some_inj.mp (hp.symm.trans hp')
  obtain rfl : q = q' := Option.some_inj.mp (hq.symm.trans hq')
  have hmem := List.mem_of_getElem? (find_eq_some hfind)
  have hpm := List.mem_of_getElem? hp
  have hqm := List.mem_of_getElem? hq
  -- the whole would be the special piece, and so made of it and an empty one
  constructor
  · intro hspecial
    have heq := hvocab.contains _ hmem p hspecial (List.infix_append' [] p q)
    exact hvocab.concat p hpm q hqm (heq ▸ hspecial)
  · intro hspecial
    have heq := hvocab.contains _ hmem q hspecial (List.suffix_append p q).isInfix
    exact hvocab.concat p hpm q hqm (heq ▸ hspecial)

/-- The second of two tokens that merge stands for its piece. -/
theorem Stands.second {a b id : ℕ} (hmerges : t.Merges a b id) {ids : List ℕ} {s : List UInt8}
    (h : t.Stands (b :: ids) s) : ∃ q s', t.vocab[b]? = some q ∧ s = q ++ s' ∧ t.Stands ids s' := by
  have hpieces := hmerges
  obtain ⟨p, q, hp, hq, -⟩ := hpieces
  cases h with
  | byte b h =>
    have hplain := (hvocab.not_special_of_merges hmerges hp (hvocab.bytes b)).2
    exact absurd (Or.inl ⟨b, rfl⟩) hplain
  | piece hpiece hplain h => exact ⟨_, _, hpiece, rfl, h⟩

/-- The token that two tokens make stands for both pieces. -/
theorem Stands.merged {a b id : ℕ} (hmerges : t.Merges a b id) {p q : List UInt8}
    (hp : t.vocab[a]? = some p) (hq : t.vocab[b]? = some q) :
    t.vocab[id]? = some (p ++ q) ∧ ¬ t.Special (p ++ q) := by
  obtain ⟨p', q', hp', hq', hfind⟩ := hmerges
  obtain rfl : p = p' := Option.some_inj.mp (hp.symm.trans hp')
  obtain rfl : q = q' := Option.some_inj.mp (hq.symm.trans hq')
  exact ⟨find_eq_some hfind,
    hvocab.concat p (List.mem_of_getElem? hp) q (List.mem_of_getElem? hq)⟩

/-- **A merge keeps what the tokens stand for.** -/
theorem Stands.merge {pre post : List ℕ} {a b id : ℕ} {s : List UInt8}
    (h : t.Stands (pre ++ a :: b :: post) s) (hmerges : t.Merges a b id) :
    t.Stands (pre ++ id :: post) s := by
  obtain ⟨s₁, s₂, rfl, hpre, hrest⟩ := h.split
  have hpieces := hmerges
  obtain ⟨p, q, hp, hq, -⟩ := hpieces
  refine hpre.append ?_
  cases hrest with
  | byte b' hrest =>
    have hplain := (hvocab.not_special_of_merges hmerges (hvocab.bytes b') hq).1
    exact absurd (Or.inl ⟨b', rfl⟩) hplain
  | piece hpiece hplain hrest =>
    obtain ⟨q', s', hq', rfl, hpost⟩ := hrest.second hvocab hmerges
    obtain ⟨hid, hmerged⟩ := Stands.merged hvocab hmerges hpiece hq'
    rw [← List.append_assoc]
    exact Stands.piece hid hmerged hpost

theorem Stands.known {ids : List ℕ} {s : List UInt8} (h : t.Stands ids s) : t.Known ids := by
  induction h with
  | nil => exact fun x hx => absurd hx List.not_mem_nil
  | byte b _ ih =>
    intro x hx
    rcases List.mem_cons.mp hx with rfl | hx
    · exact (List.getElem?_eq_some_iff.mp (hvocab.bytes b)).1
    · exact ih x hx
  | piece hp _ _ ih =>
    intro x hx
    rcases List.mem_cons.mp hx with rfl | hx
    · exact (List.getElem?_eq_some_iff.mp hp).1
    · exact ih x hx

/-! ## The tokens of a text -/

/-- The marker and a first token that starts with the space: what `encode` works on. -/
structure Encodes (t : Tokenizer F) (text : String) (tokens : List ℕ) : Prop where
  eq_cons : ∃ first p rest s, tokens = BOS :: first :: rest ∧ t.vocab[first]? = some p ∧
    ¬ t.Special p ∧ t.Stands rest s ∧ p ++ s = 0x20 :: utf8 text

/-- The marker does not merge, and every other merge keeps what is encoded. -/
theorem Encodes.merge {text : String} {pre post : List ℕ} {a b id : ℕ}
    (h : t.Encodes text (pre ++ a :: b :: post)) (hmerges : t.Merges a b id) :
    t.Encodes text (pre ++ id :: post) := by
  obtain ⟨first, p, rest, s, htokens, hp, hplain, hrest, hs⟩ := h.eq_cons
  have hpieces := hmerges
  obtain ⟨pa, q, hpa, hq, -⟩ := hpieces
  match pre with
  | [] =>
    obtain ⟨rfl, -⟩ := List.cons.inj htokens
    have hmarker := (hvocab.not_special_of_merges hmerges hpa hq).1
    exact absurd (Or.inr (Or.inl hpa)) hmarker
  | [x] =>
    obtain ⟨rfl, htail⟩ := List.cons.inj htokens
    obtain ⟨rfl, rfl⟩ := List.cons.inj htail
    obtain ⟨q', s', hq', rfl, hpost⟩ := hrest.second hvocab hmerges
    obtain ⟨hid, hmerged⟩ := Stands.merged hvocab hmerges hp hq'
    exact ⟨id, p ++ q', post, s', rfl, hid, hmerged, hpost, by rw [List.append_assoc, hs]⟩
  | x :: y :: pre =>
    obtain ⟨rfl, htail⟩ := List.cons.inj htokens
    obtain ⟨rfl, rfl⟩ := List.cons.inj htail
    exact ⟨y, p, pre ++ id :: post, s, rfl, hp, hplain, hrest.merge hvocab hmerges, hs⟩

theorem Encodes.known {text : String} {tokens : List ℕ} (h : t.Encodes text tokens) :
    t.Known tokens := by
  obtain ⟨first, p, rest, s, rfl, hp, -, hrest, -⟩ := h.eq_cons
  have hfirst := (List.getElem?_eq_some_iff.mp hp).1
  have hbos := (List.getElem?_eq_some_iff.mp (hvocab.bytes 0)).1
  intro x hx
  rcases List.mem_cons.mp hx with rfl | hx
  · exact lt_of_le_of_lt (by decide) hbos
  · rcases List.mem_cons.mp hx with rfl | hx
    · exact hfirst
    · exact hrest.known hvocab x hx

/-- Bytes stand for themselves. -/
theorem Stands.bytes (bs : List UInt8) : t.Stands (bs.map t.byteFallback) bs := by
  induction bs with
  | nil => exact Stands.nil
  | cons b bs ih =>
    have hlt := (List.getElem?_eq_some_iff.mp (hvocab.bytes b)).1
    rw [List.map_cons, byteFallback, if_pos hlt]
    exact Stands.byte b ih

/-- The tokens of characters stand for the characters. -/
theorem Stands.chars {cs : List Char} (hplain : ∀ c ∈ cs,
    t.vocab[BOS]? ≠ some (String.utf8EncodeChar c) ∧
      t.vocab[EOS]? ≠ some (String.utf8EncodeChar c)) :
    t.Stands (cs.flatMap t.charTokens) (Text.bytes cs) := by
  induction cs with
  | nil => exact Stands.nil
  | cons c cs ih =>
    have hrest := ih fun d hd => hplain d (List.mem_cons_of_mem c hd)
    obtain ⟨hbos, heos⟩ := hplain c List.mem_cons_self
    rw [List.flatMap_cons, Text.bytes, List.flatMap_cons]
    refine Stands.append ?_ hrest
    rw [charTokens]
    cases hfind : t.find (String.utf8EncodeChar c) with
    | none => exact Stands.bytes hvocab _
    | some id =>
      have hpiece := Stands.piece (find_eq_some hfind) (not_special_char hbos heos) Stands.nil
      rwa [List.append_nil] at hpiece

end Vocab

/-! ## Decoding them -/

/-- A marker at the end is skipped. -/
theorem decodeAll_append_eos (prev : ℕ) (ids : List ℕ) :
    t.decodeAll prev (ids ++ [EOS]) = t.decodeAll prev ids := by
  induction ids generalizing prev with
  | nil => rfl
  | cons id ids ih => rw [List.cons_append, decodeAll, decodeAll, ih]

theorem decode_of_piece {prev id : ℕ} {p : List UInt8} (hp : t.vocab[id]? = some p) :
    t.decode prev id = (parseHexByte (stripSpace prev p)).elim (stripSpace prev p) ([·]) := by
  rw [decode, hp]
  dsimp only
  cases parseHexByte (stripSpace prev p) <;> rfl

theorem stripSpace_of_ne {prev : ℕ} (h : prev ≠ BOS) (p : List UInt8) : stripSpace prev p = p :=
  if_neg fun hand => h hand.1

/-- A piece that is not special is decoded as it is, without the space. -/
theorem decode_plain {text : String} (htext : t.Unambiguous text) {prev id : ℕ}
    {p : List UInt8} (hp : t.vocab[id]? = some p) (hplain : ¬ t.Special p) :
    t.decode prev id = stripSpace prev p := by
  have hreads := htext.reads p (List.mem_of_getElem? hp) (fun b hb => hplain (Or.inl ⟨b, hb⟩)) prev
  rw [decode_of_piece hp, hreads]
  rfl

section Decoding

variable {text : String} (hvocab : t.ByteVocab) (htext : t.Unambiguous text)

include hvocab htext

/-- **Tokens decode to what they stand for**, behind anything but the first marker. -/
theorem Stands.decodeAll {ids : List ℕ} {s : List UInt8} (h : t.Stands ids s) :
    ∀ {prev : ℕ}, prev ≠ BOS → t.decodeAll prev ids = s := by
  induction h with
  | nil => exact fun _ => rfl
  | byte b _ ih =>
    intro prev hprev
    have hid : ∀ n : ℕ, n + 3 ≠ BOS ∧ n + 3 ≠ EOS := by
      intro n
      constructor
      · rw [BOS]
        omega
      · rw [EOS]
        omega
    obtain ⟨hbos, heos⟩ := hid b.toNat
    have hdecode : t.decode prev (b.toNat + 3) = [b] := by
      rw [decode_of_piece (hvocab.bytes b), stripSpace_of_ne hprev, parseHexByte_byteToken]
      rfl
    rw [Tokenizer.decodeAll, if_neg (not_or.mpr ⟨hbos, heos⟩), hdecode, ih hbos]
    rfl
  | piece hp hplain _ ih =>
    intro prev hprev
    obtain ⟨hbos, heos⟩ := ne_marker hp hplain
    rw [Tokenizer.decodeAll, if_neg (not_or.mpr ⟨hbos, heos⟩), decode_plain htext hp hplain,
      stripSpace_of_ne hprev, ih hbos]

/-- The space behind the first marker is taken off. -/
theorem Encodes.decodeAll {tokens : List ℕ} (h : t.Encodes text tokens) :
    t.decodeAll BOS tokens = utf8 text := by
  obtain ⟨first, p, rest, s, rfl, hp, hplain, hrest, hs⟩ := h.eq_cons
  obtain ⟨hbos, heos⟩ := ne_marker hp hplain
  have hmem := List.mem_of_getElem? hp
  cases p with
  | nil =>
    -- an empty piece would make a marker of a marker
    have hmarker := hvocab.bytes 0
    exact absurd (Or.inl ⟨0, rfl⟩) (hvocab.concat _ (List.mem_of_getElem? hmarker) [] hmem ∘
      fun hspecial => (List.append_nil (byteToken 0)).symm ▸ hspecial)
  | cons a p =>
    obtain ⟨rfl, htail⟩ := List.cons.inj hs
    have hstrip : stripSpace BOS (0x20 :: p) = p := if_pos ⟨rfl, rfl⟩
    rw [Tokenizer.decodeAll, if_pos (Or.inl rfl), List.nil_append, Tokenizer.decodeAll,
      if_neg (not_or.mpr ⟨hbos, heos⟩), decode_plain htext hp hplain, hstrip,
      hrest.decodeAll hvocab htext hbos]
    exact htail

/-- What the merges start from is an encoding, unless there is no text. -/
theorem encodes_startTokens (hne : text.toList ≠ []) :
    t.Encodes text (t.startTokens text true) := by
  obtain ⟨sp, hsp⟩ := find_ne_none hvocab.space
  have hspace := not_special_char (c := ' ') (htext.plain ' ' List.mem_cons_self).1
    (htext.plain ' ' List.mem_cons_self).2
  have hchars := Stands.chars hvocab fun c hc => htext.plain c (List.mem_cons_of_mem _ hc)
  refine ⟨sp, [0x20], _, _, ?_, find_eq_some hsp, hspace, hchars, rfl⟩
  rw [startTokens, if_pos rfl, if_pos hne, hsp]
  rfl

/-- **A text is read back from its tokens.** -/
theorem lossless (ops : FloatOps F) (eos : Bool) : t.Lossless ops text eos := by
  have hend : ∀ tokens : List ℕ, t.decodeAll BOS tokens = utf8 text →
      t.decodeAll BOS (if eos then tokens ++ [EOS] else tokens) = utf8 text := by
    intro tokens h
    cases eos with
    | false => exact h
    | true => exact (decodeAll_append_eos BOS tokens).trans h
  by_cases hne : text.toList = []
  · -- no text: the marker alone
    have hstart : t.startTokens text true = [BOS] := by
      rw [startTokens, hne]
      rfl
    refine ⟨_, by rw [encode, hstart]; rfl, hend _ ?_⟩
    rw [utf8, hne]
    rfl
  · obtain ⟨merged, hmerged, hencodes⟩ := mergeLoop_induct (P := t.Encodes text) ops
      (fun tokens h => h.known hvocab) (fun pre a b post id h hmerges => h.merge hvocab hmerges)
      (t.startTokens text true).length (encodes_startTokens hvocab htext hne)
    refine ⟨_, by rw [encode]; simp only [hmerged]; rfl, hend _ ?_⟩
    exact hencodes.decodeAll hvocab htext

end Decoding

/-! ## Vocabularies that lose text -/

/-- The three first pieces, the byte tokens and more. -/
def withBytes (unk bos eos : List UInt8) (more : List (List UInt8)) : List (List UInt8) :=
  [unk, bos, eos] ++ (List.range 256).map (fun n => byteToken (UInt8.ofNat n)) ++ more

/-- A tokenizer with this vocabulary, and a score of zero for each piece. -/
def ofVocab (vocab : List (List UInt8)) : Tokenizer UInt32 :=
  ⟨vocab, List.replicate vocab.length 0, List.length_replicate⟩

section WithBytes

variable {unk bos eos : List UInt8} {more : List (List UInt8)}

theorem mem_withBytes {p : List UInt8} :
    p ∈ withBytes unk bos eos more ↔ p ∈ [unk, bos, eos] ++ more ∨ ∃ b, p = byteToken b := by
  have hmap : p ∈ (List.range 256).map (fun n => byteToken (UInt8.ofNat n)) ↔
      ∃ b, p = byteToken b := by
    rw [List.mem_map]
    constructor
    · rintro ⟨n, -, rfl⟩
      exact ⟨_, rfl⟩
    · rintro ⟨b, rfl⟩
      exact ⟨b.toNat, List.mem_range.mpr b.toNat_lt, by rw [UInt8.ofNat_toNat]⟩
  rw [withBytes, List.mem_append, List.mem_append, List.mem_append, hmap]
  tauto

theorem getElem_withBytes (b : UInt8) :
    (withBytes unk bos eos more)[b.toNat + 3]? = some (byteToken b) := by
  have hb := b.toNat_lt
  have hlen : ((List.range 256).map fun n => byteToken (UInt8.ofNat n)).length = 256 := by
    rw [List.length_map, List.length_range]
  rw [withBytes, List.append_assoc, List.getElem?_append_right (Nat.le_add_left 3 _),
    List.getElem?_append_left (by rw [hlen]; exact hb), List.getElem?_map,
    List.getElem?_range (by exact hb)]
  change some (byteToken (UInt8.ofNat b.toNat)) = _
  rw [UInt8.ofNat_toNat]

/-! ### Vocabularies with byte pieces -/

/-- What makes a vocabulary of these pieces one with byte tokens. -/
structure Pieces (unk bos eos : List UInt8) (more : List (List UInt8)) : Prop where
  distinct : ([unk, bos, eos] ++ more).Nodup
  space : [0x20] ∈ more
  short : ∀ p ∈ [unk, bos, eos] ++ more, p ≠ [] ∧ p.length ≤ 6
  bytes : ∀ p ∈ [unk, bos, eos] ++ more, ∀ q ∈ [] :: ([unk, bos, eos] ++ more),
    ∀ b ∈ parseHexByte (p ++ q), p ++ q ≠ byteToken b
  concat : ∀ p ∈ [unk, bos, eos] ++ more, ∀ q ∈ [unk, bos, eos] ++ more,
    p ++ q ≠ bos ∧ p ++ q ≠ eos
  contains : ∀ p ∈ [unk, bos, eos] ++ more, ∀ q ∈ [bos, eos], q <:+: p → q = p
  letter : ∀ q ∈ [bos, eos], ∃ c ∈ q, 0x60 < c.toNat ∧ c ≠ 0x78

/-- A small letter but `x` stands in no byte token. -/
theorem not_mem_byteToken {c : UInt8} (hc : 0x60 < c.toNat) (hx : c ≠ 0x78) (b : UInt8) :
    c ∉ byteToken b := by
  have hdigit : ∀ n : Fin 16, (hexDigit n).toNat ≤ 0x60 := by decide
  have hb := b.toNat_lt
  have hhi := hdigit ⟨b.toNat / 16, by omega⟩
  have hlo := hdigit ⟨b.toNat % 16, by omega⟩
  intro hmem
  simp only [byteToken, List.mem_cons, List.not_mem_nil, or_false] at hmem
  rcases hmem with rfl | rfl | rfl | rfl | rfl | rfl
  · exact absurd hc (by decide)
  · exact absurd hc (by decide)
  · exact hx rfl
  · exact absurd hhi (not_le.mpr hc)
  · exact absurd hlo (not_le.mpr hc)
  · exact absurd hc (by decide)

theorem Pieces.byteVocab (h : Pieces unk bos eos more) :
    (ofVocab (withBytes unk bos eos more)).ByteVocab := by
  have hbyteLen : ∀ b, (byteToken b).length = 6 := fun _ => rfl
  have hnotByte : ∀ {p q}, p ∈ [unk, bos, eos] ++ more → q ∈ [] :: ([unk, bos, eos] ++ more) →
      ∀ b, p ++ q ≠ byteToken b := by
    intro p q hp hq b heq
    exact h.bytes p hp q hq b (by rw [heq, parseHexByte_byteToken]; rfl) heq
  have hnotByte' : ∀ {p}, p ∈ [unk, bos, eos] ++ more → ∀ b, p ≠ byteToken b := by
    intro p hp b heq
    exact hnotByte hp List.mem_cons_self b ((List.append_nil p).trans heq)
  -- a special piece is a byte token or one of two markers
  have hmarkers : ∀ {q}, (ofVocab (withBytes unk bos eos more)).Special q →
      (∃ b, q = byteToken b) ∨ q ∈ [bos, eos] := by
    rintro q (hbyte | hbos | heos)
    · exact Or.inl hbyte
    · rw [← Option.some_inj.mp hbos]
      exact Or.inr List.mem_cons_self
    · rw [← Option.some_inj.mp heos]
      exact Or.inr (List.mem_cons_of_mem _ List.mem_cons_self)
  have hmarkerMem : ∀ {q}, q ∈ [bos, eos] → q ∈ [unk, bos, eos] ++ more :=
    fun hq => List.mem_append_left _ (List.mem_cons_of_mem _ hq)
  -- so it is at most as long as a byte token
  have hspecialLen : ∀ {q}, (ofVocab (withBytes unk bos eos more)).Special q → q.length ≤ 6 := by
    intro q hq
    rcases hmarkers hq with ⟨b, rfl⟩ | hq
    · exact le_rfl
    · exact (h.short q (hmarkerMem hq)).2
  have hpos : ∀ {p}, p ∈ withBytes unk bos eos more → 0 < p.length := by
    intro p hp
    rcases mem_withBytes.mp hp with hp | ⟨b, rfl⟩
    · exact List.length_pos_of_ne_nil (h.short p hp).1
    · exact Nat.succ_pos _
  refine ⟨?_, mem_withBytes.mpr (Or.inl (List.mem_append_right _ h.space)), getElem_withBytes,
    ?_, ?_⟩
  · -- no piece twice
    have hbytes : ((List.range 256).map fun n => byteToken (UInt8.ofNat n)).Nodup := by
      refine List.Nodup.map_on ?_ List.nodup_range
      intro m hm n hn heq
      have hmn := congrArg UInt8.toNat (byteToken_injective heq)
      rw [UInt8.toNat_ofNat', UInt8.toNat_ofNat'] at hmn
      have hm := List.mem_range.mp hm
      have hn := List.mem_range.mp hn
      omega
    have hperm : (withBytes unk bos eos more).Perm (([unk, bos, eos] ++ more) ++
        (List.range 256).map fun n => byteToken (UInt8.ofNat n)) := by
      rw [withBytes, List.append_assoc, List.append_assoc]
      exact List.Perm.append_left _ List.perm_append_comm
    refine hperm.nodup_iff.mpr (List.nodup_append.mpr ⟨h.distinct, hbytes, ?_⟩)
    intro p hp q hq heq
    obtain ⟨n, -, rfl⟩ := List.mem_map.mp hq
    exact hnotByte' hp _ heq
  · -- two pieces make no special one
    intro p hp q hq hspecial
    have hle := hspecialLen hspecial
    have hp0 := hpos hp
    have hq0 := hpos hq
    rw [List.length_append] at hle
    rcases mem_withBytes.mp hp with hp' | ⟨b, rfl⟩
    · rcases mem_withBytes.mp hq with hq' | ⟨b, rfl⟩
      · rcases hmarkers hspecial with ⟨b, hb⟩ | hmem
        · exact hnotByte hp' (List.mem_cons_of_mem _ hq') b hb
        · obtain ⟨hbos, heos⟩ := h.concat p hp' q hq'
          rcases List.mem_cons.mp hmem with hmem | hmem
          · exact hbos hmem
          · exact heos (List.mem_singleton.mp hmem)
      · rw [hbyteLen] at hle
        omega
    · rw [hbyteLen] at hle
      omega
  · -- no piece contains a special one
    intro p hp q hspecial hpart
    rcases hmarkers hspecial with ⟨b, rfl⟩ | hmem
    · -- a piece is no longer than a byte token
      refine hpart.eq_of_length (le_antisymm hpart.length_le ?_)
      rcases mem_withBytes.mp hp with hp' | ⟨b', rfl⟩
      · exact (h.short p hp').2
      · exact le_rfl
    · rcases mem_withBytes.mp hp with hp' | ⟨b, rfl⟩
      · exact h.contains p hp' q hmem hpart
      · obtain ⟨c, hc, hletter, hx⟩ := h.letter q hmem
        exact absurd (hpart.subset hc) (not_mem_byteToken hletter hx b)

end WithBytes

/-- Every score is better than the one before. -/
def greedyOps : FloatOps UInt32 := { zeroOps with lt := fun _ _ => true }

/-! ### Three small vocabularies -/

/-- A vocabulary with the pieces `h`, `i` and `hi`. -/
def smallVocab : Tokenizer UInt32 :=
  ofVocab (withBytes [0x3c, 0x75, 0x6e, 0x6b, 0x3e] [0x3c, 0x73, 0x3e] [0x3c, 0x2f, 0x73, 0x3e]
    [[0x20], [0x68], [0x69], [0x68, 0x69]])

theorem smallVocab_byteVocab : smallVocab.ByteVocab :=
  Pieces.byteVocab ⟨by decide, by decide, by decide, by decide +kernel, by decide, by decide,
    by decide⟩

theorem smallVocab_unambiguous : smallVocab.Unambiguous "hi" := by
  have hplain : (' ' :: "hi".toList).all fun c =>
      decide (smallVocab.vocab[BOS]? ≠ some (String.utf8EncodeChar c) ∧
        smallVocab.vocab[EOS]? ≠ some (String.utf8EncodeChar c)) := by decide
  refine ⟨?_, fun c hc => of_decide_eq_true (List.all_eq_true.mp hplain c hc)⟩
  intro p hp hplain prev
  have hnone : ∀ q ∈ [[0x3c, 0x75, 0x6e, 0x6b, 0x3e], [0x3c, 0x73, 0x3e],
      [0x3c, 0x2f, 0x73, 0x3e]] ++ [[0x20], [0x68], [0x69], [0x68, 0x69]],
      parseHexByte q = none ∧ parseHexByte (q.drop 1) = none := by decide
  rcases mem_withBytes.mp hp with hp | ⟨b, hb⟩
  · rw [stripSpace]
    split_ifs
    · exact (hnone p hp).2
    · exact (hnone p hp).1
  · exact absurd hb (hplain b)

/-- The text `hi` with both markers. -/
theorem lossless_hi : smallVocab.Lossless greedyOps "hi" true :=
  lossless smallVocab_byteVocab smallVocab_unambiguous greedyOps true

/-- A vocabulary whose marker for the begin is a letter. -/
def letterVocab : Tokenizer UInt32 :=
  ofVocab (withBytes [0x3c, 0x75, 0x6e, 0x6b, 0x3e] [0x61] [0x3c, 0x2f, 0x73, 0x3e] [[0x20]])

theorem letterVocab_byteVocab : letterVocab.ByteVocab :=
  Pieces.byteVocab ⟨by decide, by decide, by decide, by decide +kernel, by decide, by decide,
    by decide⟩

/-- A vocabulary with `<0xab>`, in small letters, and what it is merged from. -/
def lowerVocab : Tokenizer UInt32 :=
  ofVocab (withBytes [0x3c, 0x75, 0x6e, 0x6b, 0x3e] [0x3c, 0x73, 0x3e] [0x3c, 0x2f, 0x73, 0x3e]
    [[0x20], [0x3c], [0x30], [0x78], [0x61], [0x62], [0x3e], [0x3c, 0x30], [0x3c, 0x30, 0x78],
      [0x3c, 0x30, 0x78, 0x61], [0x3c, 0x30, 0x78, 0x61, 0x62],
      [0x3c, 0x30, 0x78, 0x61, 0x62, 0x3e]])

theorem lowerVocab_byteVocab : lowerVocab.ByteVocab :=
  Pieces.byteVocab ⟨by decide, by decide, by decide, by decide +kernel, by decide, by decide,
    by decide⟩

/-- A text is lost when its tokens decode to other bytes. -/
theorem not_lossless {t : Tokenizer UInt32} {ops : FloatOps UInt32} {text : String} {eos : Bool}
    {ids : List ℕ} (henc : t.encode ops text true eos = some ids)
    (hdec : t.decodeAll BOS ids ≠ utf8 text) : ¬ t.Lossless ops text eos := by
  rintro ⟨ids', henc', hdec'⟩
  obtain rfl : ids = ids' := Option.some_inj.mp (henc.symm.trans henc')
  exact hdec hdec'

/-- **Two vocabularies that lose text**: the letter of a marker is skipped, and a piece that
is spelled like a byte token is decoded as one byte. -/
theorem lossy_vocabularies :
    (letterVocab.ByteVocab ∧ ¬ letterVocab.Lossless greedyOps "a" false) ∧
      lowerVocab.ByteVocab ∧ ¬ lowerVocab.Lossless greedyOps "<0xab>" false := by
  have hletter : letterVocab.encode greedyOps "a" true false = some [BOS, 259, BOS] := by
    decide +kernel
  have hlower : lowerVocab.encode greedyOps "<0xab>" true false = some [BOS, 259, 270] := by
    decide +kernel
  exact ⟨⟨letterVocab_byteVocab, not_lossless hletter (by decide +kernel)⟩,
    lowerVocab_byteVocab, not_lossless hlower (by decide +kernel)⟩

end Tokenizer

end TinyLlm
