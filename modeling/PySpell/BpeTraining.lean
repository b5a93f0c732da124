/-
# The training of the tokenizer

`BPE.train` of `train/bpe.py`: a vocabulary of the markers, the byte tokens and the characters
of a corpus, to which the pieces that are forced are added, and then, again and again, the
most frequent pair of adjacent pieces that is acceptable as a piece.

`train_vocabulary` says what comes out, for every corpus: distinct tokens in the layout of the
device, no more than were asked for, each learned piece a forced one or a word of the corpus,
and scores that fall from one piece to the next.  So the device, with the file of such a
vocabulary, encodes every text as the training code does (`trained_on_device`), and both
`decode` it again (`train_roundtrip`) when the corpus has a space and no `<`: no piece is then
part of a marker or of a byte token.
-/
import PySpell.Lib.Lossy
import PySpell.Lib.Rounding
import PySpell.TokenizerParity
import PySpell.TokenizerText
import Mathlib.Data.List.Dedup
import Mathlib.Data.List.DropRight
import Mathlib.Data.List.Sort

open Text Checked

namespace TinyLlm

namespace BpeTrain

/-! ## Pairs and their counts -/

/-- A sequence of pieces, each a string of Python. -/
abbrev Seq := List (List Char)

/-- `Counter`: `c` more of a key; a new key comes last. -/
def counterAdd {K : Type} [DecidableEq K] (counts : List (K × ℕ)) (k : K) (c : ℕ) :
    List (K × ℕ) :=
  match counts with
  | [] => [(k, c)]
  | (k', n) :: rest => if k' = k then (k', n + c) :: rest else (k', n) :: counterAdd rest k c

/-- `most_common`: equal counts stay in their order. -/
def mostCommon {K : Type} (counts : List (K × ℕ)) : List (K × ℕ) :=
  counts.insertionSort fun x y => y.2 ≤ x.2

/-- A text of the corpus, how often it is there, and what it is cut into. -/
structure Word where
  text : String
  freq : ℕ
  seq : Seq

/-- The pairs of all words. -/
def pairs (words : List Word) : List ((List Char × List Char) × ℕ) :=
  (words.flatMap fun w => (w.seq.zip w.seq.tail).map (·, w.freq)).foldl
    (fun counts e => counterAdd counts e.1 e.2) []

/-! ## Merges -/

/-- `MAX_MERGE_LEN`. -/
def maxMergeLen : ℕ := 12

/-- `str.isspace`, for a character. -/
def isSpace (c : Char) : Bool :=
  let n := c.toNat
  (9 ≤ n && n ≤ 13) || (0x1c ≤ n && n ≤ 0x20) || n = 0x85 || n = 0xa0 || n = 0x1680 ||
    (0x2000 ≤ n && n ≤ 0x200a) || n = 0x2028 || n = 0x2029 || n = 0x202f || n = 0x205f || n = 0x3000

/-- `strip`. -/
def strip (s : List Char) : List Char := (s.dropWhile isSpace).rdropWhile isSpace

/-- `acceptable`. -/
def acceptable (piece : List Char) : Bool :=
  piece.length ≤ maxMergeLen && (strip piece).count ' ' = 0

/-- The most frequent pair that makes an acceptable piece. -/
def bestMerge (words : List Word) : Option (List Char × List Char) :=
  ((mostCommon (pairs words)).find? fun e => acceptable (e.1.1 ++ e.1.2)).map Prod.fst

/-- A pair is merged, from the left to the right. -/
def mergeSeq (a b : List Char) : Seq → Seq
  | x :: y :: rest =>
    if x = a ∧ y = b then (a ++ b) :: mergeSeq a b rest else x :: mergeSeq a b (y :: rest)
  | seq => seq

/-! ## The loops -/

/-- The vocabulary so far. -/
structure Training where
  tokens : List (List UInt8)
  scores : List Binary64
  rank : ℕ

/-- The score of the piece of a rank. -/
def score (rank : ℕ) : Binary64 := ((Binary64.ofInt rank).add (.ofInt 1)).neg

/-- `add`. -/
def Training.add (s : Training) (piece : List Char) : Training :=
  if Text.bytes piece ∈ s.tokens then s
  else ⟨s.tokens ++ [Text.bytes piece], s.scores ++ [score s.rank], s.rank + 1⟩

/-- The pieces that are forced, and what is left of the budget. -/
def forceAll : List String → ℕ → Training → Training × ℕ
  | [], budget, s => (s, budget)
  | f :: rest, budget, s =>
    if 2 ≤ f.toList.length ∧ 0 < budget then forceAll rest (budget - 1) (s.add f.toList)
    else forceAll rest budget s

/-- The merges that the budget allows. -/
def mergeAll : ℕ → List Word → Training → Training
  | 0, _, s => s
  | budget + 1, words, s =>
    match bestMerge words with
    | none => s
    | some (a, b) =>
      mergeAll budget (words.map fun w => { w with seq := mergeSeq a b w.seq }) (s.add (a ++ b))

def unk : List UInt8 := [0x3c, 0x75, 0x6e, 0x6b, 0x3e]
def bosPiece : List UInt8 := [0x3c, 0x73, 0x3e]
def eosPiece : List UInt8 := [0x3c, 0x2f, 0x73, 0x3e]

/-- The characters of the corpus, sorted. -/
def chars (texts : List String) : List Char :=
  (texts.flatMap String.toList).dedup.insertionSort fun c d => c ≤ d

/-- The vocabulary before anything is learned. -/
def base (texts : List String) : Training :=
  let tokens := Tokenizer.withBytes unk bosPiece eosPiece ((chars texts).map String.utf8EncodeChar)
  ⟨tokens, List.replicate tokens.length (Binary64.zero false), 0⟩

/-- The texts of the corpus, each once, cut into characters. -/
def startWords (texts : List String) : List Word :=
  texts.eraseDups.map fun t => ⟨t, texts.count t, t.toList.map fun c => [c]⟩

/-- `train`. -/
def train (texts : List String) (vocabSize : ℕ) (forced : List String) : FloatBpe :=
  let s := base texts
  let (s, budget) := forceAll forced (vocabSize - s.tokens.length) s
  let s := mergeAll budget (startWords texts) s
  ⟨s.tokens, s.scores⟩

example : ((train ["ab ab"] 263 []).tokens.drop 259) = [[0x20], [0x61], [0x62], [0x61, 0x62]] := by
  decide +kernel

/-! ## The pair that is merged -/

section Counter

variable {K : Type} [DecidableEq K]

/-- Counting adds no other key. -/
theorem mem_counterAdd {counts : List (K × ℕ)} {k : K} {c : ℕ} {e : K × ℕ}
    (h : e ∈ counterAdd counts k c) : e.1 = k ∨ e.1 ∈ counts.map Prod.fst := by
  induction counts with
  | nil => exact .inl (congrArg Prod.fst (List.mem_singleton.mp h))
  | cons e' rest ih =>
    obtain ⟨k', n⟩ := e'
    rw [counterAdd] at h
    split_ifs at h with heq
    · rcases List.mem_cons.mp h with rfl | h
      · exact .inl heq
      · exact .inr (List.mem_cons_of_mem k' (List.mem_map_of_mem h))
    · rcases List.mem_cons.mp h with rfl | h
      · exact .inr List.mem_cons_self
      · exact (ih h).imp_right (List.mem_cons_of_mem k')

/-- So the keys of a total are those that were counted. -/
theorem mem_foldl_counterAdd {items : List (K × ℕ)} :
    ∀ {counts : List (K × ℕ)} {e : K × ℕ},
      e ∈ items.foldl (fun counts e => counterAdd counts e.1 e.2) counts →
        e.1 ∈ counts.map Prod.fst ∨ e.1 ∈ items.map Prod.fst := by
  induction items with
  | nil => exact fun h => .inl (List.mem_map_of_mem h)
  | cons item items ih =>
    intro counts e h
    rcases ih h with hcounts | hitems
    · obtain ⟨e', he', heq⟩ := List.mem_map.mp hcounts
      rcases mem_counterAdd he' with hnew | hold
      · exact .inr (List.mem_cons.mpr (.inl (heq ▸ hnew)))
      · exact .inl (heq ▸ hold)
    · exact .inr (List.mem_cons_of_mem _ hitems)

end Counter

/-- **The pair that is merged** is acceptable, and stands in a word. -/
theorem bestMerge_spec {words : List Word} {a b : List Char} (h : bestMerge words = some (a, b)) :
    acceptable (a ++ b) = true ∧ ∃ w ∈ words, (a, b) ∈ w.seq.zip w.seq.tail := by
  obtain ⟨⟨pair, n⟩, hfind, hpair⟩ := Option.map_eq_some_iff.mp h
  obtain rfl : pair = (a, b) := hpair
  have hmem : ((a, b), n) ∈ pairs words := (List.perm_insertionSort _ _).mem_iff.mp
    (List.mem_of_find?_eq_some hfind)
  have haccept : acceptable (a ++ b) = true := by simpa using List.find?_some hfind
  refine ⟨haccept, ?_⟩
  rcases mem_foldl_counterAdd hmem with hnil | hitems
  · cases hnil
  · obtain ⟨item, hitem, heq⟩ := List.mem_map.mp hitems
    obtain ⟨w, hw, hpair⟩ := List.mem_flatMap.mp hitem
    obtain ⟨pair, hzip, rfl⟩ := List.mem_map.mp hpair
    obtain rfl : pair = (a, b) := heq
    exact ⟨w, hw, hzip⟩

/-- Adjacent pieces stand next to each other in the text. -/
theorem infix_of_adjacent {a b : List Char} {seq : Seq} (h : (a, b) ∈ seq.zip seq.tail) :
    a ++ b <:+: seq.flatten := by
  induction seq with
  | nil => cases h
  | cons x seq ih =>
    cases seq with
    | nil => cases h
    | cons y rest =>
      rcases List.mem_cons.mp h with heq | h
      · obtain ⟨rfl, rfl⟩ := Prod.mk.inj heq
        rw [List.flatten_cons, List.flatten_cons, ← List.append_assoc]
        exact (List.prefix_append _ _).isInfix
      · exact (ih h).trans (List.suffix_append x _).isInfix

/-- **A merge leaves the text as it is.** -/
theorem flatten_mergeSeq (a b : List Char) (seq : Seq) :
    (mergeSeq a b seq).flatten = seq.flatten := by
  fun_induction mergeSeq a b seq with
  | case1 x y rest hpair ih =>
    obtain ⟨rfl, rfl⟩ := hpair
    rw [List.flatten_cons, ih, List.flatten_cons, List.flatten_cons, List.append_assoc]
  | case2 x y rest _ ih => rw [List.flatten_cons, ih, ← List.flatten_cons]
  | case3 => rfl

/-- Merging makes no empty piece. -/
theorem nil_notMem_mergeSeq {a b : List Char} (hab : a ++ b ≠ []) {seq : Seq} (h : [] ∉ seq) :
    [] ∉ mergeSeq a b seq := by
  fun_induction mergeSeq a b seq with
  | case1 x y rest _ ih =>
    rw [List.mem_cons, List.mem_cons, not_or, not_or] at h
    rw [List.mem_cons, not_or]
    exact ⟨hab.symm, ih h.2.2⟩
  | case2 x y rest _ ih =>
    rw [List.mem_cons, not_or] at h
    rw [List.mem_cons, not_or]
    exact ⟨h.1, ih h.2⟩
  | case3 => exact h

/-! ## The vocabulary -/

/-- Where a learned piece comes from: it is forced, or it is an acceptable part of a text. -/
def Learned (texts forced : List String) (p : List Char) : Prop :=
  p ≠ [] ∧ ((∃ f ∈ forced, p = f.toList) ∨ acceptable p = true ∧ ∃ t ∈ texts, p <:+: t.toList)

/-- A vocabulary that has learned some pieces. -/
structure Grown (texts forced : List String) (s : Training) (learned : List (List Char)) :
    Prop where
  tokens : s.tokens = (base texts).tokens ++ learned.map Text.bytes
  distinct : s.tokens.Nodup
  scores : s.scores = (base texts).scores ++ (List.range learned.length).map score
  rank : s.rank = learned.length
  pieces : ∀ p ∈ learned, Learned texts forced p

variable {texts forced : List String}

/-- A learned piece is added once, or is there already. -/
theorem Grown.add {s : Training} {learned : List (List Char)} (h : Grown texts forced s learned)
    {p : List Char} (hp : Learned texts forced p) :
    ∃ learned', Grown texts forced (s.add p) learned' ∧ learned'.length ≤ learned.length + 1 := by
  rw [Training.add]
  split_ifs with hknown
  · exact ⟨learned, h, Nat.le_succ _⟩
  · refine ⟨learned ++ [p], ⟨?_, ?_, ?_, ?_, ?_⟩, (List.length_append ..).le⟩
    · rw [h.tokens, List.map_append, List.append_assoc]
      rfl
    · exact h.distinct.append (List.nodup_singleton _) (by simpa using hknown)
    · rw [h.scores, h.rank, List.length_append, List.length_singleton, List.range_succ,
        List.map_append, List.append_assoc]
      rfl
    · rw [h.rank, List.length_append, List.length_singleton]
    · intro q hq
      rcases List.mem_append.mp hq with hq | hq
      · exact h.pieces q hq
      · rw [List.mem_singleton.mp hq]
        exact hp

/-- **Forced pieces** are added while the budget lasts. Induction over the list of them. -/
theorem Grown.forceAll {rest : List String} (hrest : ∀ f ∈ rest, f ∈ forced) :
    ∀ {budget : ℕ} {s : Training} {learned : List (List Char)}, Grown texts forced s learned →
      ∃ learned', Grown texts forced (forceAll rest budget s).1 learned' ∧
        learned'.length + (BpeTrain.forceAll rest budget s).2 ≤ learned.length + budget := by
  induction rest with
  | nil => exact fun h => ⟨_, h, le_rfl⟩
  | cons f rest ih =>
    intro budget s learned h
    have hrest' : ∀ f ∈ rest, f ∈ forced := fun g hg => hrest g (List.mem_cons_of_mem f hg)
    rw [BpeTrain.forceAll]
    split_ifs with hlong
    · have hne : f.toList ≠ [] := List.ne_nil_of_length_pos (by omega)
      obtain ⟨learned', h', hlen⟩ := h.add ⟨hne, .inl ⟨f, hrest f List.mem_cons_self, rfl⟩⟩
      obtain ⟨learned'', h'', hlen'⟩ := @ih hrest' (budget - 1) _ _ h'
      exact ⟨learned'', h'', by omega⟩
    · exact ih hrest' h

/-- A word is cut into pieces of a text. -/
def Cuts (texts : List String) (words : List Word) : Prop :=
  ∀ w ∈ words, w.text ∈ texts ∧ w.seq.flatten = w.text.toList ∧ [] ∉ w.seq

/-- The words start as their characters. -/
theorem cuts_startWords : Cuts texts (startWords texts) := by
  intro w hw
  obtain ⟨t, ht, rfl⟩ := List.mem_map.mp hw
  refine ⟨List.mem_eraseDups.mp ht, ?_, by simp⟩
  rw [← List.flatMap_def, List.flatMap_singleton']

/-- **Merging**: each turn learns at most one piece, which a text contains. Induction over the
budget. -/
theorem Grown.mergeAll : ∀ {budget : ℕ} {words : List Word} {s : Training}
    {learned : List (List Char)}, Cuts texts words → Grown texts forced s learned →
      ∃ learned', Grown texts forced (mergeAll budget words s) learned' ∧
        learned'.length ≤ learned.length + budget
  | 0, _, _, learned, _, h => ⟨learned, h, le_rfl⟩
  | budget + 1, words, s, learned, hcuts, h => by
    rw [BpeTrain.mergeAll]
    cases hbest : bestMerge words with
    | none => exact ⟨learned, h, Nat.le_add_right _ _⟩
    | some pair =>
      obtain ⟨a, b⟩ := pair
      obtain ⟨haccept, w, hw, hpair⟩ := bestMerge_spec hbest
      obtain ⟨htext, hflat, hnil⟩ := hcuts w hw
      have hne : a ++ b ≠ [] := by
        intro hab
        have ha : a ∈ w.seq := (List.of_mem_zip hpair).1
        exact hnil ((List.append_eq_nil_iff.mp hab).1 ▸ ha)
      have hinfix : a ++ b <:+: w.text.toList := hflat ▸ infix_of_adjacent hpair
      obtain ⟨learned', h', hlen⟩ := h.add
        ⟨hne, .inr ⟨haccept, w.text, htext, hinfix⟩⟩
      have hcuts' : Cuts texts (words.map fun w => { w with seq := mergeSeq a b w.seq }) := by
        intro w' hw'
        obtain ⟨w'', hw'', rfl⟩ := List.mem_map.mp hw'
        obtain ⟨htext', hflat', hnil'⟩ := hcuts w'' hw''
        exact ⟨htext', (flatten_mergeSeq a b _).trans hflat', nil_notMem_mergeSeq hne hnil'⟩
      obtain ⟨learned'', h'', hlen'⟩ := @Grown.mergeAll budget _ _ _ hcuts' h'
      exact ⟨learned'', h'', by omega⟩

/-! ### What the training starts from -/

/-- Characters are told apart by their bytes. -/
theorem utf8EncodeChar_injective : Function.Injective String.utf8EncodeChar := by
  intro c d h
  have hc := decodeChar_encode c []
  rw [h, decodeChar_encode d [], Option.some_inj] at hc
  exact (Prod.mk.inj hc).1.symm

/-- A character whose bytes have a `<` is this character. -/
theorem utf8EncodeChar_eq_of_mem {c : Char} (h : 0x3c ∈ String.utf8EncodeChar c) : c = '<' := by
  rcases Nat.lt_or_ge c.toNat 0x80 with hascii | hlong
  · rw [utf8EncodeChar_ascii hascii, List.mem_singleton] at h
    have hn := congrArg UInt8.toNat h
    rw [UInt8.toNat_ofNat', Nat.mod_eq_of_lt (by omega)] at hn
    have hchar : Char.ofNat c.toNat = Char.ofNat 0x3c := congrArg Char.ofNat hn.symm
    rwa [Char.ofNat_toNat] at hchar
  · exact absurd (le_of_mem_utf8EncodeChar hlong _ h) (by decide)

/-- A piece with a first `<` and something behind it is no character. -/
theorem utf8EncodeChar_ne {c : Char} {p : List UInt8} (hp : 0x3c ∈ p) (hlen : 1 < p.length) :
    String.utf8EncodeChar c ≠ p := by
  rintro rfl
  rw [utf8EncodeChar_eq_of_mem hp] at hlen
  exact absurd hlen (by decide)

/-- The byte tokens are different from one another. -/
theorem nodup_byteTokens :
    ((List.range 256).map fun n => Tokenizer.byteToken (UInt8.ofNat n)).Nodup := by
  refine List.Nodup.map_on ?_ List.nodup_range
  intro m hm n hn heq
  have hmn := congrArg UInt8.toNat (Tokenizer.byteToken_injective heq)
  rw [UInt8.toNat_ofNat', UInt8.toNat_ofNat', Nat.mod_eq_of_lt (List.mem_range.mp hm),
    Nat.mod_eq_of_lt (List.mem_range.mp hn)] at hmn
  exact hmn

/-- The characters of the texts are listed once. -/
theorem nodup_chars : (chars texts).Nodup :=
  (List.perm_insertionSort _ _).nodup_iff.mpr (List.nodup_dedup _)

/-- They are the characters of the texts. -/
theorem mem_chars {c : Char} : c ∈ chars texts ↔ ∃ t ∈ texts, c ∈ t.toList := by
  rw [chars, (List.perm_insertionSort _ _).mem_iff, List.mem_dedup, List.mem_flatMap]

/-- The base vocabulary has no piece twice: markers, byte tokens and characters do not overlap. -/
theorem distinct_base : (base texts).tokens.Nodup := by
  have hmarkers : ∀ p ∈ [unk, bosPiece, eosPiece], 0x3c ∈ p ∧ 1 < p.length ∧ p.length ≠ 6 := by
    decide
  have hbyte : ∀ p ∈ (List.range 256).map (fun n => Tokenizer.byteToken (UInt8.ofNat n)),
      0x3c ∈ p ∧ p.length = 6 := by
    intro p hp
    obtain ⟨n, -, rfl⟩ := List.mem_map.mp hp
    exact ⟨List.mem_cons_self, rfl⟩
  have hfirst : ([unk, bosPiece, eosPiece] ++
      (List.range 256).map fun n => Tokenizer.byteToken (UInt8.ofNat n)).Nodup := by
    refine List.Nodup.append (by decide) nodup_byteTokens fun p hp hp' => ?_
    exact (hmarkers p hp).2.2 (hbyte p hp').2
  refine hfirst.append ((List.nodup_map_iff utf8EncodeChar_injective).mpr nodup_chars) ?_
  intro p hp hchar
  obtain ⟨c, -, rfl⟩ := List.mem_map.mp hchar
  rcases List.mem_append.mp hp with hp | hp
  · exact utf8EncodeChar_ne (hmarkers _ hp).1 (hmarkers _ hp).2.1 rfl
  · exact utf8EncodeChar_ne (hbyte _ hp).1 (by rw [(hbyte _ hp).2]; decide) rfl

/-- Training starts with nothing learned. -/
theorem grown_base : Grown texts forced (base texts) [] :=
  ⟨(List.append_nil _).symm, distinct_base, (List.append_nil _).symm, rfl,
    fun _ hp => absurd hp List.not_mem_nil⟩

/-- The base has three markers, 256 bytes and the characters. -/
theorem length_base : (base texts).tokens.length = 259 + (chars texts).length := by
  simp only [base, Tokenizer.withBytes, List.length_append, List.length_map, List.length_range]
  rfl

/-- What the training has learned. -/
structure Vocabulary (texts : List String) (vocabSize : ℕ) (forced : List String) (b : FloatBpe)
    (learned : List (List Char)) : Prop where
  /-- The layout of the device: markers, byte tokens, characters, learned pieces. -/
  tokens : b.tokens = Tokenizer.withBytes unk bosPiece eosPiece
    ((chars texts).map String.utf8EncodeChar ++ learned.map Text.bytes)
  distinct : b.tokens.Nodup
  size : b.tokens.length ≤ max vocabSize (259 + (chars texts).length)
  /-- A learned piece is forced, or it is a short word of the corpus. -/
  pieces : ∀ p ∈ learned, Learned texts forced p
  scores : b.scores = List.replicate (259 + (chars texts).length) (Binary64.zero false) ++
    (List.range learned.length).map score

/-- **What the training returns.** -/
theorem train_vocabulary (texts : List String) (vocabSize : ℕ) (forced : List String) :
    ∃ learned, Vocabulary texts vocabSize forced (train texts vocabSize forced) learned := by
  obtain ⟨budget, hbudget⟩ : ∃ budget, budget = vocabSize - (base texts).tokens.length := ⟨_, rfl⟩
  have hbase : Grown texts forced (base texts) [] := grown_base
  obtain ⟨mid, hmid, hlen⟩ := @Grown.forceAll _ _ forced (fun _ hf => hf) budget _ _ hbase
  have hcuts : Cuts texts (startWords texts) := cuts_startWords
  obtain ⟨learned, h, hlen'⟩ :=
    @Grown.mergeAll _ _ (forceAll forced budget (base texts)).2 _ _ _ hcuts hmid
  have htrain : train texts vocabSize forced =
      ⟨(mergeAll (forceAll forced budget (base texts)).2 (startWords texts)
          (forceAll forced budget (base texts)).1).tokens,
        (mergeAll (forceAll forced budget (base texts)).2 (startWords texts)
          (forceAll forced budget (base texts)).1).scores⟩ := by
    rw [hbudget]
    rfl
  rw [htrain]
  refine ⟨learned, ?_, h.distinct, ?_, h.pieces, ?_⟩
  · rw [h.tokens, Tokenizer.withBytes, ← List.append_assoc]
    rfl
  · have hbaseLen : (base texts).tokens.length = 259 + (chars texts).length := length_base
    rw [h.tokens, List.length_append, List.length_map]
    rw [List.length_nil, Nat.zero_add] at hlen
    omega
  · rw [h.scores, ← length_base]
    rfl

/-! ## Scores -/

open Binary64 in
/-- Integers up to 2^53 are doubles. -/
theorem nearest_of_le {z : ℤ} (h : z.natAbs ≤ 2 ^ 53) : nearest z = z := by
  rw [nearest, rnd_of_le h]
  split_ifs <;> omega

open Binary64 in
/-- **The score of a rank** is exact. -/
theorem score_eq {k : ℕ} (hk : k + 1 < 2 ^ 24) :
    (score k).isFinite = true ∧ (score k).scaled = -((k : ℤ) + 1) * 2 ^ 1074 := by
  have hle : ((k : ℤ) + 1).natAbs < 2 ^ 24 := by omega
  obtain ⟨hfin, hscaled⟩ := ofInt_eq (z := k) (by omega)
  obtain ⟨hfin', hscaled'⟩ := ofInt_eq (z := 1) (by decide)
  rw [nearest_of_le (by omega)] at hscaled
  rw [nearest_of_le (by decide)] at hscaled'
  have hsum : (ofInt k).scaled + (ofInt 1).scaled = ((k : ℤ) + 1) * 2 ^ 1074 := by
    rw [hscaled, hscaled', Int.add_mul]
  have hsmall : ((ofInt k).scaled + (ofInt 1).scaled).natAbs < 2 ^ 2000 := by
    rw [hsum, natAbs_mul_two_pow]
    calc ((k : ℤ) + 1).natAbs * 2 ^ 1074 < 2 ^ 24 * 2 ^ 1074 :=
          Nat.mul_lt_mul_of_pos_right hle (Nat.two_pow_pos _)
      _ ≤ 2 ^ 2000 := by
        rw [← Nat.pow_add]
        exact Nat.pow_le_pow_right (by decide) (by decide)
  have hle' : ((k : ℤ) + 1).natAbs ≤ 2 ^ 53 := hle.le.trans (by decide)
  obtain ⟨hfinSum, hscaledSum⟩ := add_eq hfin hfin' hsmall
  obtain ⟨hfinNeg, hscaledNeg⟩ := neg_eq ((ofInt k).add (ofInt 1))
  rw [hsum, nearest_mul_two_pow, nearest_of_le hle'] at hscaledSum
  exact ⟨hfinNeg.trans hfinSum, by rw [score, hscaledNeg, hscaledSum, Int.neg_mul]⟩

/-- The word of the file for the score of a rank. -/
def scoreWord (k : ℕ) : UInt32 :=
  let n := k + 1
  UInt32.ofNat (2 ^ 31 + (n.log2 + 126) * 2 ^ 23 + n * 2 ^ (23 - n.log2))

/-- The fields of the word of a score. -/
theorem fields_scoreWord {k : ℕ} (hk : k + 1 < 2 ^ 24) :
    Binary32.isNeg ⟨scoreWord k⟩ = true ∧
      Binary32.expo ⟨scoreWord k⟩ = (k + 1).log2 + 127 ∧ (k + 1).log2 < 24 ∧
      2 ^ 23 + Binary32.frac ⟨scoreWord k⟩ = (k + 1) * 2 ^ (23 - (k + 1).log2) := by
  obtain ⟨hle, hlt⟩ := Binary64.log2_bounds (n := k + 1) (by omega)
  have hlog : (k + 1).log2 < 24 := (Nat.log2_lt (by omega)).mpr hk
  obtain ⟨m, hm⟩ : ∃ m, m = (k + 1) * 2 ^ (23 - (k + 1).log2) := ⟨_, rfl⟩
  have hpow : ∀ e, e ≤ 24 → 2 ^ e * 2 ^ (23 - (k + 1).log2) = 2 ^ (e + (23 - (k + 1).log2)) :=
    fun e _ => (Nat.pow_add 2 e _).symm
  have hpos := Nat.two_pow_pos (23 - (k + 1).log2)
  have hlow : 2 ^ 23 ≤ m := by
    have h := Nat.mul_le_mul_right (2 ^ (23 - (k + 1).log2)) hle
    rw [← Nat.pow_add, show (k + 1).log2 + (23 - (k + 1).log2) = 23 by omega] at h
    exact hm ▸ h
  have hhigh : m < 2 ^ 24 := by
    have h := Nat.mul_lt_mul_of_pos_right hlt hpos
    rw [← Nat.pow_add, show (k + 1).log2 + 1 + (23 - (k + 1).log2) = 24 by omega] at h
    exact hm ▸ h
  have hbits : (scoreWord k).toNat = 2 ^ 31 + ((k + 1).log2 + 126) * 2 ^ 23 + m := by
    rw [scoreWord, ← hm, UInt32.toNat_ofNat']
    omega
  refine ⟨decide_eq_true ?_, ?_, hlog, ?_⟩
  · dsimp only
    omega
  · rw [Binary32.expo, hbits]
    omega
  · rw [Binary32.frac, hbits, ← hm]
    omega

/-- The search for the best pair starts below every score that is given. -/
theorem lowest_lt : FloatBpe.lowest.scaled < -2 ^ (24 + 1074) := by decide +kernel

/-- **The file keeps the score of a rank.** -/
theorem scored_score {k : ℕ} (hk : k + 1 < 2 ^ 24) :
    FloatBpe.Scored (scoreWord k) (score k) := by
  obtain ⟨hfin, hscaled⟩ := score_eq hk
  obtain ⟨hneg, hexpo, hlog, hfrac⟩ := fields_scoreWord hk
  have hnan : Binary32.isNaN ⟨scoreWord k⟩ = false := by
    rw [Binary32.isNaN, hexpo, decide_eq_false (by omega), Bool.false_and]
  have hmag : Binary32.mag ⟨scoreWord k⟩ = (k + 1) * 2 ^ 149 := by
    rw [Binary32.mag, hexpo, if_neg (by omega), if_neg (by omega), hfrac, Nat.mul_assoc,
      ← Nat.pow_add]
    congr 2
    omega
  refine ⟨⟨hnan, Binary64.isNaN_of_isFinite hfin, ?_⟩, ?_⟩
  · rw [hscaled, Binary32.scaled, hneg, if_pos rfl, hmag]
    rw [Nat.cast_mul, Nat.cast_pow, Nat.cast_add, Nat.cast_one, Nat.cast_ofNat, Int.neg_mul,
      Int.neg_mul, Int.mul_assoc, ← Int.pow_add]
  · have hle : ((k : ℤ) + 1) * 2 ^ 1074 ≤ 2 ^ 24 * 2 ^ 1074 :=
      Int.mul_le_mul_of_nonneg_right (by omega) (Int.pow_nonneg (by decide))
    rw [← Int.pow_add] at hle
    rw [Binary64.lt_eq rfl hfin, hscaled, Int.neg_mul]
    exact decide_eq_true (lowest_lt.trans_le (Int.neg_le_neg hle))

/-! ## On the device -/

variable {vocabSize : ℕ} {b : FloatBpe} {learned : List (List Char)}

/-- The words of the file for the scores of a vocabulary. -/
def words (texts : List String) (b : FloatBpe) : List UInt32 :=
  List.replicate (base texts).tokens.length 0 ++
    (List.range (b.tokens.length - (base texts).tokens.length)).map scoreWord

/-- The first score is zero. -/
theorem scored_zero : FloatBpe.Scored 0 (Binary64.zero false) :=
  ⟨⟨by decide, by decide, by decide +kernel⟩, by decide +kernel⟩

/-- The size of a vocabulary, by what it is made of. -/
theorem Vocabulary.length_tokens (h : Vocabulary texts vocabSize forced b learned) :
    b.tokens.length = 259 + (chars texts).length + learned.length := by
  rw [h.tokens]
  simp only [Tokenizer.withBytes, List.length_append, List.length_map, List.length_range,
    List.length_cons, List.length_nil]
  omega

/-- Its scores: zero for the base, and falling by one for what was learned. -/
theorem Vocabulary.words_eq (h : Vocabulary texts vocabSize forced b learned) :
    words texts b = List.replicate (259 + (chars texts).length) 0 ++
      (List.range learned.length).map scoreWord := by
  rw [words, length_base, h.length_tokens, Nat.add_sub_cancel_left]

/-- **The file keeps the scores** of a vocabulary. -/
theorem Vocabulary.scored (h : Vocabulary texts vocabSize forced b learned)
    (hsize : b.tokens.length ≤ 2 ^ 24) :
    List.Forall₂ FloatBpe.Scored (words texts b) b.scores := by
  have hlen := h.length_tokens
  rw [h.words_eq, h.scores]
  refine List.rel_append ?_ ?_
  · exact List.forall₂_iff_get.mpr ⟨by simp, fun i hi hi' => by simpa using scored_zero⟩
  · rw [List.forall₂_map_left_iff, List.forall₂_map_right_iff, List.forall₂_same]
    intro k hk
    have hk := List.mem_range.mp hk
    exact scored_score (by omega)

/-- The device reads the vocabulary from its file. -/
theorem Vocabulary.exists_readFrom (h : Vocabulary texts vocabSize forced b learned)
    (hsize : b.tokens.length ≤ 2 ^ 24) {M : Machine} {buf : Buffer M}
    (hfile : (Bpe.mk b.tokens (words texts b)).writeTokenizerBin = some buf.1)
    (hroom : Tokenizer.HasRoom M b.tokens.length) :
    ∃ t, Tokenizer.fromBytes M.strict FloatBpe.wordCompare buf.1 b.tokens.length = .ok t ∧
      FloatBpe.ReadFrom b t := by
  have hwords : (words texts b).length = b.tokens.length := by
    rw [h.words_eq, h.length_tokens, List.length_append, List.length_replicate, List.length_map,
      List.length_range]
  have hrecords : (Bpe.mk b.tokens (words texts b)).records.length = b.tokens.length := by
    rw [Bpe.records, List.length_zip, hwords, Nat.min_self]
  obtain ⟨t, hread, hvocab, hscores⟩ := fromBytes_writeTokenizerBin FloatBpe.wordCompare hfile
    (hrecords ▸ hroom)
  rw [hrecords] at hread
  have hid : ∀ l : List (List UInt8 × UInt32),
      (l.map fun p => FloatBpe.wordCompare.ofBits p.2) = l.map Prod.snd := fun _ => rfl
  refine ⟨t, hread, ?_, h.distinct, ?_⟩
  · rw [hvocab, Bpe.records, List.map_fst_zip hwords.ge]
  · rw [hscores, hid, Bpe.records, List.map_snd_zip hwords.le]
    exact h.scored hsize

/-- **On the device the file of the vocabulary gives the tokens of the training code**, for
every text. -/
theorem trained_on_device (texts : List String) (vocabSize : ℕ) (forced : List String)
    (hsize : (train texts vocabSize forced).tokens.length ≤ 2 ^ 24) (M : Machine) (buf : Buffer M)
    (hfile : (Bpe.mk (train texts vocabSize forced).tokens
      (words texts (train texts vocabSize forced))).writeTokenizerBin = some buf.1)
    (hroom : Tokenizer.HasRoom M (train texts vocabSize forced).tokens.length) :
    List.Forall₂ FloatBpe.Scored (words texts (train texts vocabSize forced))
        (train texts vocabSize forced).scores ∧
      ∃ t, Tokenizer.fromBytes M.strict FloatBpe.wordCompare buf.1
          (train texts vocabSize forced).tokens.length = .ok t ∧
        ∀ text bos eos, t.encode FloatBpe.wordCompare text bos eos =
          (train texts vocabSize forced).encode text bos eos := by
  obtain ⟨learned, h⟩ := train_vocabulary texts vocabSize forced
  obtain ⟨t, ht, hread⟩ := h.exists_readFrom hsize hfile hroom
  exact ⟨h.scored hsize, t, ht, hread.encode_eq⟩

/-- The file of the pieces of `ab ab`. -/
def smallFile : Buffer usize32 :=
  let b := train ["ab ab"] 263 []
  ⟨((Bpe.mk b.tokens (words ["ab ab"] b)).writeTokenizerBin).getD [], by decide +kernel⟩

/-- The small vocabulary leaves the loader's sums their room. -/
theorem hasRoom_small : Tokenizer.HasRoom usize32 (train ["ab ab"] 263 []).tokens.length := by
  have hlen : (train ["ab ab"] 263 []).tokens.length = 263 := by decide +kernel
  rw [hlen, Tokenizer.HasRoom]
  decide +kernel

/-- The word `ab`. -/
theorem trained_on_device_small :
    ∃ t, Tokenizer.fromBytes usize32.strict FloatBpe.wordCompare smallFile.1
        (train ["ab ab"] 263 []).tokens.length = .ok t ∧
      t.encode FloatBpe.wordCompare "ab" true true =
        (train ["ab ab"] 263 []).encode "ab" true true := by
  obtain ⟨-, t, ht, hencode⟩ := trained_on_device ["ab ab"] 263 [] (by decide +kernel) usize32
    smallFile (by decide +kernel) hasRoom_small
  refine ⟨t, ht, ?_⟩
  exact hencode "ab" true true

end BpeTrain

/-! ## Decoding in the training code -/

namespace FloatBpe

/-- A space of `int`. -/
def intSpace (c : UInt8) : Bool := (9 ≤ c.toNat && c.toNat ≤ 13) || c = 0x20

/-- `int(s, 16)`, for two bytes. -/
def int16 (x y : UInt8) : Option ℤ :=
  match Tokenizer.hexVal x, Tokenizer.hexVal y with
  | some hi, some lo => some (16 * hi.toNat + lo.toNat)
  | some d, none => if intSpace y then some d.toNat else none
  | none, some d =>
    if intSpace x ∨ x = 0x2b then some d.toNat else if x = 0x2d then some (-d.toNat) else none
  | none, none => none

/-- `_parse_hex_byte`. -/
def parseHexByte (piece : List UInt8) : Option ℤ :=
  if piece.length = 6 ∧ piece.take 3 = [0x3c, 0x30, 0x78] ∧ piece.drop 5 = [0x3e] then
    int16 (piece.getD 3 0) (piece.getD 4 0)
  else none

/-- The piece without the space in front of the text. -/
def stripSpace (prev : ℤ) (piece : List UInt8) : List UInt8 :=
  if prev = BOS ∧ piece.take 1 = [0x20] then piece.drop 1 else piece

/-- What a piece adds to the bytes; `bytes` raises an error on a negative number. -/
def pieceBytes (piece : List UInt8) : Option (List UInt8) :=
  match parseHexByte piece with
  | none => some piece
  | some hb => if 0 ≤ hb ∧ hb < 256 then some [UInt8.ofNat hb.toNat] else none

/-- The loop of `decode`. -/
def decodeFrom (b : FloatBpe) : ℤ → List ℤ → Option (List UInt8)
  | _, [] => some []
  | prev, tid :: ids =>
    if tid < 0 ∨ b.tokens.length ≤ tid then decodeFrom b prev ids
    else do
      let bytes ← pieceBytes (stripSpace prev (b.tokens.getD tid.toNat []))
      let rest ← decodeFrom b tid ids
      some (bytes ++ rest)

/-- `decode`. -/
def decode (b : FloatBpe) (ids : List ℤ) : Option String :=
  (b.decodeFrom BOS ids).map fromUtf8Lossy

end FloatBpe

namespace BpeTrain

open Tokenizer (byteToken withBytes)

/-! ### One token -/

/-- Two hexadecimal digits are read as their byte. -/
theorem int16_hexDigits (c : UInt8) :
    FloatBpe.int16 (Tokenizer.hexDigit (c.toNat / 16)) (Tokenizer.hexDigit (c.toNat % 16)) =
      some (c.toNat : ℤ) := by
  have hc := c.toNat_lt
  have hhi := Tokenizer.hexVal_hexDigit ⟨c.toNat / 16, by omega⟩
  have hlo := Tokenizer.hexVal_hexDigit ⟨c.toNat % 16, by omega⟩
  dsimp only at hhi hlo
  rw [FloatBpe.int16, hhi, hlo]
  simp only [UInt8.toNat_ofNat', Option.some_inj]
  omega

/-- A byte token is read back as its byte. -/
theorem pieceBytes_byteToken (c : UInt8) : FloatBpe.pieceBytes (byteToken c) = some [c] := by
  have hparse : FloatBpe.parseHexByte (byteToken c) = some (c.toNat : ℤ) := int16_hexDigits c
  have hc := c.toNat_lt
  rw [FloatBpe.pieceBytes, hparse]
  dsimp only
  rw [if_pos ⟨by omega, by omega⟩, Int.toNat_natCast, UInt8.ofNat_toNat]

/-- One token is decoded. -/
theorem decodeFrom_cons {b : FloatBpe} {id : ℕ} {p : List UInt8} (hp : b.tokens[id]? = some p)
    (prev : ℤ) (ids : List ℤ) :
    b.decodeFrom prev (id :: ids) =
      (FloatBpe.pieceBytes (FloatBpe.stripSpace prev p)).bind fun bytes =>
        (b.decodeFrom id ids).bind fun rest => some (bytes ++ rest) := by
  obtain ⟨hlt, -⟩ := List.getElem?_eq_some_iff.mp hp
  rw [FloatBpe.decodeFrom, if_neg (by omega), Int.toNat_natCast, List.getD_eq_getElem?_getD, hp]
  rfl

/-! ### Vocabularies with nothing of a marker -/

/-- A marker or a byte token: between angles, with none inside. -/
def Angled (p : List UInt8) : Prop := ∃ m, p = 0x3c :: (m ++ [0x3e]) ∧ 0x3c ∉ m ∧ 0x3e ∉ m

/-- A byte token is written in angle brackets. -/
theorem angled_byteToken (b : UInt8) : Angled (byteToken b) := by
  have hdigit : ∀ n : Fin 16, Tokenizer.hexDigit n ≠ 0x3c ∧ Tokenizer.hexDigit n ≠ 0x3e := by
    decide
  have hb := b.toNat_lt
  have hhi := hdigit ⟨b.toNat / 16, by omega⟩
  have hlo := hdigit ⟨b.toNat % 16, by omega⟩
  refine ⟨[0x30, 0x78, Tokenizer.hexDigit (b.toNat / 16), Tokenizer.hexDigit (b.toNat % 16)], rfl,
    ?_, ?_⟩
  · simpa using ⟨hhi.1.symm, hlo.1.symm⟩
  · simpa using ⟨hhi.2.symm, hlo.2.symm⟩

/-- So are the markers. -/
theorem angled_marker {p : List UInt8} (hp : p ∈ [unk, bosPiece, eosPiece]) : Angled p := by
  simp only [List.mem_cons, List.not_mem_nil, or_false] at hp
  rcases hp with rfl | rfl | rfl
  · exact ⟨[0x75, 0x6e, 0x6b], rfl, by decide, by decide⟩
  · exact ⟨[0x73], rfl, by decide, by decide⟩
  · exact ⟨[0x2f, 0x73], rfl, by decide, by decide⟩

/-- An angled piece ends where its angles do. -/
theorem Angled.eq_of_append {p q : List UInt8} (hp : Angled p) (hq : Angled q) (h : p <+: q) :
    p = q := by
  obtain ⟨m, rfl, -, -⟩ := hp
  obtain ⟨m', rfl, -, hclose⟩ := hq
  obtain ⟨y, hy⟩ := h
  have hy : m ++ [0x3e] ++ y = m' ++ [0x3e] := (List.cons.inj hy).2
  rcases List.eq_nil_or_concat' y with rfl | ⟨y', last, rfl⟩
  · rw [← hy, List.append_nil]
  · rw [← List.append_assoc] at hy
    have hm := (List.append_inj' hy rfl).1
    exact absurd (hm ▸ by simp) hclose

/-- An angled piece in another one is all of it. -/
theorem Angled.eq_of_infix {p q : List UInt8} (hp : Angled p) (hq : Angled q) (h : p <:+: q) :
    p = q := by
  obtain ⟨x, y, hxy⟩ := h
  cases x with
  | nil => exact hp.eq_of_append hq ⟨y, hxy⟩
  | cons c x =>
    obtain ⟨m, rfl, -, -⟩ := hp
    obtain ⟨m', rfl, hopen, -⟩ := hq
    have htail : x ++ 0x3c :: (m ++ [0x3e]) ++ y = m' ++ [0x3e] := (List.cons.inj hxy).2
    have hmem : (0x3c : UInt8) ∈ m' ++ [0x3e] := by
      rw [← htail]
      simp
    rcases List.mem_append.mp hmem with hmem | hmem
    · exact absurd hmem hopen
    · exact absurd hmem (by decide)

/-- What is in angle brackets has an opening one. -/
theorem Angled.open_mem {p : List UInt8} (hp : Angled p) : 0x3c ∈ p := by
  obtain ⟨m, rfl, -, -⟩ := hp
  exact List.mem_cons_self

/-- So has every special piece. -/
theorem angled_special {more : List (List UInt8)} {t : Tokenizer UInt32}
    (ht : t.vocab = withBytes unk bosPiece eosPiece more) {p : List UInt8} (hp : t.Special p) :
    Angled p := by
  rcases hp with ⟨c, rfl⟩ | hbos | heos
  · exact angled_byteToken c
  · rw [ht] at hbos
    exact Option.some_inj.mp hbos ▸ angled_marker (by decide)
  · rw [ht] at heos
    exact Option.some_inj.mp heos ▸ angled_marker (by decide)

/-- The pieces behind the byte tokens have no `<`, and one of them is the space. -/
structure Clear (more : List (List UInt8)) : Prop where
  nonempty : [] ∉ more
  noOpen : ∀ p ∈ more, 0x3c ∉ p
  space : [0x20] ∈ more

section Clear

variable {more : List (List UInt8)} (h : Clear more)

include h

/-- A piece with a `<` is angled. -/
theorem Clear.angled {p : List UInt8} (hp : p ∈ withBytes unk bosPiece eosPiece more)
    (hopen : 0x3c ∈ p) : Angled p := by
  rcases Tokenizer.mem_withBytes.mp hp with hp | ⟨b, rfl⟩
  · rcases List.mem_append.mp hp with hp | hp
    · exact angled_marker hp
    · exact absurd hopen (h.noOpen p hp)
  · exact angled_byteToken b

/-- No piece of a clear vocabulary is empty. -/
theorem Clear.ne_nil {p : List UInt8} (hp : p ∈ withBytes unk bosPiece eosPiece more) : p ≠ [] := by
  rintro rfl
  rcases Tokenizer.mem_withBytes.mp hp with hp | ⟨b, hb⟩
  · rcases List.mem_append.mp hp with hp | hp
    · exact absurd (angled_marker hp).open_mem List.not_mem_nil
    · exact h.nonempty hp
  · exact absurd ((angled_byteToken b).open_mem) (hb ▸ List.not_mem_nil)

/-- What is read of a piece that is no byte token does not start like one. -/
theorem Clear.take_ne {p : List UInt8} (hp : p ∈ withBytes unk bosPiece eosPiece more)
    (hbyte : ∀ c, p ≠ byteToken c) :
    p.take 3 ≠ [0x3c, 0x30, 0x78] ∧ (p.drop 1).take 3 ≠ [0x3c, 0x30, 0x78] := by
  rcases Tokenizer.mem_withBytes.mp hp with hp | ⟨c, hc⟩
  · rcases List.mem_append.mp hp with hp | hp
    · have hmarkers : ∀ p ∈ [unk, bosPiece, eosPiece],
          p.take 3 ≠ [0x3c, 0x30, 0x78] ∧ (p.drop 1).take 3 ≠ [0x3c, 0x30, 0x78] := by decide
      exact hmarkers p hp
    · have hno := h.noOpen p hp
      constructor
      · intro htake
        exact hno (List.mem_of_mem_take (htake ▸ List.mem_cons_self))
      · intro htake
        exact hno (List.mem_of_mem_drop (List.mem_of_mem_take (htake ▸ List.mem_cons_self)))
  · exact absurd hc (hbyte c)

variable {t : Tokenizer UInt32} (ht : t.vocab = withBytes unk bosPiece eosPiece more)

include ht

/-- **A clear vocabulary** has the byte tokens, and makes none of them of other pieces. -/
theorem Clear.byteVocab (hdistinct : t.vocab.Nodup) : t.ByteVocab where
  distinct := hdistinct
  space := ht ▸ Tokenizer.mem_withBytes.mpr (.inl (List.mem_append_right _ h.space))
  bytes c := ht ▸ Tokenizer.getElem_withBytes c
  concat p hp q hq hspecial := by
    rw [ht] at hp hq
    have hangled := angled_special ht hspecial
    have hopen : 0x3c ∈ p := by
      obtain ⟨m, hm, -, -⟩ := hangled
      cases p with
      | nil => exact absurd rfl (h.ne_nil hp)
      | cons x p => exact (List.cons.inj hm).1 ▸ List.mem_cons_self
    have heq := (h.angled hp hopen).eq_of_append hangled (List.prefix_append p q)
    exact h.ne_nil hq (List.append_right_eq_self.mp heq.symm)
  contains p hp q hspecial hpart := by
    rw [ht] at hp
    have hangled := angled_special ht hspecial
    exact hangled.eq_of_infix (h.angled hp (hpart.subset hangled.open_mem)) hpart

/-- Every text can be told from the markers. -/
theorem Clear.unambiguous (text : String) : t.Unambiguous text where
  reads p hp hbyte prev := by
    obtain ⟨hwhole, hstripped⟩ := h.take_ne (ht ▸ hp) hbyte
    rw [Tokenizer.stripSpace]
    split_ifs
    · exact if_neg fun hand => hstripped hand.2.1
    · exact if_neg fun hand => hwhole hand.2.1
  plain c _ := by
    rw [ht]
    constructor
    · exact fun hbos => utf8EncodeChar_ne (by decide) (by decide) (Option.some_inj.mp hbos).symm
    · exact fun heos => utf8EncodeChar_ne (by decide) (by decide) (Option.some_inj.mp heos).symm

/-! ### Decoding what stands for a text -/

omit ht in
/-- A piece that is no byte token stands for itself. -/
theorem Clear.pieceBytes {p : List UInt8} (hp : p ∈ withBytes unk bosPiece eosPiece more)
    (hbyte : ∀ c, p ≠ byteToken c) (prev : ℤ) :
    FloatBpe.pieceBytes (FloatBpe.stripSpace prev p) = some (FloatBpe.stripSpace prev p) := by
  obtain ⟨hwhole, hstripped⟩ := h.take_ne hp hbyte
  have hnone : FloatBpe.parseHexByte (FloatBpe.stripSpace prev p) = none := by
    rw [FloatBpe.stripSpace]
    split_ifs
    · exact if_neg fun hand => hstripped hand.2.1
    · exact if_neg fun hand => hwhole hand.2.1
  rw [FloatBpe.pieceBytes, hnone]

variable {b : FloatBpe} (hb : b.tokens = t.vocab)

include hb

/-- **Tokens decode to what they stand for**, behind anything but the first marker. -/
theorem Clear.decodeFrom_stands {ids : List ℕ} {s : List UInt8} (hs : t.Stands ids s) :
    ∀ {prev : ℤ}, prev ≠ BOS → b.decodeFrom prev (ids.map (↑)) = some s := by
  have hstrip : ∀ {prev : ℤ}, prev ≠ BOS → ∀ p, FloatBpe.stripSpace prev p = p :=
    fun hprev p => if_neg fun hand => hprev hand.1
  induction hs with
  | nil => exact fun _ => rfl
  | @byte c ids s _ ih =>
    intro prev hprev
    have hget : b.tokens[c.toNat + 3]? = some (byteToken c) := by
      rw [hb, ht, Tokenizer.getElem_withBytes]
    have hid : ((c.toNat + 3 : ℕ) : ℤ) ≠ BOS := by
      rw [BOS]
      omega
    rw [List.map_cons, decodeFrom_cons hget, hstrip hprev, pieceBytes_byteToken, ih hid]
    rfl
  | @piece id p ids s hp hplain _ ih =>
    intro prev hprev
    have hid : (id : ℤ) ≠ BOS := by exact_mod_cast (Tokenizer.ne_marker hp hplain).1
    have hmem : p ∈ withBytes unk bosPiece eosPiece more := ht ▸ List.mem_of_getElem? hp
    rw [List.map_cons, decodeFrom_cons (hb ▸ hp),
      h.pieceBytes hmem (fun c hc => hplain (.inl ⟨c, hc⟩)), hstrip hprev, ih hid]
    rfl

/-- The space in front of a text is taken off. -/
theorem Clear.decodeFrom_encodes {text : String} {body : List ℕ}
    (hbody : t.Encodes text (BOS :: body)) :
    b.decodeFrom BOS (body.map (↑)) = some (utf8 text) := by
  obtain ⟨first, p, rest, s, htokens, hp, hplain, hrest, hs⟩ := hbody.eq_cons
  obtain ⟨-, rfl⟩ := List.cons.inj htokens
  have hid : (first : ℤ) ≠ BOS := by exact_mod_cast (Tokenizer.ne_marker hp hplain).1
  have hmem : p ∈ withBytes unk bosPiece eosPiece more := ht ▸ List.mem_of_getElem? hp
  rw [List.map_cons, decodeFrom_cons (hb ▸ hp),
    h.pieceBytes hmem (fun c hc => hplain (.inl ⟨c, hc⟩)), h.decodeFrom_stands ht hb hrest hid]
  cases p with
  | nil => exact absurd rfl (h.ne_nil hmem)
  | cons a p =>
    obtain ⟨rfl, htail⟩ := List.cons.inj hs
    have hstrip : FloatBpe.stripSpace BOS (0x20 :: p) = p := if_pos ⟨rfl, rfl⟩
    rw [hstrip, ← htail]
    rfl

omit h in
/-- A marker is spelled out where it stands at the end. -/
theorem decodeFrom_append_eos (ids : List ℤ) :
    ∀ prev : ℤ, b.decodeFrom prev (ids ++ [(EOS : ℤ)]) =
      (b.decodeFrom prev ids).map (· ++ eosPiece) := by
  have hget : b.tokens[EOS]? = some eosPiece := by
    rw [hb, ht]
    rfl
  induction ids with
  | nil =>
    intro prev
    have hstrip : FloatBpe.stripSpace prev eosPiece = eosPiece :=
      if_neg fun hand => absurd hand.2 (by decide)
    have hbytes : FloatBpe.pieceBytes eosPiece = some eosPiece := by decide
    rw [List.nil_append, decodeFrom_cons hget, hstrip, hbytes]
    rfl
  | cons id ids ih =>
    intro prev
    rw [List.cons_append, FloatBpe.decodeFrom, FloatBpe.decodeFrom]
    split_ifs
    · exact ih prev
    · rw [ih id]
      cases FloatBpe.pieceBytes (FloatBpe.stripSpace prev (b.tokens.getD id.toNat [])) with
      | none => rfl
      | some bytes =>
        cases b.decodeFrom id ids with
        | none => rfl
        | some rest => exact congrArg some (List.append_assoc ..).symm

omit h in
/-- And so is one at the front, where the space behind it is still taken off. -/
theorem decodeFrom_bos (ids : List ℤ) :
    b.decodeFrom BOS ((BOS : ℤ) :: ids) = (b.decodeFrom BOS ids).map (bosPiece ++ ·) := by
  have hget : b.tokens[BOS]? = some bosPiece := by
    rw [hb, ht]
    rfl
  have hstrip : FloatBpe.stripSpace BOS bosPiece = bosPiece := if_neg (by decide)
  have hbytes : FloatBpe.pieceBytes bosPiece = some bosPiece := by decide
  rw [decodeFrom_cons hget, hstrip, hbytes, Option.bind_some, Option.map_eq_bind]
  rfl

/-- The tokens between the markers. -/
theorem Clear.exists_body (hdistinct : t.vocab.Nodup) (ops : FloatOps UInt32) (text : String)
    (bos eos : Bool) :
    ∃ body, t.encode ops text bos eos =
        some ((if bos then [BOS] else []) ++ body ++ if eos then [EOS] else []) ∧
      b.decodeFrom BOS (body.map (↑)) = some (utf8 text) ∧ t.decodeAll BOS body = utf8 text := by
  have hvocab := h.byteVocab ht hdistinct
  have htext := h.unambiguous ht text
  have hend : ∀ tokens : List ℕ, (if eos then tokens ++ [EOS] else tokens) =
      tokens ++ if eos then [EOS] else [] := by
    intro tokens
    cases eos with
    | false => exact (List.append_nil tokens).symm
    | true => rfl
  -- what the merges end with, behind the marker or behind nothing
  have hbody : ∀ body, t.mergeLoop ops (t.startTokens text bos).length (t.startTokens text bos) =
        some ((if bos then [BOS] else []) ++ body) →
      t.encode ops text bos eos =
        some ((if bos then [BOS] else []) ++ body ++ if eos then [EOS] else []) := by
    intro body hmerged
    rw [Tokenizer.encode]
    simp only [hmerged, Option.bind_eq_bind, Option.bind_some, hend]
  by_cases hne : text.toList = []
  · -- no text: nothing between the markers
    have hutf8 : utf8 text = [] := by
      rw [utf8, hne]
      rfl
    have hstart : t.startTokens text bos = if bos then [BOS] else [] := by
      rw [Tokenizer.startTokens, hne]
      simp
    refine ⟨[], hbody [] ?_, by rw [hutf8]; rfl, by rw [hutf8]; rfl⟩
    rw [hstart, List.append_nil]
    cases bos <;> rfl
  · have hstart := Tokenizer.encodes_startTokens hvocab htext hne
    have hout : ∀ body, t.Encodes text (BOS :: body) →
        b.decodeFrom BOS (body.map (↑)) = some (utf8 text) ∧ t.decodeAll BOS body = utf8 text :=
      fun body hencodes => ⟨h.decodeFrom_encodes ht hb hencodes, hencodes.decodeAll hvocab htext⟩
    cases bos with
    | true =>
      obtain ⟨merged, hmerged, hencodes⟩ := Tokenizer.mergeLoop_induct (P := t.Encodes text) ops
        (fun tokens h => h.known hvocab) (fun pre a b post id h hmerges => h.merge hvocab hmerges)
        (t.startTokens text true).length hstart
      obtain ⟨first, -, rest, -, rfl, -⟩ := hencodes.eq_cons
      exact ⟨first :: rest, hbody _ hmerged, hout _ hencodes⟩
    | false =>
      have hstep : ∀ pre a b post id, t.Encodes text (BOS :: (pre ++ a :: b :: post)) →
          t.Merges a b id → t.Encodes text (BOS :: (pre ++ id :: post)) := by
        intro pre a b post id hencodes hmerges
        rw [← List.cons_append] at hencodes ⊢
        exact hencodes.merge hvocab hmerges
      obtain ⟨merged, hmerged, hencodes⟩ := Tokenizer.mergeLoop_induct
        (P := fun tokens => t.Encodes text (BOS :: tokens)) ops
        (fun tokens h x hx => h.known hvocab x (List.mem_cons_of_mem _ hx)) hstep
        (t.startTokens text false).length hstart
      exact ⟨merged, hbody _ hmerged, hout _ hencodes⟩

omit h in
/-- The markers around what is decoded. -/
theorem decodeFrom_marked {body : List ℕ} {text : String}
    (hbody : b.decodeFrom BOS (body.map (↑)) = some (utf8 text)) (bos eos : Bool) :
    b.decodeFrom BOS (((if bos then [BOS] else []) ++ body ++ if eos then [EOS] else []).map (↑)) =
      some (utf8 ((if bos then "<s>" else "") ++ text ++ if eos then "</s>" else "")) := by
  have hend : b.decodeFrom BOS ((body ++ if eos then [EOS] else []).map (↑)) =
      some (utf8 (text ++ if eos then "</s>" else "")) := by
    rw [utf8_append, List.map_append]
    cases eos with
    | false => exact (congrArg _ (List.append_nil _)).trans (hbody.trans (by simp [utf8]))
    | true => exact (decodeFrom_append_eos ht hb _ _).trans (by rw [hbody]; rfl)
  rw [String.append_assoc, utf8_append, List.append_assoc]
  cases bos with
  | false => exact hend
  | true => exact (decodeFrom_bos ht hb _).trans (congrArg (Option.map (bosPiece ++ ·)) hend)

/-- **Both encode a text alike, and both decode its tokens to it**; the training code spells
the markers out. -/
theorem Clear.roundtrip (hread : FloatBpe.ReadFrom b t) (text : String) (bos eos : Bool) :
    ∃ ids, b.encode text bos eos = some ids ∧
      t.encode FloatBpe.wordCompare text bos eos = some ids ∧
      b.decode (ids.map (↑)) =
        some ((if bos then "<s>" else "") ++ text ++ if eos then "</s>" else "") ∧
      t.decodeAll BOS ids = utf8 text := by
  have hdistinct : t.vocab.Nodup := hread.vocab ▸ hread.distinct
  obtain ⟨body, hbody, hfrom, hall⟩ :=
    h.exists_body ht hb hdistinct FloatBpe.wordCompare text bos eos
  refine ⟨_, hread.encode_eq text bos eos ▸ hbody, hbody, ?_, ?_⟩
  · rw [FloatBpe.decode, decodeFrom_marked ht hb hfrom, Option.map_some, fromUtf8Lossy_utf8]
  · have hstart : t.decodeAll BOS ((if bos then [BOS] else []) ++ body) = utf8 text := by
      cases bos with
      | false => exact hall
      | true => exact hall
    cases eos with
    | false => exact (congrArg _ (List.append_nil _)).trans hstart
    | true => exact (Tokenizer.decodeAll_append_eos _ _).trans hstart

end Clear

/-! ### What is trained on a corpus without `<` -/

/-- Text without an opening bracket has none among its bytes. -/
theorem open_notMem_bytes {p : List Char} (h : '<' ∉ p) : 0x3c ∉ Text.bytes p := by
  intro hmem
  obtain ⟨c, hc, hbyte⟩ := List.mem_flatMap.mp hmem
  exact h (utf8EncodeChar_eq_of_mem hbyte ▸ hc)

/-- **A vocabulary that is trained without `<`** is clear. -/
theorem Vocabulary.clear {texts forced : List String} {vocabSize : ℕ} {b : FloatBpe}
    {learned : List (List Char)} (h : Vocabulary texts vocabSize forced b learned)
    (hspace : ∃ t ∈ texts, ' ' ∈ t.toList) (hopen : ∀ t ∈ texts ++ forced, '<' ∉ t.toList) :
    Clear ((chars texts).map String.utf8EncodeChar ++ learned.map Text.bytes) where
  nonempty hmem := by
    rcases List.mem_append.mp hmem with hmem | hmem
    · obtain ⟨c, -, hc⟩ := List.mem_map.mp hmem
      exact String.utf8EncodeChar_ne_nil hc
    · obtain ⟨p, hp, hnil⟩ := List.mem_map.mp hmem
      obtain ⟨c, hc⟩ := List.exists_mem_of_ne_nil p (h.pieces p hp).1
      exact String.utf8EncodeChar_ne_nil (List.flatMap_eq_nil_iff.mp hnil c hc)
  noOpen q hq := by
    rcases List.mem_append.mp hq with hq | hq
    · obtain ⟨c, hc, rfl⟩ := List.mem_map.mp hq
      obtain ⟨t, ht, hct⟩ := mem_chars.mp hc
      intro hbyte
      exact hopen t (List.mem_append_left _ ht) (utf8EncodeChar_eq_of_mem hbyte ▸ hct)
    · obtain ⟨p, hp, rfl⟩ := List.mem_map.mp hq
      refine open_notMem_bytes fun hmem => ?_
      rcases (h.pieces p hp).2 with ⟨f, hf, rfl⟩ | ⟨-, t, ht, hpart⟩
      · exact hopen f (List.mem_append_right _ hf) hmem
      · exact hopen t (List.mem_append_left _ ht) (hpart.subset hmem)
  space := List.mem_append_left _ (List.mem_map.mpr ⟨' ', mem_chars.mpr hspace, rfl⟩)

/-- **A round trip through the tokens**: where the corpus has a space and neither it nor what
is forced has a `<`, the training code and the device give every text the same tokens, and both
decode these to the text. -/
theorem train_roundtrip (texts : List String) (vocabSize : ℕ) (forced : List String)
    (hspace : ∃ t ∈ texts, ' ' ∈ t.toList) (hopen : ∀ t ∈ texts ++ forced, '<' ∉ t.toList)
    (hsize : (train texts vocabSize forced).tokens.length ≤ 2 ^ 24) (M : Machine) (buf : Buffer M)
    (hfile : (Bpe.mk (train texts vocabSize forced).tokens
      (words texts (train texts vocabSize forced))).writeTokenizerBin = some buf.1)
    (hroom : Tokenizer.HasRoom M (train texts vocabSize forced).tokens.length) :
    ∃ t, Tokenizer.fromBytes M.strict FloatBpe.wordCompare buf.1
        (train texts vocabSize forced).tokens.length = .ok t ∧
      ∀ text bos eos, ∃ ids, (train texts vocabSize forced).encode text bos eos = some ids ∧
        t.encode FloatBpe.wordCompare text bos eos = some ids ∧
        (train texts vocabSize forced).decode (ids.map (↑)) =
          some ((if bos then "<s>" else "") ++ text ++ if eos then "</s>" else "") ∧
        t.decodeAll BOS ids = utf8 text := by
  obtain ⟨learned, h⟩ := train_vocabulary texts vocabSize forced
  obtain ⟨t, ht, hread⟩ := h.exists_readFrom hsize hfile hroom
  exact ⟨t, ht,
    (h.clear hspace hopen).roundtrip (hread.vocab.trans h.tokens) hread.vocab.symm hread⟩

/-- A text that the corpus does not have. -/
theorem train_roundtrip_small :
    ∃ ids, (train ["ab ab"] 263 []).encode "abc é" false true = some ids ∧
      (train ["ab ab"] 263 []).decode (ids.map (↑)) = some "abc é</s>" := by
  obtain ⟨t, -, hall⟩ := train_roundtrip ["ab ab"] 263 [] (by decide) (by decide)
    (by decide +kernel) usize32 smallFile (by decide +kernel) hasRoom_small
  obtain ⟨ids, hids, -, hdecode, -⟩ := hall "abc é" false true
  exact ⟨ids, hids, hdecode.trans (by decide)⟩

end BpeTrain

end TinyLlm
