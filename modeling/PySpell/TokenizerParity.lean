/-
# The tokenizer of the training code

`BPE` of `train/bpe.py` beside the tokenizer of the device.  Both start from the same
tokens and merge the best pair again and again, but a token is found in a dictionary there
and by a scan of the vocabulary here, a score is a double there and a word of the file here,
and the search starts from `-1e30` there and from minus infinity here.

For a vocabulary of distinct tokens, with scores above `-1e30` that the words of the file
stand for, they give the same tokens for every text (`encode_parity`).
-/
import PySpell.Lib.Binary32
import PySpell.TokenizerFile

open Checked

namespace TinyLlm

/-- `BPE`, with the scores that it computes with; `Bpe` has the words of the file. -/
structure FloatBpe where
  tokens : List (List UInt8)
  scores : List Binary64

namespace FloatBpe

/-- `index`, from the `i`-th token on: a later token replaces an earlier one. -/
def indexGet (s : List UInt8) : ℕ → List (List UInt8) → Option ℕ
  | _, [] => none
  | i, t :: tokens => (indexGet s (i + 1) tokens).or (if t = s then some i else none)

variable (b : FloatBpe)

/-- `_find`. -/
def find (s : List UInt8) : Option ℕ := indexGet s 0 b.tokens

/-- The token of a byte of a character that is not found. -/
def byteToken (byte : UInt8) : ℕ := if byte.toNat + 3 < b.tokens.length then byte.toNat + 3 else 0

/-- The tokens of a character. -/
def charTokens (ch : Char) : List ℕ :=
  match b.find (String.utf8EncodeChar ch) with
  | some cid => [cid]
  | none => (String.utf8EncodeChar ch).map b.byteToken

/-- The tokens before merges. -/
def startTokens (text : String) (bos : Bool) : List ℕ :=
  (if bos then [BOS] else []) ++
    (if text.toList ≠ [] then (b.find [0x20]).toList else []) ++ text.toList.flatMap b.charTokens

/-- A round of the search; an index that is out of range raises an error. -/
def tryPair (toks : List ℕ) (i : ℕ) (best : Binary64 × Option (ℕ × ℕ)) :
    Option (Binary64 × Option (ℕ × ℕ)) := do
  let x ← b.tokens[← toks[i]?]?
  let y ← b.tokens[← toks[i + 1]?]?
  match b.find (x ++ y) with
  | none => some best
  | some cid => do
    let score ← b.scores[cid]?
    some (if Binary64.lt best.1 score then (score, some (cid, i)) else best)

/-- `-1e30`. -/
def lowest : Binary64 := ⟨0xc6293e5939a08cea⟩

example : Binary64.parse "-1e30" = some lowest := by decide +kernel

/-- The best pair: the token that it makes, and where it is. -/
def bestPair (toks : List ℕ) : Option (Option (ℕ × ℕ)) := do
  let best ← upTo (b.tryPair toks) (toks.length - 1) (lowest, none)
  some best.2

/-- The greedy merges, with a bound on their number: each takes a token away. -/
def mergeLoop : ℕ → List ℕ → Option (List ℕ)
  | 0, toks => some toks
  | fuel + 1, toks => do
    match ← b.bestPair toks with
    | none => some toks
    | some (id, i) => mergeLoop fuel ((toks.set i id).eraseIdx (i + 1))

/-- `encode`. -/
def encode (text : String) (bos eos : Bool) : Option (List ℕ) := do
  let start := b.startTokens text bos
  let toks ← b.mergeLoop start.length start
  some (if eos then toks ++ [EOS] else toks)

/-! ## The dictionary -/

theorem indexGet_eq_none {s : List UInt8} {tokens : List (List UInt8)} (h : s ∉ tokens) (i : ℕ) :
    indexGet s i tokens = none := by
  induction tokens generalizing i with
  | nil => rfl
  | cons t tokens ih =>
    rw [List.mem_cons, not_or] at h
    rw [indexGet, ih h.2, if_neg fun heq => h.1 heq.symm]
    rfl

/-- **A dictionary of distinct tokens** finds what a scan finds. -/
theorem indexGet_eq_findIdx {tokens : List (List UInt8)} (hdistinct : tokens.Nodup)
    (s : List UInt8) (i : ℕ) :
    indexGet s i tokens = (tokens.findIdx? (· == s)).map (· + i) := by
  induction tokens generalizing i with
  | nil => rfl
  | cons t tokens ih =>
    obtain ⟨hnot, hdistinct⟩ := List.nodup_cons.mp hdistinct
    rw [indexGet, List.findIdx?_cons]
    by_cases heq : t = s
    · subst heq
      rw [indexGet_eq_none hnot, if_pos rfl, beq_self_eq_true, if_pos rfl, Option.map_some,
        Nat.zero_add]
      rfl
    · rw [ih hdistinct, if_neg heq, beq_false_of_ne heq, if_neg Bool.false_ne_true, Option.or_none,
        Option.map_map]
      congr 1
      funext k
      simp only [Function.comp_apply]
      omega

/-! ## Side by side -/

/-- The tokenizer of the device, whose scores are words of the file. -/
def wordCompare : FloatOps UInt32 :=
  { zeroOps with lt := fun x y => Binary32.lt ⟨x⟩ ⟨y⟩, ofBits := id, toBits := id }

/-- A score that is above `-1e30`, and a word that stands for it. -/
def Scored (word : UInt32) (score : Binary64) : Prop :=
  Binary32.Widens ⟨word⟩ score ∧ Binary64.lt lowest score = true

/-- A tokenizer that was read from the file of `b`. -/
structure ReadFrom (b : FloatBpe) (t : Tokenizer UInt32) : Prop where
  vocab : t.vocab = b.tokens
  distinct : b.tokens.Nodup
  scores : List.Forall₂ Scored t.scores b.scores

variable {b} {t : Tokenizer UInt32}

theorem ReadFrom.find_eq (h : ReadFrom b t) (s : List UInt8) : t.find s = b.find s := by
  rw [find, indexGet_eq_findIdx h.distinct, Tokenizer.find, h.vocab]
  simp

theorem ReadFrom.startTokens_eq (h : ReadFrom b t) (text : String) (bos : Bool) :
    t.startTokens text bos = b.startTokens text bos := by
  have hbyte : t.byteFallback = b.byteToken := by
    funext byte
    rw [Tokenizer.byteFallback, byteToken, h.vocab]
  have hchar : t.charTokens = b.charTokens := by
    funext ch
    rw [Tokenizer.charTokens, h.find_eq, hbyte]
    rfl
  rw [Tokenizer.startTokens, startTokens, h.find_eq, hchar]

/-! ### The best pair -/

/-- The best pairs of both so far: none yet, or the same one with the same score. -/
def SameBest (best : UInt32 × Option (ℕ × ℕ)) (best' : Binary64 × Option (ℕ × ℕ)) : Prop :=
  best.2 = best'.2 ∧ (best.1 = 0xff800000 ∧ best'.1 = lowest ∨ Binary32.Widens ⟨best.1⟩ best'.1)

theorem lowest_scaled : -2 ^ 1174 ≤ lowest.scaled := by decide +kernel

/-- What both searches start from is below every score. -/
theorem Scored.negInf_lt {word : UInt32} {score : Binary64} (h : Scored word score) :
    Binary32.lt ⟨0xff800000⟩ ⟨word⟩ = true := by
  refine Binary32.negInf_lt h.1.left ?_
  have hlt : lowest.scaled < score.scaled := by
    have := h.2
    rw [Binary64.lt, Bool.and_eq_true, decide_eq_true_eq] at this
    exact this.2
  have hscaled := h.1.scaled
  have hlow := lowest_scaled
  by_contra hle
  have hunit : (0 : ℤ) ≤ 2 ^ 925 := pow_nonneg zero_le_two 925
  have hmul := mul_le_mul_of_nonneg_right (not_lt.mp hle) hunit
  rw [← hscaled] at hmul
  have hpow : (-2 ^ 1173 : ℤ) * 2 ^ 925 ≤ -2 ^ 1174 := by decide +kernel
  omega

/-- A word and a score of the same token. -/
theorem ReadFrom.scored (h : ReadFrom b t) (cid : ℕ) :
    Option.Rel Scored t.scores[cid]? b.scores[cid]? := by
  by_cases hcid : cid < t.scores.length
  · have hcid' : cid < b.scores.length := h.scores.length_eq ▸ hcid
    rw [List.getElem?_eq_getElem hcid, List.getElem?_eq_getElem hcid']
    exact .some (h.scores.get hcid hcid')
  · have hcid' : ¬ cid < b.scores.length := h.scores.length_eq ▸ hcid
    rw [List.getElem?_eq_none (not_lt.mp hcid), List.getElem?_eq_none (not_lt.mp hcid')]
    exact .none

/-- Both find a pair better than the best so far, or neither does. -/
theorem ReadFrom.better_rel (h : ReadFrom b t) (cid i : ℕ) {best : UInt32 × Option (ℕ × ℕ)}
    {best' : Binary64 × Option (ℕ × ℕ)} (hbest : SameBest best best') :
    Option.Rel SameBest
      (t.scores[cid]?.bind fun score =>
        some (if wordCompare.lt best.1 score then (score, some (cid, i)) else best))
      (b.scores[cid]?.bind fun score =>
        some (if Binary64.lt best'.1 score then (score, some (cid, i)) else best')) := by
  have hrel := h.scored cid
  generalize t.scores[cid]? = word at hrel ⊢
  generalize b.scores[cid]? = score at hrel ⊢
  cases hrel with
  | none => exact .none
  | @some word score hscored =>
    rw [Option.bind_some, Option.bind_some]
    have hlt : wordCompare.lt best.1 word = Binary64.lt best'.1 score := by
      rcases hbest.2 with ⟨hfirst, hfirst'⟩ | hwidens
      · rw [hfirst, hfirst', hscored.2]
        exact hscored.negInf_lt
      · exact Binary32.lt_of_widens hwidens hscored.1
    rw [hlt]
    split_ifs
    · exact .some ⟨rfl, Or.inr hscored.1⟩
    · exact .some hbest

/-- **A round of both searches.** -/
theorem ReadFrom.tryPair_rel (h : ReadFrom b t) (toks : List ℕ) (i : ℕ)
    {best : UInt32 × Option (ℕ × ℕ)} {best' : Binary64 × Option (ℕ × ℕ)}
    (hbest : SameBest best best') :
    Option.Rel SameBest (t.tryPair wordCompare toks i best) (b.tryPair toks i best') := by
  rw [Tokenizer.tryPair, tryPair, h.vocab]
  simp only [Option.bind_eq_bind, h.find_eq]
  cases toks[i]? with
  | none => exact .none
  | some x =>
    simp only [Option.bind_some]
    cases b.tokens[x]? with
    | none => exact .none
    | some p =>
      simp only [Option.bind_some]
      cases toks[i + 1]? with
      | none => exact .none
      | some y =>
        simp only [Option.bind_some]
        cases b.tokens[y]? with
        | none => exact .none
        | some q =>
          simp only [Option.bind_some]
          cases b.find (p ++ q) with
          | none => exact .some hbest
          | some cid => exact h.better_rel cid i hbest

theorem ReadFrom.bestPair_eq (h : ReadFrom b t) (toks : List ℕ) :
    t.bestPair wordCompare toks = b.bestPair toks := by
  have hrel : Option.Rel SameBest
      (upTo (t.tryPair wordCompare toks) (toks.length - 1)
        (Tokenizer.negInfinity wordCompare, none))
      (upTo (b.tryPair toks) (toks.length - 1) (lowest, none)) :=
    rel_upTo (fun i _ _ _ hbest => h.tryPair_rel toks i hbest) ⟨rfl, Or.inl ⟨rfl, rfl⟩⟩
  rw [Tokenizer.bestPair, bestPair]
  generalize upTo (t.tryPair wordCompare toks) (toks.length - 1) _ = x at hrel ⊢
  generalize upTo (b.tryPair toks) (toks.length - 1) _ = y at hrel ⊢
  cases hrel with
  | some hbest => exact congrArg some hbest.1
  | none => rfl

theorem ReadFrom.mergeLoop_eq (h : ReadFrom b t) (fuel : ℕ) (toks : List ℕ) :
    t.mergeLoop wordCompare fuel toks = b.mergeLoop fuel toks := by
  induction fuel generalizing toks with
  | zero => rfl
  | succ fuel ih =>
    rw [Tokenizer.mergeLoop, mergeLoop, h.bestPair_eq]
    cases b.bestPair toks with
    | none => rfl
    | some found =>
      cases found with
      | none => rfl
      | some pair => exact ih _

/-- **Both encode alike.** -/
theorem ReadFrom.encode_eq (h : ReadFrom b t) (text : String) (bos eos : Bool) :
    t.encode wordCompare text bos eos = b.encode text bos eos := by
  rw [Tokenizer.encode, encode, h.startTokens_eq, h.mergeLoop_eq]

/-- **Tokenizer parity**: the file of a vocabulary of distinct tokens, with a word for each
score, is read back as a tokenizer that gives the same tokens for every text. -/
theorem encode_parity (M : Machine) (b : FloatBpe) (words : List UInt32) (buf : Buffer M)
    (t : Tokenizer UInt32) (hdistinct : b.tokens.Nodup)
    (hlength : b.scores.length = b.tokens.length) (hscores : List.Forall₂ Scored words b.scores)
    (hfile : (Bpe.mk b.tokens words).writeTokenizerBin = some buf.1)
    (hread : Tokenizer.fromBytes M.strict wordCompare buf.1 b.tokens.length = .ok t)
    (text : String) (bos eos : Bool) :
    t.encode wordCompare text bos eos = b.encode text bos eos := by
  have hwords : b.tokens.length = words.length := by
    rw [← hlength, hscores.length_eq]
  have hrecords : (Bpe.mk b.tokens words).records.length = b.tokens.length := by
    rw [Bpe.records, List.length_zip, hwords, Nat.min_self]
  have hreturns : (Tokenizer.fromBytes M.strict wordCompare buf.1 b.tokens.length).Returns := by
    rw [hread]
    trivial
  obtain ⟨head, hhead, -, hbuf⟩ := Bpe.writeTokenizerBin_eq hfile
  have hlen : 4 ≤ buf.1.length := by
    rw [hbuf, List.length_append, hhead]
    omega
  obtain ⟨hroom, -⟩ := (Tokenizer.fromBytes_returns_iff wordCompare buf _).mp hreturns hlen
  obtain ⟨t', hread', hvocab, hscores'⟩ := fromBytes_writeTokenizerBin
    wordCompare hfile (hrecords ▸ hroom)
  rw [hrecords, hread] at hread'
  obtain rfl := Outcome.ok.inj hread'
  have hid : ∀ l : List (List UInt8 × UInt32),
      (l.map fun p => wordCompare.ofBits p.2) = l.map Prod.snd := fun l => rfl
  refine ReadFrom.encode_eq ⟨?_, hdistinct, ?_⟩ text bos eos
  · rw [hvocab, Bpe.records, List.map_fst_zip hwords.le]
  · rw [hscores', hid, Bpe.records, List.map_snd_zip hwords.ge]
    exact hscores

/-! ### A small vocabulary -/

/-- A vocabulary with the pieces `a`, `b` and `ab`, of which the last has the score `-1`. -/
def abBpe : FloatBpe :=
  ⟨[[0x3c], [0x3c, 0x73, 0x3e], [0x3c, 0x2f, 0x73, 0x3e], [0x61], [0x62], [0x61, 0x62]],
    [⟨0⟩, ⟨0⟩, ⟨0⟩, ⟨0⟩, ⟨0⟩, ⟨0xbff0000000000000⟩]⟩

def abWords : List UInt32 := [0, 0, 0, 0, 0, 0xbf800000]

def abFile : List UInt8 := ((Bpe.mk abBpe.tokens abWords).writeTokenizerBin).getD []

theorem abWords_scored : List.Forall₂ Scored abWords abBpe.scores := by
  have hzero : Scored 0 ⟨0⟩ := ⟨⟨by decide, by decide, by decide +kernel⟩, by decide +kernel⟩
  have hminus : Scored 0xbf800000 ⟨0xbff0000000000000⟩ :=
    ⟨⟨by decide, by decide, by decide +kernel⟩, by decide +kernel⟩
  exact .cons hzero (.cons hzero (.cons hzero (.cons hzero (.cons hzero (.cons hminus .nil)))))

/-- The text `ab`. -/
theorem encode_parity_ab :
    Tokenizer.encode (F := UInt32) ⟨abBpe.tokens, abWords, rfl⟩ wordCompare "ab" true true =
      abBpe.encode "ab" true true :=
  encode_parity usize32 abBpe abWords ⟨abFile, by decide⟩ _ (by decide) rfl abWords_scored rfl rfl
    "ab" true true

example : abBpe.encode "ab" true true = some [BOS, 5, EOS] := by decide +kernel

end FloatBpe

end TinyLlm
