/-
# Two engines for one delexicalization

The training runs `delex_en` and `relex` in Python, the web page and the device run the same
patterns in JavaScript.  The engines take the patterns apart alike but for three classes of
characters: a `.` stops at more line ends in JavaScript, a `\d` takes the digits of every
script in Python, and a `\s` takes a few characters in one of them only.

So they agree as long as none of these characters is where a pattern gets to it.  And they
agree only then: what an engine takes for a part of a literal or of a gap it takes out of the
text, and the other one leaves it there, which a count shows (`countP_replaceAll_le`).
-/
import PySpell.DelexStream

open Substitute

namespace Delex

variable {F G : Flavor}

/-! ## Quoted texts -/

/-- Nothing between the quotes ends a line. -/
theorem lineEnd_of_untilQuote {q : Char} {s : List Char} {k : ℕ} (h : untilQuote F q s = some k) :
    ∀ c ∈ s.take k, F.lineEnd c = false := by
  induction s generalizing k with
  | nil => cases h
  | cons c s ih =>
    rw [untilQuote] at h
    split_ifs at h with hc hend
    · obtain rfl := Option.some_inj.mp h
      exact fun c hc => by cases hc
    · obtain ⟨j, hj, rfl⟩ := Option.map_eq_some_iff.mp h
      rw [List.take_succ_cons, List.forall_mem_cons]
      exact ⟨Bool.eq_false_iff.mpr hend, ih hj⟩

/-- Another engine reads as far, if nothing on the way ends a line for it. -/
theorem untilQuote_of_clear {q : Char} {s : List Char} {k : ℕ} (h : untilQuote F q s = some k)
    (hclear : ∀ c ∈ s.take k, G.lineEnd c = false) : untilQuote G q s = some k := by
  induction s generalizing k with
  | nil => cases h
  | cons c s ih =>
    rw [untilQuote] at h ⊢
    split_ifs at h with hc hend
    · rw [if_pos hc, h]
    · obtain ⟨j, hj, rfl⟩ := Option.map_eq_some_iff.mp h
      rw [List.take_succ_cons, List.forall_mem_cons] at hclear
      rw [if_neg hc, if_neg (Bool.eq_false_iff.mp hclear.1), ih hj hclear.2]
      rfl

/-- What is between the quotes of a match. -/
theorem content_quoted {s : List Char} {n : ℕ} (h : (quoted F).length? s = some n) :
    ∃ q t k, s = q :: t ∧ isQuote q = true ∧ untilQuote F q t = some k ∧ n = k + 2 ∧
      content (s.take n) = t.take k := by
  cases s with
  | nil => cases h
  | cons q t =>
    change (if isQuote q then (untilQuote F q t).map (· + 2) else none) = some n at h
    split_ifs at h with hq
    obtain ⟨k, hk, rfl⟩ := Option.map_eq_some_iff.mp h
    have hlt := untilQuote_lt hk
    refine ⟨q, t, k, rfl, hq, hk, rfl, ?_⟩
    rw [content, List.take_succ_cons, List.drop_succ_cons, List.drop_zero,
      List.take_succ_eq_append_getElem hlt, List.dropLast_concat]

theorem quoted_of_clear {s : List Char} {n : ℕ} (h : (quoted F).length? s = some n)
    (hclear : ∀ c ∈ content (s.take n), G.lineEnd c = false) :
    (quoted G).length? s = some n := by
  obtain ⟨q, t, k, rfl, hq, hk, rfl, hcontent⟩ := content_quoted h
  rw [hcontent] at hclear
  change (if isQuote q then (untilQuote G q t).map (· + 2) else none) = some (k + 2)
  rw [if_pos hq, untilQuote_of_clear hk hclear]
  rfl

theorem lineEnd_of_quoted {s : List Char} {n : ℕ} (h : (quoted F).length? s = some n) :
    ∀ c ∈ content (s.take n), F.lineEnd c = false := by
  obtain ⟨q, t, k, rfl, -, hk, rfl, hcontent⟩ := content_quoted h
  rw [hcontent]
  exact lineEnd_of_untilQuote hk

/-- What ends a line in Python ends one in JavaScript. -/
theorem lineEnd_python {c : Char} (h : javascript.lineEnd c = false) : python.lineEnd c = false := by
  rw [Bool.eq_false_iff] at h ⊢
  intro hpython
  obtain rfl : c = '\n' := of_decide_eq_true hpython
  exact h rfl

/-- A match of a lead in a text. -/
theorem length?_of_mem {l : Lead Char} {s : List Char} {m : Match Char}
    (h : m ∈ matches? l.pattern s) : l.length? (m.text ++ m.after) = some m.text.length :=
  (of_mem_matches? h).2

/-- **The quoted texts are the same** if no line end of JavaScript is in one of them. -/
theorem pieces_quoted_eq {en : List Char} (h : ∀ m ∈ matches? (quoted python).pattern en,
    ∀ c ∈ content m.text, javascript.lineEnd c = false) :
    pieces (quoted javascript).pattern en = pieces (quoted python).pattern en := by
  apply pieces_eq_of_matches
  · intro m hm
    have hlen := length?_of_mem hm
    refine ⟨_, quoted_of_clear hlen fun c hc => ?_, le_rfl⟩
    exact lineEnd_python (lineEnd_of_quoted hlen c hc)
  · intro m hm
    refine ⟨_, quoted_of_clear (length?_of_mem hm) ?_, le_rfl⟩
    rw [List.take_left]
    exact h m hm

/-! ## Numbers -/

theorem digits_congr {s : List Char} (h : ∀ c ∈ s, F.digit c = G.digit c) :
    digits F s = digits G s := by
  induction s with
  | nil => rfl
  | cons c s ih =>
    rw [List.forall_mem_cons] at h
    unfold digits at ih ⊢
    rw [List.takeWhile_cons, List.takeWhile_cons, h.1]
    split_ifs
    · rw [List.length_cons, List.length_cons, ih h.2]
    · rfl

theorem numberLength_congr {s : List Char} (h : ∀ c ∈ s, F.digit c = G.digit c) :
    numberLength F s = numberLength G s := by
  have hdrop : ∀ n, digits F (s.drop n) = digits G (s.drop n) := fun n =>
    digits_congr fun c hc => h c (List.mem_of_mem_drop hc)
  have hwhole : wholeLength F s = wholeLength G s := by
    rw [wholeLength, wholeLength, hdrop]
  rw [numberLength, numberLength, hwhole, fraction, fraction, List.drop_drop, hdrop, hdrop]

/-- **The numbers are the same** if the digits are. -/
theorem pieces_number_eq {s : List Char} (h : ∀ c ∈ s, F.digit c = G.digit c) :
    pieces (number F).pattern s = pieces (number G).pattern s := by
  have hsame : ∀ m : Match Char, m.whole = s →
      numberLength F (m.text ++ m.after) = numberLength G (m.text ++ m.after) := by
    rintro m rfl
    exact numberLength_congr fun c hc => h c (List.mem_append_right _ hc)
  apply pieces_eq_of_matches
  · intro m hm
    exact ⟨_, (hsame m (of_mem_matches? hm).1).symm.trans (length?_of_mem hm), le_rfl⟩
  · intro m hm
    exact ⟨_, (hsame m (of_mem_matches? hm).1).trans (length?_of_mem hm), le_rfl⟩

/-! ## Requests that are read alike -/

/-- A request with the slots of its texts in it: what the numbers are looked for in. -/
def withoutTexts (F : Flavor) (en : List Char) : List Char :=
  (replaceFold (quoted F).pattern strSub [] en).1

/-- Between quotes no line ends for JavaScript, and elsewhere every digit is one of ASCII. -/
structure ReadAlike (en : List Char) : Prop where
  texts : ∀ m ∈ matches? (quoted python).pattern en, ∀ c ∈ content m.text,
    javascript.lineEnd c = false
  numbers : ∀ c ∈ withoutTexts python en, python.digit c = javascript.digit c

/-- **A request that is read alike is delexicalized alike.** -/
theorem delexEn_eq_of_readAlike {en : List Char} (h : ReadAlike en) :
    delexEn javascript en = delexEn python en := by
  have htexts : replaceFold (quoted javascript).pattern strSub [] en =
      replaceFold (quoted python).pattern strSub [] en := by
    rw [replaceFold, pieces_quoted_eq h.texts, replaceFold]
  have hnumbers : replaceFold (number javascript).pattern numSub [] (withoutTexts python en) =
      replaceFold (number python).pattern numSub [] (withoutTexts python en) := by
    rw [replaceFold, pieces_number_eq fun c hc => (h.numbers c hc).symm, replaceFold]
  unfold withoutTexts at hnumbers
  unfold delexEn
  rw [htexts]
  dsimp only
  rw [hnumbers]

/-! ## What a count shows -/

/-- **As long as a slot is left, every literal gets one.** -/
theorem mem_slots_of_lt {cap : ℕ} {key : List Char → List Char}
    {mark : List Char → ℕ → List Char} {l : List (Piece Char)} : ∀ {slots : List (List Char)},
    (foldPieces (slotSub cap key mark) slots l).2.length < cap →
      ∀ m, .found m ∈ l → key m.text ∈ (foldPieces (slotSub cap key mark) slots l).2 := by
  induction l with
  | nil => exact fun _ m hm => absurd hm List.not_mem_nil
  | cons piece l ih =>
    intro slots hlt m hm
    cases piece with
    | kept a =>
      rcases List.mem_cons.mp hm with hm | hm
      · cases hm
      · exact ih hlt m hm
    | found m' =>
      change (foldPieces _ (slotSub cap key mark slots m').2 l).2.length < cap at hlt
      change key m.text ∈ (foldPieces _ (slotSub cap key mark slots m').2 l).2
      rcases List.mem_cons.mp hm with hm | hm
      swap
      · exact ih hlt m hm
      obtain rfl := Piece.found.inj hm
      obtain ⟨hpre, hfull, -⟩ := foldPieces_slotSub cap key mark l (slotSub cap key mark slots m).2
      apply hpre.subset
      unfold slotSub at hfull hlt ⊢
      by_cases hold : key m.text ∈ slots
      · rw [if_pos hold]
        exact hold
      rw [if_neg hold] at hfull hlt ⊢
      by_cases hfree : cap ≤ slots.length
      · -- without a free slot there are `cap` of them in the end
        rw [if_pos hfree] at hfull hlt
        rw [hfull hfree] at hlt
        exact absurd hlt (Nat.not_lt.mpr hfree)
      · rw [if_neg hfree]
        exact List.mem_append_right slots List.mem_cons_self

/-! ### Line ends -/

/-- A line end of JavaScript is in no marker and in no number. -/
theorem lineEnd_numChar {c : Char} (h : isNumChar F c = true) (hF : F.digit c = true →
    javascript.lineEnd c = false) : javascript.lineEnd c = false := by
  rw [isNumChar, Bool.or_eq_true, Bool.or_eq_true, decide_eq_true_eq, decide_eq_true_eq] at h
  rcases h with (hdigit | rfl) | rfl
  · exact hF hdigit
  · rfl
  · rfl

theorem lineEnd_digit_javascript {c : Char} (h : javascript.digit c = true) :
    javascript.lineEnd c = false := by
  have hle : 48 ≤ c.toNat ∧ c.toNat ≤ 57 := by
    have hdigit : (decide (48 ≤ c.toNat) && decide (c.toNat ≤ 57)) = true := h
    rwa [Bool.and_eq_true, decide_eq_true_eq, decide_eq_true_eq] at hdigit
  apply decide_eq_false
  simp only [List.mem_cons, List.not_mem_nil, or_false]
  omega

theorem lineEnd_digit_python {c : Char} (h : python.digit c = true) :
    javascript.lineEnd c = false := by
  have hcases : (c.isDigit || zeros.any fun z => z ≤ c.toNat && c.toNat ≤ z + 9) = true := h
  rcases Bool.or_eq_true_iff.mp hcases with hascii | hbeyond
  · exact lineEnd_digit_javascript hascii
  · obtain ⟨z, hz, hle⟩ := List.any_eq_true.mp hbeyond
    rw [Bool.and_eq_true, decide_eq_true_eq, decide_eq_true_eq] at hle
    apply decide_eq_false
    simp only [List.mem_cons, List.not_mem_nil, or_false]
    have hnone : ∀ z ∈ zeros, (¬ (z ≤ 10 ∧ 10 ≤ z + 9)) ∧ (¬ (z ≤ 13 ∧ 13 ≤ z + 9)) ∧
        (¬ (z ≤ 0x2028 ∧ 0x2028 ≤ z + 9)) ∧ ¬ (z ≤ 0x2029 ∧ 0x2029 ≤ z + 9) := by decide
    obtain ⟨h10, h13, h2028, h2029⟩ := hnone z hz
    rintro (hc | hc | hc | hc) <;> rw [hc] at hle
    · exact h10 hle
    · exact h13 hle
    · exact h2028 hle
    · exact h2029 hle

/-- The passes of `delex_en`, with the slots of their ends. -/
theorem withoutTexts_eq (F : Flavor) (en : List Char) :
    withoutTexts F en = (quoted F).replace (strSubPy (delexEn F en).strs) en :=
  (foldPieces_slotSub strSlots content quote (pieces (quoted F).pattern en) []).2.2.2.2

theorem prompt_eq (F : Flavor) (en : List Char) : (delexEn F en).prompt =
    (number F).replace (numSubPy (delexEn F en).nums) (withoutTexts F en) :=
  (foldPieces_slotSub numSlots id (fun _ => numPh) (pieces (number F).pattern _) []).2.2.2.2

/-! ### What the passes keep of a count -/

/-- Nothing of a marker is counted. -/
theorem countP_numPh {e : Char → Bool} (he : ∀ c, isNumChar F c = true → e c = false)
    (hhash : e '#' = false) {i : ℕ} (hi : i < numSlots) : (numPh i).countP e = 0 := by
  have hdigit : F.digit (Char.ofNat (48 + i)) = true := digit_of_isNumSlot (isNumSlot_ofNat hi).1
  have hslot : e (Char.ofNat (48 + i)) = false := by
    apply he
    rw [isNumChar, hdigit]
    rfl
  rw [numPh, List.countP_cons_of_neg (Bool.eq_false_iff.mp hhash),
    List.countP_cons_of_neg (Bool.eq_false_iff.mp hslot), List.countP_nil]

/-- **The pass over the numbers leaves what is no part of a number.** -/
theorem countP_numberPass {e : Char → Bool} (he : ∀ c, isNumChar F c = true → e c = false)
    (hhash : e '#' = false) {nums : List (List Char)} (hnums : nums.length ≤ numSlots)
    (s : List Char) : ((number F).replace (numSubPy nums) s).countP e = s.countP e := by
  apply countP_replaceAll_eq_self
  intro m hm
  have hall := all_take_number (length?_of_mem hm)
  rw [List.take_left, List.all_eq_true] at hall
  have hzero : m.text.countP e = 0 :=
    List.countP_eq_zero.mpr fun c hc => Bool.eq_false_iff.mp (he c (hall c hc))
  unfold numSubPy markSub
  split_ifs with hmem
  · rw [hzero]
    exact countP_numPh he hhash ((List.idxOf_lt_length_of_mem hmem).trans_le hnums)
  · rfl

/-- A quoted text has its line ends between the quotes, and its marker has none. -/
theorem lineEnds_quoted {s : List Char} {n : ℕ} (h : (quoted F).length? s = some n)
    {i : ℕ} (hi : i < strSlots) :
    (s.take n).countP javascript.lineEnd = (content (s.take n)).countP javascript.lineEnd ∧
      (quote (s.take n) i).countP javascript.lineEnd = 0 := by
  obtain ⟨q, body, rest, -, hq, htake, -, hcontent⟩ := quoted_spec h
  have hquote : ¬ javascript.lineEnd q = true := by
    rw [isQuote, Bool.or_eq_true, decide_eq_true_eq, decide_eq_true_eq] at hq
    rcases hq with rfl | rfl
    · decide
    · decide
  have hletter : ¬ javascript.lineEnd (Char.ofNat (97 + i)) = true := by
    revert i
    decide
  rw [hcontent, htake]
  constructor
  · rw [List.countP_cons_of_neg hquote, List.countP_append, List.countP_cons_of_neg hquote,
      List.countP_nil, Nat.add_zero]
  · change ([q] ++ strPh i ++ [q]).countP javascript.lineEnd = 0
    rw [List.countP_append, List.countP_append, List.countP_cons_of_neg hquote, List.countP_nil,
      strPh, List.countP_cons_of_neg (by decide), List.countP_cons_of_neg hletter, List.countP_nil]

/-- The pass over the texts of JavaScript leaves every line end, that of Python only those
outside of the texts with a slot. -/
theorem countP_withoutTexts (F : Flavor) (en : List Char) :
    (withoutTexts F en).countP javascript.lineEnd ≤ en.countP javascript.lineEnd ∧
      ((withoutTexts F en).countP javascript.lineEnd = en.countP javascript.lineEnd ↔
        ∀ m ∈ matches? (quoted F).pattern en, content m.text ∈ (delexEn F en).strs →
          ∀ c ∈ content m.text, javascript.lineEnd c = false) := by
  have hslots := (delexEn_slots F en).2.2
  -- a text has the line ends of its content, and its mark has none
  have hcount : ∀ m ∈ matches? (quoted F).pattern en,
      m.text.countP javascript.lineEnd = (content m.text).countP javascript.lineEnd ∧
        (content m.text ∈ (delexEn F en).strs →
          (strSubPy (delexEn F en).strs m.text).countP javascript.lineEnd = 0) ∧
        (content m.text ∉ (delexEn F en).strs → strSubPy (delexEn F en).strs m.text = m.text) := by
    intro m hm
    have hlen := length?_of_mem hm
    have hcontent := fun i hi => lineEnds_quoted hlen (i := i) hi
    rw [List.take_left] at hcontent
    refine ⟨(hcontent 0 (by decide)).1, fun hmem => ?_, fun hmem => if_neg hmem⟩
    rw [strSubPy, markSub, if_pos hmem]
    exact (hcontent _ ((List.idxOf_lt_length_of_mem hmem).trans_le hslots)).2
  have hle : ∀ m ∈ matches? (quoted F).pattern en,
      (strSubPy (delexEn F en).strs m.text).countP javascript.lineEnd ≤
        m.text.countP javascript.lineEnd := by
    intro m hm
    obtain ⟨-, hmarked, hleft⟩ := hcount m hm
    by_cases hmem : content m.text ∈ (delexEn F en).strs
    · rw [hmarked hmem]
      exact Nat.zero_le _
    · rw [hleft hmem]
  have hwhole : en = replaceAll (quoted F).pattern Match.text en := (flatMap_text_pieces _ en).symm
  obtain ⟨htotal, heq⟩ := countP_replaceAll_le (f := Match.text) javascript.lineEnd hle
  rw [← hwhole] at htotal heq
  rw [withoutTexts_eq]
  refine ⟨htotal, fun h m hm hmem => ?_, fun h => ?_⟩
  · obtain ⟨hcontent, hmarked, -⟩ := hcount m hm
    have hzero := heq h.symm m hm
    rw [hmarked hmem, hcontent] at hzero
    exact fun c hc => Bool.eq_false_iff.mpr (List.countP_eq_zero.mp hzero.symm c hc)
  · apply countP_replaceAll_eq_self
    intro m hm
    obtain ⟨hcontent, hmarked, hleft⟩ := hcount m hm
    by_cases hmem : content m.text ∈ (delexEn F en).strs
    · rw [hmarked hmem, hcontent]
      exact (List.countP_eq_zero.mpr fun c hc => Bool.eq_false_iff.mp (h m hm hmem c hc)).symm
    · rw [hleft hmem]

/-- **Prompts that are equal** show that no text with a slot has a line end of JavaScript. -/
theorem texts_of_prompt_eq {en : List Char}
    (h : (delexEn javascript en).prompt = (delexEn python en).prompt) :
    ∀ m ∈ matches? (quoted python).pattern en, content m.text ∈ (delexEn python en).strs →
      ∀ c ∈ content m.text, javascript.lineEnd c = false := by
  have hprompt : ∀ F, (∀ c, F.digit c = true → javascript.lineEnd c = false) →
      (delexEn F en).prompt.countP javascript.lineEnd =
        (withoutTexts F en).countP javascript.lineEnd := by
    intro F hF
    rw [prompt_eq]
    exact countP_numberPass (fun c hc => lineEnd_numChar hc (hF c)) (by decide)
      (delexEn_slots F en).2.1 _
  have hjavascript : (withoutTexts javascript en).countP javascript.lineEnd =
      en.countP javascript.lineEnd := by
    refine (countP_withoutTexts javascript en).2.mpr fun m hm _ => ?_
    have hends := lineEnd_of_quoted (length?_of_mem hm)
    rwa [List.take_left] at hends
  apply (countP_withoutTexts python en).2.mp
  rw [← hprompt python fun c => lineEnd_digit_python, ← h,
    hprompt javascript fun c => lineEnd_digit_javascript, hjavascript]

/-! ### Digits of other scripts -/

/-- A digit of another script. -/
def isForeignDigit (c : Char) : Bool := python.digit c && !javascript.digit c

theorem digit_eq_of_not_foreign {c : Char} (h : isForeignDigit c = false) :
    python.digit c = javascript.digit c := by
  cases hjs : javascript.digit c with
  | true =>
    have hdef : python.digit c = (javascript.digit c ||
      zeros.any fun z => z ≤ c.toNat && c.toNat ≤ z + 9) := rfl
    rw [hdef, hjs, Bool.true_or]
  | false => rwa [isForeignDigit, hjs, Bool.not_false, Bool.and_true] at h

theorem isForeignDigit_numChar {c : Char} (h : isNumChar javascript c = true) :
    isForeignDigit c = false := by
  rw [isNumChar, Bool.or_eq_true, Bool.or_eq_true, decide_eq_true_eq, decide_eq_true_eq] at h
  rcases h with (hdigit | rfl) | rfl
  · rw [isForeignDigit, hdigit, Bool.not_true, Bool.and_false]
  · decide
  · decide

/-- A number begins at every digit. -/
theorem digit_of_not_number {c : Char} {s : List Char} (h : (number F).length? (c :: s) = none) :
    F.digit c = false := by
  rw [Bool.eq_false_iff]
  intro hdigit
  have hminus : c ≠ '-' := by
    rintro rfl
    rw [F.digit_ascii '-' (by decide)] at hdigit
    cases hdigit
  have hsign : sign (c :: s) = 0 := if_neg fun heq => hminus (Option.some_inj.mp heq)
  change numberLength F (c :: s) = none at h
  rw [numberLength, hsign, List.drop_zero, digits, List.takeWhile_cons_of_pos hdigit,
    List.length_cons, if_neg (Nat.succ_ne_zero _)] at h
  cases h

/-- The marker of a number, and nothing without a slot. -/
def numMark (nums : List (List Char)) (text : List Char) : List Char :=
  if nums.idxOf text < nums.length then numPh (nums.idxOf text) else []

/-- **Prompts that are equal** show that every digit is one of ASCII, as long as a slot is
left. -/
theorem numbers_of_prompt_eq {en : List Char}
    (hsame : withoutTexts javascript en = withoutTexts python en)
    (hfree : (delexEn python en).nums.length < numSlots)
    (h : (delexEn javascript en).prompt = (delexEn python en).prompt) :
    ∀ c ∈ withoutTexts python en, python.digit c = javascript.digit c := by
  have hkept : (delexEn javascript en).prompt.countP isForeignDigit =
      (withoutTexts python en).countP isForeignDigit := by
    rw [prompt_eq, hsame]
    exact countP_numberPass (fun c => isForeignDigit_numChar) (by decide)
      (delexEn_slots javascript en).2.1 _
  have hmark : (delexEn python en).prompt =
      (number python).replace (numMark (delexEn python en).nums) (withoutTexts python en) := by
    rw [prompt_eq]
    apply replaceAll_congr
    intro m hm
    -- every number of Python gets a slot
    have hmem : m.text ∈ (delexEn python en).nums :=
      mem_slots_of_lt hfree m (mem_matches?.mp hm)
    exact (if_pos hmem).trans (if_pos (List.idxOf_lt_length_of_mem hmem)).symm
  have hgone : (delexEn python en).prompt.countP isForeignDigit = 0 := by
    rw [hmark]
    apply Lead.countP_replace_eq_zero
    · intro c s hnone
      rw [isForeignDigit, digit_of_not_number hnone, Bool.false_and]
    · intro s n _
      unfold numMark
      split_ifs with hslot
      · exact countP_numPh (fun c => isForeignDigit_numChar) (by decide) (hslot.trans hfree)
      · rfl
  rw [h, hgone] at hkept
  intro c hc
  exact digit_eq_of_not_foreign
    (Bool.eq_false_iff.mpr (List.countP_eq_zero.mp hkept.symm c hc))

/-- **Requests that are delexicalized alike are read alike**, as long as both kinds have a
slot left. -/
theorem readAlike_of_delexEn_eq {en : List Char} (hstrs : (delexEn python en).strs.length < strSlots)
    (hnums : (delexEn python en).nums.length < numSlots)
    (h : delexEn javascript en = delexEn python en) : ReadAlike en := by
  have hprompt := congrArg Delexed.prompt h
  have htexts : ∀ m ∈ matches? (quoted python).pattern en, ∀ c ∈ content m.text,
      javascript.lineEnd c = false := fun m hm =>
    texts_of_prompt_eq hprompt m hm (mem_slots_of_lt hstrs m (mem_matches?.mp hm))
  have hsame : withoutTexts javascript en = withoutTexts python en := by
    rw [withoutTexts, replaceFold, pieces_quoted_eq htexts]
    rfl
  exact ⟨htexts, numbers_of_prompt_eq hsame hnums hprompt⟩

/-! ## Gaps around a comma -/

/-- Another engine goes on as far at least, if what is on the way is a space for it. -/
theorem spaces_le_of_clear {s : List Char} (h : ∀ c ∈ s.take (spaces F s), G.space c = true) :
    spaces F s ≤ spaces G s := by
  have hrun : s.take (spaces F s) ++ s.drop (spaces F s) = s := List.take_append_drop _ _
  have hlen : (s.take (spaces F s)).length = spaces F s := by
    rw [List.length_take, min_eq_left]
    exact List.Sublist.length_le (List.takeWhile_sublist _)
  calc spaces F s = (s.take (spaces F s)).length := hlen.symm
    _ ≤ (s.take (spaces F s) ++ (s.drop (spaces F s)).takeWhile G.space).length := by
        rw [List.length_append]
        exact Nat.le_add_right _ _
    _ = spaces G s := by
        rw [← List.takeWhile_append_of_pos h, hrun]
        rfl

/-- It stops there, if what follows is none. -/
theorem spaces_of_clear {s : List Char} (h : ∀ c ∈ s.take (spaces F s), G.space c = true)
    {d : Char} (hd : (s.drop (spaces F s)).head? = some d) (hstop : G.space d = false) :
    spaces G s = spaces F s := by
  obtain ⟨t, ht⟩ := List.head?_eq_some_iff.mp hd
  have hlen : (s.take (spaces F s)).length = spaces F s := by
    rw [List.length_take, min_eq_left]
    exact List.Sublist.length_le (List.takeWhile_sublist _)
  have hrun : s.take (spaces F s) ++ s.drop (spaces F s) = s := List.take_append_drop _ _
  calc spaces G s = (s.take (spaces F s) ++ (s.drop (spaces F s)).takeWhile G.space).length := by
        rw [← List.takeWhile_append_of_pos h, hrun]
        rfl
    _ = spaces F s := by
        rw [ht, List.takeWhile_cons_of_neg (Bool.eq_false_iff.mp hstop), List.append_nil, hlen]

/-- The spaces of a run are spaces. -/
theorem space_of_mem_take {s : List Char} : ∀ c ∈ s.take (spaces F s), F.space c = true := by
  rw [spaces, ← List.prefix_iff_eq_take.mp (List.takeWhile_prefix F.space)]
  exact List.all_eq_true.mp List.all_takeWhile

theorem comma?_of_clear {s : List Char} {n : ℕ} (h : comma? F s = some n)
    (hclear : ∀ c ∈ s.take n, F.space c = true → G.space c = true) : comma? G s = some n := by
  rw [comma?] at h
  split_ifs at h with hcomma
  obtain rfl := Option.some_inj.mp h
  have hspaces : spaces G s = spaces F s := by
    refine spaces_of_clear (fun c hc => ?_) hcomma (G.space_ascii ',' (by decide) (by decide))
    exact hclear c ((List.take_prefix_take_left (Nat.le_succ _)).subset hc) (space_of_mem_take c hc)
  rw [comma?, hspaces, if_pos hcomma]

theorem commaNul_of_clear (hnul : G.space '\x00' = false) {s : List Char} {n : ℕ}
    (h : (commaNul F).length? s = some n)
    (hclear : ∀ c ∈ s.take n, F.space c = true → G.space c = true) :
    (commaNul G).length? s = some n := by
  obtain ⟨k, hcomma, h⟩ := Option.bind_eq_some_iff.mp h
  split_ifs at h with hend
  obtain rfl := Option.some_inj.mp h
  have hcomma' : comma? G s = some k := comma?_of_clear hcomma fun c hc =>
    hclear c ((List.take_prefix_take_left (by omega)).subset hc)
  rw [← List.drop_drop] at hend
  have hspaces : spaces G (s.drop k) = spaces F (s.drop k) := by
    refine spaces_of_clear (fun c hc => ?_) hend hnul
    refine hclear c ?_ (space_of_mem_take c hc)
    rw [List.take_add, List.take_add]
    exact List.mem_append_left _ (List.mem_append_right _ hc)
  change (comma? G s).bind _ = _
  rw [hcomma', Option.bind_some, hspaces, if_pos (by rwa [List.drop_drop] at hend)]

theorem nulComma_of_clear {s : List Char} {n : ℕ} (h : (nulComma F).length? s = some n)
    (hclear : ∀ c ∈ s.take n, F.space c = true → G.space c = true) :
    ∃ k, (nulComma G).length? s = some k ∧ n ≤ k := by
  change (if s.head? = some '\x00' then _ else none) = some n at h
  split_ifs at h with hhead
  obtain ⟨k, hcomma, h⟩ := Option.bind_eq_some_iff.mp h
  obtain rfl := Option.some_inj.mp h
  have hcomma' : comma? G (s.drop 1) = some k := comma?_of_clear hcomma fun c hc => by
    apply hclear c
    rw [List.take_add, List.take_add]
    exact List.mem_append_left _ (List.mem_append_right _ hc)
  have hspaces : spaces F (s.drop (1 + k)) ≤ spaces G (s.drop (1 + k)) := by
    apply spaces_le_of_clear
    intro c hc
    refine hclear c ?_ (space_of_mem_take c hc)
    rw [List.take_add]
    exact List.mem_append_right _ hc
  refine ⟨1 + k + spaces G (s.drop (1 + k)), ?_, by omega⟩
  change (if s.head? = some '\x00' then _ else none) = _
  rw [if_pos hhead, hcomma']
  rfl

/-! ### Texts with clear gaps -/

/-- What `F` drops with an unfilled marker has no space in it that is none for `G`. -/
structure GapsClear (F G : Flavor) (s : List Char) : Prop where
  before : ∀ m ∈ matches? (commaNul F).pattern s, ∀ c ∈ m.text,
    F.space c = true → G.space c = true
  behind : ∀ m ∈ matches? (nulComma F).pattern ((commaNul F).replace (fun _ => []) s),
    ∀ c ∈ m.text, F.space c = true → G.space c = true

/-- **Engines whose gaps are clear drop the same.** -/
theorem dropUnfilled_eq (hF : F.space '\x00' = false) (hG : G.space '\x00' = false)
    {s : List Char} (hclear : GapsClear F G s) (hclear' : GapsClear G F s) :
    dropUnfilled F s = dropUnfilled G s := by
  have hcommaNul : ∀ {F G : Flavor}, G.space '\x00' = false →
      (∀ m ∈ matches? (commaNul F).pattern s, ∀ c ∈ m.text,
        F.space c = true → G.space c = true) →
      ∀ m ∈ matches? (commaNul F).pattern s,
        ∃ n, (commaNul G).length? (m.text ++ m.after) = some n ∧ m.text.length ≤ n := by
    intro F G hnul h m hm
    refine ⟨_, commaNul_of_clear hnul (length?_of_mem hm) ?_, le_rfl⟩
    rw [List.take_left]
    exact h m hm
  have hnulComma : ∀ {F G : Flavor} {t : List Char},
      (∀ m ∈ matches? (nulComma F).pattern t, ∀ c ∈ m.text,
        F.space c = true → G.space c = true) →
      ∀ m ∈ matches? (nulComma F).pattern t,
        ∃ n, (nulComma G).length? (m.text ++ m.after) = some n ∧ m.text.length ≤ n := by
    intro F G t h m hm
    refine nulComma_of_clear (length?_of_mem hm) ?_
    rw [List.take_left]
    exact h m hm
  have hfirst : (commaNul F).replace (fun _ => []) s = (commaNul G).replace (fun _ => []) s := by
    rw [Lead.replace, replaceAll, pieces_eq_of_matches (hcommaNul hG hclear.before)
      (hcommaNul hF hclear'.before)]
    rfl
  have hbehind := hclear'.behind
  rw [← hfirst] at hbehind
  have hsecond : ∀ t, t = (commaNul F).replace (fun _ => []) s →
      (nulComma F).replace (fun _ => []) t = (nulComma G).replace (fun _ => []) t := by
    rintro t rfl
    rw [Lead.replace, replaceAll, pieces_eq_of_matches (hnulComma hclear.behind)
      (hnulComma hbehind)]
    rfl
  rw [dropUnfilled, hsecond _ rfl, hfirst, dropUnfilled]

/-- A space of the one engine only. -/
def isSpaceOnly (F G : Flavor) (c : Char) : Bool := F.space c && !G.space c

/-- A gap of an engine has no space of the other one only. -/
theorem countP_gap (hF : F.space '\x00' = false) {t : List Char} (h : t.all (isGap G) = true) :
    t.countP (isSpaceOnly F G) = 0 := by
  apply List.countP_eq_zero.mpr
  intro c hc
  have hgap := List.all_eq_true.mp h c hc
  rw [isGap, Bool.or_eq_true, Bool.or_eq_true, decide_eq_true_eq, decide_eq_true_eq] at hgap
  rw [isSpaceOnly]
  rcases hgap with (hspace | rfl) | rfl
  · rw [hspace]
    simp
  · rw [F.space_ascii ',' (by decide) (by decide)]
    simp
  · rw [hF]
    simp

/-- **Each pass only takes such spaces out, and the one with a gap in which there is one
does.** -/
theorem countP_dropUnfilled (hF : F.space '\x00' = false) (s : List Char) :
    (dropUnfilled G s).countP (isSpaceOnly F G) = s.countP (isSpaceOnly F G) ∧
      ((dropUnfilled F s).countP (isSpaceOnly F G) = s.countP (isSpaceOnly F G) →
        GapsClear F G s) := by
  have hfilter : ∀ t : List Char, (t.filter (· ≠ '\x00')).countP (isSpaceOnly F G) =
      t.countP (isSpaceOnly F G) := by
    intro t
    rw [List.countP_filter]
    apply List.countP_congr
    intro c _
    rw [Bool.and_eq_true, decide_eq_true_eq, and_iff_left_iff_imp]
    rintro honly rfl
    rw [isSpaceOnly, hF, Bool.false_and] at honly
    cases honly
  have hzero : ∀ {l : Lead Char} {m : Match Char} {t : List Char},
      (∀ s n, l.length? s = some n → (s.take n).all (isGap G) = true) →
      m ∈ matches? l.pattern t →
        ([] : List Char).countP (isSpaceOnly F G) = m.text.countP (isSpaceOnly F G) := by
    intro l m t hall hm
    have hgap := hall _ _ (length?_of_mem hm)
    rw [List.take_left] at hgap
    rw [countP_gap hF hgap, List.countP_nil]
  -- the second pass counts what the first has left
  constructor
  · rw [dropUnfilled, hfilter, Lead.replace,
      countP_replaceAll_eq_self _ fun m hm => hzero (fun _ _ h => all_take_nulComma h) hm,
      Lead.replace,
      countP_replaceAll_eq_self _ fun m hm => hzero (fun _ _ h => all_take_commaNul h) hm]
  · have hpass : ∀ (l : Lead Char) (t : List Char),
        (l.replace (fun _ => []) t).countP (isSpaceOnly F G) ≤ t.countP (isSpaceOnly F G) ∧
          (t.countP (isSpaceOnly F G) = (l.replace (fun _ => []) t).countP (isSpaceOnly F G) →
            ∀ m ∈ matches? l.pattern t, ∀ c ∈ m.text, F.space c = true → G.space c = true) := by
      intro l t
      obtain ⟨hle, heq⟩ := countP_replaceAll_le (p := l.pattern) (f := Match.text)
        (g := fun _ => []) (s := t) (isSpaceOnly F G) fun m _ => Nat.zero_le _
      have htext : replaceAll l.pattern Match.text t = t := flatMap_text_pieces _ t
      rw [htext] at hle heq
      refine ⟨hle, fun h m hm c hc hspace => ?_⟩
      have honly := List.countP_eq_zero.mp (heq h m hm).symm c hc
      rw [isSpaceOnly, hspace, Bool.true_and, Bool.not_eq_true', Bool.not_eq_false] at honly
      exact honly
    intro h
    rw [dropUnfilled, hfilter] at h
    obtain ⟨hle, hbefore⟩ := hpass (commaNul F) s
    obtain ⟨hle', hbehind⟩ := hpass (nulComma F) ((commaNul F).replace (fun _ => []) s)
    exact ⟨hbefore (by omega), hbehind (by omega)⟩

/-- **`relex` gives the same in both engines exactly when the gaps are clear.** -/
theorem relex_eq_iff (code : List Char) (nums strs : List (List Char)) :
    relex javascript code nums strs = relex python code nums strs ↔
      GapsClear javascript python (fillAll nums strs code) ∧
        GapsClear python javascript (fillAll nums strs code) := by
  constructor
  · intro h
    rw [relex, relex] at h
    constructor
    · apply (countP_dropUnfilled rfl _).2
      rw [h]
      exact (countP_dropUnfilled rfl _).1
    · apply (countP_dropUnfilled rfl _).2
      rw [← h]
      exact (countP_dropUnfilled rfl _).1
  · rintro ⟨hjavascript, hpython⟩
    exact dropUnfilled_eq rfl rfl hjavascript hpython

/-! ## Both functions -/

/-- **The browser and the training delexicalize alike** what is read alike; while a slot of
each kind is left, nothing else; and they put the literals back alike exactly when the gaps
are clear. -/
theorem delex_parity_iff (en code : List Char) (nums strs : List (List Char)) :
    (ReadAlike en → delexEn javascript en = delexEn python en) ∧
    ((delexEn python en).strs.length < strSlots → (delexEn python en).nums.length < numSlots →
      (delexEn javascript en = delexEn python en ↔ ReadAlike en)) ∧
    (relex javascript code nums strs = relex python code nums strs ↔
      GapsClear javascript python (fillAll nums strs code) ∧
        GapsClear python javascript (fillAll nums strs code)) :=
  ⟨delexEn_eq_of_readAlike, fun hstrs hnums =>
    ⟨readAlike_of_delexEn_eq hstrs hnums, delexEn_eq_of_readAlike⟩, relex_eq_iff code nums strs⟩

/-- A digit of another script, a carriage return between quotes, and a byte order mark behind
a comma. -/
theorem delex_parity_fails :
    (delexEn javascript "add ٣ and 4".toList).nums = ["4".toList] ∧
    (delexEn python "add ٣ and 4".toList).nums = ["٣".toList, "4".toList] ∧
    (delexEn javascript "show 'a\rb'".toList).strs = [] ∧
    (delexEn python "show 'a\rb'".toList).strs = ["a\rb".toList] ∧
    (¬ ∀ en, delexEn javascript en = delexEn python en) ∧
    ¬ ∀ code nums strs, relex javascript code nums strs = relex python code nums strs := by
  refine ⟨by decide +kernel, by decide +kernel, by decide +kernel, by decide +kernel, ?_, ?_⟩
  · intro h
    have hprompt := congrArg Delexed.prompt (h "add ٣ and 4".toList)
    revert hprompt
    decide +kernel
  · intro h
    have hrelex := h "[1,\uFEFF#2]".toList [] []
    revert hrelex
    decide +kernel

end Delex
