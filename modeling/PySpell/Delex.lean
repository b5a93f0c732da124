/-
# Delexicalization

The model should not have to copy numbers and quoted texts.  `delex_en` takes them out of a
request and puts markers in their place, `#0` to `#7` for the numbers and `&a` to `&d` for the
texts; `delex_py` does the same to a program, with the slots of the request; and `relex` puts
them back.  The web page and the device have the first and the last again, in JavaScript.

Both are passes of regular expressions over a text: the quoted texts first, then the numbers,
and one pass over the markers.  The engines differ in what they take for a digit, a space and
the end of a line (`Flavor`).

The slots that a request fills are those that its own pass reads in the end
(`delexEn_eq`), so a request and a program are taken apart in the same way.
-/
import PySpell.Lib.Substitute

open Substitute

namespace Delex

/-! ## Patterns -/

/-- The classes of characters of an engine. -/
structure Flavor where
  digit : Char → Bool
  space : Char → Bool
  lineEnd : Char → Bool
  digit_ascii : ∀ c, c.toNat < 128 → digit c = c.isDigit
  space_ascii : ∀ c, 32 < c.toNat → c.toNat < 128 → space c = false

/-- JavaScript. -/
def javascript : Flavor where
  digit := Char.isDigit
  space c := c.toNat ∈ [9, 10, 11, 12, 13, 32, 0xa0, 0x1680, 0x2028, 0x2029, 0x202f, 0x205f,
    0x3000, 0xfeff] || (0x2000 ≤ c.toNat && c.toNat ≤ 0x200a)
  lineEnd c := c.toNat ∈ [10, 13, 0x2028, 0x2029]
  digit_ascii _ _ := rfl
  space_ascii c hlow hhigh := by
    rw [Bool.eq_false_iff]
    intro h
    simp only [Bool.or_eq_true, Bool.and_eq_true, decide_eq_true_eq, List.mem_cons,
      List.not_mem_nil, or_false] at h
    omega

/-- The zeros of the decimal digits beyond ASCII; nine digits follow each. -/
def zeros : List ℕ :=
  [0x660, 0x6f0, 0x7c0, 0x966, 0x9e6, 0xa66, 0xae6, 0xb66, 0xbe6, 0xc66, 0xce6, 0xd66, 0xde6,
    0xe50, 0xed0, 0xf20, 0x1040, 0x1090, 0x17e0, 0x1810, 0x1946, 0x19d0, 0x1a80, 0x1a90, 0x1b50,
    0x1bb0, 0x1c40, 0x1c50, 0xa620, 0xa8d0, 0xa900, 0xa9d0, 0xa9f0, 0xaa50, 0xabf0, 0xff10,
    0x104a0, 0x10d30, 0x11066, 0x110f0, 0x11136, 0x111d0, 0x112f0, 0x11450, 0x114d0, 0x11650,
    0x116c0, 0x11730, 0x118e0, 0x11950, 0x11c50, 0x11d50, 0x11da0, 0x11f50, 0x16a60, 0x16ac0,
    0x16b50, 0x1d7ce, 0x1d7d8, 0x1d7e2, 0x1d7ec, 0x1d7f6, 0x1e140, 0x1e2f0, 0x1e4f0, 0x1e950,
    0x1fbf0]

/-- Python, for `str` patterns. -/
def python : Flavor where
  digit c := c.isDigit || zeros.any fun z => z ≤ c.toNat && c.toNat ≤ z + 9
  space c := c.toNat ∈ [9, 10, 11, 12, 13, 28, 29, 30, 31, 32, 0x85, 0xa0, 0x1680, 0x2028, 0x2029,
    0x202f, 0x205f, 0x3000] || (0x2000 ≤ c.toNat && c.toNat ≤ 0x200a)
  lineEnd c := c = '\n'
  digit_ascii c hc := by
    have hbeyond : (zeros.any fun z => z ≤ c.toNat && c.toNat ≤ z + 9) = false := by
      rw [List.any_eq_false]
      intro z hz
      have hle : 128 ≤ z := by
        revert z
        decide
      rw [Bool.and_eq_true, decide_eq_true_eq]
      omega
    rw [hbeyond, Bool.or_false]
  space_ascii c hlow hhigh := by
    rw [Bool.eq_false_iff]
    intro h
    simp only [Bool.or_eq_true, Bool.and_eq_true, decide_eq_true_eq, List.mem_cons,
      List.not_mem_nil, or_false] at h
    omega

/-! ### Quoted texts -/

/-- `['"]`. -/
def isQuote (c : Char) : Bool := c = '\'' || c = '"'

/-- `.*?` up to the quote: how much is before it. -/
def untilQuote (F : Flavor) (q : Char) : List Char → Option ℕ
  | [] => none
  | c :: s => if c = q then some 0 else if F.lineEnd c then none else (untilQuote F q s).map (· + 1)

theorem untilQuote_lt {F : Flavor} {q : Char} {s : List Char} {n : ℕ}
    (h : untilQuote F q s = some n) : n < s.length := by
  induction s generalizing n with
  | nil => cases h
  | cons c s ih =>
    rw [untilQuote] at h
    split_ifs at h
    · rw [← Option.some_inj.mp h]
      exact Nat.succ_pos _
    · obtain ⟨k, hk, rfl⟩ := Option.map_eq_some_iff.mp h
      exact Nat.succ_lt_succ (ih hk)

/-- `_STR_RE`: `(['"])(.*?)\1`. -/
def quoted (F : Flavor) : Lead Char where
  length?
    | [] => none
    | q :: s => if isQuote q then (untilQuote F q s).map (· + 2) else none
  pos s n h := by
    cases s with
    | nil => cases h
    | cons q s =>
      dsimp only at h
      split_ifs at h
      obtain ⟨k, -, rfl⟩ := Option.map_eq_some_iff.mp h
      exact Nat.succ_pos _
  le_length s n h := by
    cases s with
    | nil => cases h
    | cons q s =>
      dsimp only at h
      split_ifs at h
      obtain ⟨k, hk, rfl⟩ := Option.map_eq_some_iff.mp h
      exact Nat.succ_le_succ (untilQuote_lt hk)

/-- Group 2 of `_STR_RE`. -/
def content (text : List Char) : List Char := (text.drop 1).dropLast

/-! ### Numbers -/

/-- `\d*`. -/
def digits (F : Flavor) (s : List Char) : ℕ := (s.takeWhile F.digit).length

theorem digits_le (F : Flavor) (s : List Char) : digits F s ≤ s.length :=
  List.Sublist.length_le (List.takeWhile_sublist _)

/-- `-?`. -/
def sign (s : List Char) : ℕ := if s.head? = some '-' then 1 else 0

/-- `(\.\d+)?`. -/
def fraction (F : Flavor) (s : List Char) : ℕ :=
  if s.head? = some '.' ∧ digits F (s.drop 1) ≠ 0 then 1 + digits F (s.drop 1) else 0

theorem fraction_le (F : Flavor) (s : List Char) : fraction F s ≤ s.length := by
  unfold fraction
  split_ifs with h
  · have hle := digits_le F (s.drop 1)
    rw [List.length_drop] at hle
    omega
  · exact Nat.zero_le _

/-- `-?\d+`, and how much it matches with the rest. -/
def wholeLength (F : Flavor) (s : List Char) : ℕ := sign s + digits F (s.drop (sign s))

def numberLength (F : Flavor) (s : List Char) : Option ℕ :=
  if digits F (s.drop (sign s)) = 0 then none
  else some (wholeLength F s + fraction F (s.drop (wholeLength F s)))

/-- `_NUM_RE`: `-?\d+(?:\.\d+)?`. -/
def number (F : Flavor) : Lead Char where
  length? := numberLength F
  pos s n h := by
    unfold numberLength at h
    split_ifs at h
    have hn := Option.some_inj.mp h
    unfold wholeLength at hn
    omega
  le_length s n h := by
    unfold numberLength at h
    split_ifs at h with hzero
    have hn := Option.some_inj.mp h
    have hdigits := digits_le F (s.drop (sign s))
    have hfraction := fraction_le F (s.drop (wholeLength F s))
    rw [List.length_drop] at hdigits hfraction
    have hwhole : wholeLength F s = sign s + digits F (s.drop (sign s)) := rfl
    omega

/-- What a number is made of. -/
def isNumChar (F : Flavor) (c : Char) : Bool := F.digit c || c = '-' || c = '.'

theorem all_take_digits (F : Flavor) (s : List Char) :
    (s.take (digits F s)).all (isNumChar F) = true := by
  rw [digits, ← List.prefix_iff_eq_take.mp (List.takeWhile_prefix F.digit), List.all_eq_true]
  intro c hc
  rw [isNumChar, List.all_eq_true.mp List.all_takeWhile c hc]
  rfl

/-- **A number is made of digits, signs and points**, and has one character at least. -/
theorem all_take_number {F : Flavor} {s : List Char} {n : ℕ} (h : (number F).length? s = some n) :
    (s.take n).all (isNumChar F) = true := by
  change numberLength F s = some n at h
  unfold numberLength at h
  split_ifs at h
  obtain rfl := Option.some_inj.mp h
  have hsign : (s.take (sign s)).all (isNumChar F) = true := by
    unfold sign
    split_ifs with hminus
    · obtain ⟨t, rfl⟩ := List.head?_eq_some_iff.mp hminus
      simp [isNumChar]
    · rfl
  have hfraction : ∀ t : List Char, (t.take (fraction F t)).all (isNumChar F) = true := by
    intro t
    unfold fraction
    split_ifs with hdot
    · obtain ⟨u, rfl⟩ := List.head?_eq_some_iff.mp hdot.1
      rw [Nat.add_comm, List.drop_succ_cons, List.drop_zero, List.take_succ_cons, List.all_cons,
        all_take_digits]
      simp [isNumChar]
    · rfl
  rw [List.take_add, List.all_append, hfraction, wholeLength, List.take_add, List.all_append, hsign,
    all_take_digits]
  rfl

/-! ## Slots -/

/-- `NUM_SLOTS` and `STR_SLOTS`. -/
def numSlots : ℕ := 8
def strSlots : ℕ := 4

/-- `NUM_PH` and `STR_PH`. -/
def numPh (i : ℕ) : List Char := ['#', Char.ofNat (48 + i)]
def strPh (i : ℕ) : List Char := ['&', Char.ofNat (97 + i)]

/-- A literal gets the slot that it has, or the next free one; without one it stays. -/
def slotSub (cap : ℕ) (key : List Char → List Char) (mark : List Char → ℕ → List Char)
    (slots : List (List Char)) (m : Match Char) : List Char × List (List Char) :=
  if key m.text ∈ slots then (mark m.text (slots.idxOf (key m.text)), slots)
  else if cap ≤ slots.length then (m.text, slots)
  else
    let slots := slots ++ [key m.text]
    (mark m.text (slots.idxOf (key m.text)), slots)

/-- A literal with a slot becomes its marker. -/
def markSub (key : List Char → List Char) (mark : List Char → ℕ → List Char)
    (slots : List (List Char)) (text : List Char) : List Char :=
  if key text ∈ slots then mark text (slots.idxOf (key text)) else text

/-- A marker between the quotes of the text. -/
def quote (text : List Char) (i : ℕ) : List Char := text.take 1 ++ strPh i ++ text.take 1

/-- `_str_sub` and `_num_sub` of `delex_en`. -/
def strSub : List (List Char) → Match Char → List Char × List (List Char) :=
  slotSub strSlots content quote

def numSub : List (List Char) → Match Char → List Char × List (List Char) :=
  slotSub numSlots id fun _ => numPh

/-- `_str_sub` and `_num_sub` of `delex_py`. -/
def strSubPy : List (List Char) → List Char → List Char := markSub content quote

def numSubPy : List (List Char) → List Char → List Char := markSub id fun _ => numPh

/-- What `delex_en` returns. -/
structure Delexed where
  prompt : List Char
  nums : List (List Char)
  strs : List (List Char)

/-- `delex_en`. -/
def delexEn (F : Flavor) (en : List Char) : Delexed :=
  let (s, strs) := replaceFold (quoted F).pattern strSub [] en
  let (s, nums) := replaceFold (number F).pattern numSub [] s
  ⟨s, nums, strs⟩

/-- `delex_py`. -/
def delexPy (F : Flavor) (py : List Char) (nums strs : List (List Char)) : List Char :=
  let s := (quoted F).replace (strSubPy strs) py
  (number F).replace (numSubPy nums) s

/-! ## Putting the literals back -/

/-- `[0-7]` and `[a-d]`. -/
def isNumSlot (c : Char) : Bool := 48 ≤ c.toNat && c.toNat < 48 + numSlots
def isStrSlot (c : Char) : Bool := 97 ≤ c.toNat && c.toNat < 97 + strSlots

/-- Two characters. -/
def pair (p : Char → Char → Bool) : Lead Char where
  length?
    | h :: d :: _ => if p h d then some 2 else none
    | _ => none
  pos s n h := by
    split at h
    · split_ifs at h
      rw [← Option.some_inj.mp h]
      exact Nat.succ_pos 1
    · cases h
  le_length s n h := by
    split at h
    · split_ifs at h
      rw [← Option.some_inj.mp h]
      exact Nat.le_add_left 2 _
    · cases h

/-- `_PH_RE`. -/
def marker : Lead Char :=
  pair fun h d => (h == '#' && isNumSlot d) || (h == '&' && isStrSlot d)

/-- `_sub`: what a marker stands for, NUL without a slot. -/
def fill (nums strs : List (List Char)) : List Char → List Char
  | '#' :: d :: _ => (nums[d.toNat - 48]?).getD ['\x00']
  | _ :: d :: _ => (strs[d.toNat - 97]?).getD ['\x00']
  | _ => []

/-- `\s*`. -/
def spaces (F : Flavor) (s : List Char) : ℕ := (s.takeWhile F.space).length

/-- `\s*,`. -/
def comma? (F : Flavor) (s : List Char) : Option ℕ :=
  if (s.drop (spaces F s)).head? = some ',' then some (spaces F s + 1) else none

theorem drop_of_head? {s : List Char} {n : ℕ} {c : Char} (h : (s.drop n).head? = some c) :
    n < s.length := by
  by_contra hle
  rw [List.drop_eq_nil_of_le (by omega)] at h
  cases h

/-- `\s*,\s*\0`. -/
def commaNul (F : Flavor) : Lead Char where
  length? s := do
    let n ← comma? F s
    if (s.drop (n + spaces F (s.drop n))).head? = some '\x00' then
      some (n + spaces F (s.drop n) + 1)
    else none
  pos s n h := by
    obtain ⟨k, -, h⟩ := Option.bind_eq_some_iff.mp h
    split_ifs at h
    rw [← Option.some_inj.mp h]
    exact Nat.succ_pos _
  le_length s n h := by
    obtain ⟨k, -, h⟩ := Option.bind_eq_some_iff.mp h
    split_ifs at h with hnul
    rw [← Option.some_inj.mp h]
    exact drop_of_head? hnul

/-- `\0\s*,\s*`. -/
def nulComma (F : Flavor) : Lead Char where
  length? s :=
    if s.head? = some '\x00' then do
      let n ← comma? F (s.drop 1)
      some (1 + n + spaces F (s.drop (1 + n)))
    else none
  pos s n h := by
    split_ifs at h
    obtain ⟨k, -, h⟩ := Option.bind_eq_some_iff.mp h
    have hn := Option.some_inj.mp h
    omega
  le_length s n h := by
    split_ifs at h
    obtain ⟨k, hk, h⟩ := Option.bind_eq_some_iff.mp h
    rw [comma?] at hk
    split_ifs at hk with hcomma
    have hlt := drop_of_head? hcomma
    rw [List.length_drop] at hlt
    have hle : spaces F (s.drop (1 + k)) ≤ (s.drop (1 + k)).length :=
      List.Sublist.length_le (List.takeWhile_sublist _)
    rw [List.length_drop] at hle
    have hn := Option.some_inj.mp h
    have hk' := Option.some_inj.mp hk
    omega

/-- The markers are filled in. -/
def fillAll (nums strs : List (List Char)) (code : List Char) : List Char :=
  marker.replace (fill nums strs) code

/-- What has no slot is dropped, with a comma before it or behind it. -/
def dropUnfilled (F : Flavor) (s : List Char) : List Char :=
  ((nulComma F).replace (fun _ => []) ((commaNul F).replace (fun _ => []) s)).filter (· ≠ '\x00')

/-- `relex`. -/
def relex (F : Flavor) (code : List Char) (nums strs : List (List Char)) : List Char :=
  dropUnfilled F (fillAll nums strs code)

/-! ## The slots in the end -/

/-- **A pass that fills slots** only adds to them, at most `cap` in all, and does what a pass
with all the slots of its end does. -/
theorem foldPieces_slotSub (cap : ℕ) (key : List Char → List Char)
    (mark : List Char → ℕ → List Char) : ∀ (l : List (Piece Char)) (slots : List (List Char)),
    slots <+: (foldPieces (slotSub cap key mark) slots l).2 ∧
      (cap ≤ slots.length → (foldPieces (slotSub cap key mark) slots l).2 = slots) ∧
      (slots.length ≤ cap → (foldPieces (slotSub cap key mark) slots l).2.length ≤ cap) ∧
      (∀ v ∈ (foldPieces (slotSub cap key mark) slots l).2,
        v ∈ slots ∨ ∃ m, .found m ∈ l ∧ v = key m.text) ∧
      (foldPieces (slotSub cap key mark) slots l).1 =
        l.flatMap (Piece.subst fun m =>
          markSub key mark (foldPieces (slotSub cap key mark) slots l).2 m.text) := by
  intro l
  induction l with
  | nil =>
    intro slots
    exact ⟨List.prefix_rfl, fun _ => rfl, fun h => h, fun v hv => .inl hv, rfl⟩
  | cons piece l ih =>
    intro slots
    cases piece with
    -- what is kept touches no slot
    | kept a =>
      obtain ⟨hpre, hfull, hcap, hmem, hout⟩ := ih slots
      refine ⟨hpre, hfull, hcap, fun v hv => ?_, ?_⟩
      · rcases hmem v hv with hv | ⟨m, hm, hv⟩
        · exact .inl hv
        · exact .inr ⟨m, List.mem_cons_of_mem _ hm, hv⟩
      · rw [foldPieces, List.flatMap_cons, hout]
        rfl
    | found m =>
      obtain ⟨hpre, hfull, hcap, hmem, hout⟩ := ih (slotSub cap key mark slots m).2
      rw [foldPieces]
      dsimp only
      rw [List.flatMap_cons, hout]
      generalize hfinal : (foldPieces (slotSub cap key mark) (slotSub cap key mark slots m).2 l).2 =
        final at hpre hfull hcap hmem ⊢
      have hlater : ∀ v, (v ∈ slots ∨ ∃ m, .found m ∈ l ∧ v = key m.text) →
          v ∈ slots ∨ ∃ m', .found m' ∈ .found m :: l ∧ v = key m'.text := by
        rintro v (hv | ⟨m', hm', hv⟩)
        · exact .inl hv
        · exact .inr ⟨m', List.mem_cons_of_mem _ hm', hv⟩
      change _ ∧ _ ∧ _ ∧ _ ∧ _ = markSub key mark final m.text ++ _
      unfold slotSub at hpre hfull hcap hmem ⊢
      unfold markSub
      -- the text has a slot already
      by_cases hold : key m.text ∈ slots
      · rw [if_pos hold] at hpre hfull hcap hmem ⊢
        refine ⟨hpre, hfull, hcap, fun v hv => hlater v (hmem v hv), ?_⟩
        obtain ⟨more, rfl⟩ := hpre
        rw [if_pos (List.mem_append_left more hold), List.idxOf_append_of_mem hold]
      -- or there is no slot left, and it stays as it is
      by_cases hfree : cap ≤ slots.length
      · rw [if_neg hold, if_pos hfree] at hpre hfull hcap hmem ⊢
        refine ⟨hpre, hfull, hcap, fun v hv => hlater v (hmem v hv), ?_⟩
        rw [hfull hfree, if_neg hold]
      · rw [if_neg hold, if_neg hfree] at hpre hfull hcap hmem ⊢
        -- or it gets the next one, which later pieces keep
        have hnew : key m.text ∈ slots ++ [key m.text] :=
          List.mem_append_right slots List.mem_cons_self
        refine ⟨(List.prefix_append _ _).trans hpre, fun h => absurd h hfree, fun h => hcap ?_,
          fun v hv => ?_, ?_⟩
        · rw [List.length_append, List.length_singleton]
          omega
        · rcases hmem v hv with hv | hv
          · rcases List.mem_append.mp hv with hv | hv
            · exact .inl hv
            · exact .inr ⟨m, List.mem_cons_self, List.mem_singleton.mp hv⟩
          · exact hlater v (.inr hv)
        · obtain ⟨more, rfl⟩ := hpre
          rw [if_pos (List.mem_append_left more hnew), List.idxOf_append_of_mem hnew]

/-- **A request is taken apart like a program**, with the slots that it fills. -/
theorem delexEn_eq (F : Flavor) (en : List Char) :
    (delexEn F en).prompt = delexPy F en (delexEn F en).nums (delexEn F en).strs := by
  have hstr := (foldPieces_slotSub strSlots content quote (pieces (quoted F).pattern en) []).2.2.2.2
  unfold delexEn delexPy
  dsimp only
  change (replaceFold (number F).pattern numSub []
    (foldPieces strSub [] (pieces (quoted F).pattern en)).1).1 = _
  change (foldPieces strSub [] (pieces (quoted F).pattern en)).1 = (quoted F).replace
    (strSubPy (replaceFold (quoted F).pattern strSub [] en).2) en at hstr
  rw [← hstr]
  exact (foldPieces_slotSub numSlots id (fun _ => numPh) (pieces (number F).pattern _) []).2.2.2.2

/-- The slots of a request: numbers, eight at most, and four texts at most. -/
theorem delexEn_slots (F : Flavor) (en : List Char) :
    (∀ v ∈ (delexEn F en).nums, v ≠ [] ∧ v.all (isNumChar F) = true) ∧
      (delexEn F en).nums.length ≤ numSlots ∧ (delexEn F en).strs.length ≤ strSlots := by
  refine ⟨fun v hv => ?_, ?_, ?_⟩
  · rcases (foldPieces_slotSub numSlots id (fun _ => numPh) (pieces (number F).pattern _)
      []).2.2.2.1 v hv with hnil | ⟨m, hm, rfl⟩
    · cases hnil
    · have hat : (number F).length? (m.text ++ m.after) = some m.text.length :=
        (of_mem_matches? (mem_matches?.mpr hm)).2
      refine ⟨fun hnil => ?_, ?_⟩
      · have hpos := (number F).pos _ _ hat
        rw [show m.text = [] from hnil] at hpos
        exact absurd hpos (Nat.lt_irrefl 0)
      · have hall := all_take_number hat
        rwa [List.take_left] at hall
  · exact (foldPieces_slotSub numSlots id (fun _ => numPh) (pieces (number F).pattern _)
      []).2.2.1 (Nat.zero_le _)
  · exact (foldPieces_slotSub strSlots content quote (pieces (quoted F).pattern en)
      []).2.2.1 (Nat.zero_le _)

end Delex
