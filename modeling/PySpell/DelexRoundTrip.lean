/-
# Taking literals out and putting them back

`relex` undoes `delex_py`, and so `delex_en`, except where the text itself has a marker.
Such a marker stands outside of the texts that got a slot: an `&` and one of four letters, or
a `#` right in front of a number without a slot.  `relex` cannot tell it from its own and
puts in what the slot holds, or drops it (`relex_drops`).

`Plain` says that a text has no such marker, but for one whose slot holds the marker itself.
Then both round trips hold (`relex_delexPy`); and if no slot holds a `#` or an `&`, they hold
only then (`plain_of_relex`), since every marker that is filled in loses one of the two.
-/
import PySpell.Delex

open Substitute

namespace Delex

variable {F : Flavor} {nums strs : List (List Char)}

/-! ## Markers -/

/-- What the slots of a request are. -/
structure Slots (F : Flavor) (nums strs : List (List Char)) : Prop where
  numeric : ∀ v ∈ nums, v ≠ [] ∧ v.all (isNumChar F) = true
  nums_le : nums.length ≤ numSlots
  strs_le : strs.length ≤ strSlots

/-- Number slots are the digits, in order. -/
theorem isNumSlot_ofNat {i : ℕ} (h : i < numSlots) :
    isNumSlot (Char.ofNat (48 + i)) = true ∧ (Char.ofNat (48 + i)).toNat = 48 + i := by
  revert i
  decide

/-- String slots are the small letters, in order. -/
theorem isStrSlot_ofNat {i : ℕ} (h : i < strSlots) :
    isStrSlot (Char.ofNat (97 + i)) = true ∧ (Char.ofNat (97 + i)).toNat = 97 + i := by
  revert i
  decide

/-- What is not in a number. -/
theorem isNumChar_eq_false {c : Char} (hc : c.toNat < 128)
    (h : (c.isDigit || c = '-' || c = '.') = false) : isNumChar F c = false := by
  rw [isNumChar, F.digit_ascii c hc, h]

/-- A letter of a slot continues no number. -/
theorem isNumChar_of_isStrSlot {c : Char} (h : isStrSlot c = true) : isNumChar F c = false := by
  rw [isStrSlot, Bool.and_eq_true, decide_eq_true_eq, decide_eq_true_eq] at h
  have hcap : strSlots = 4 := rfl
  apply isNumChar_eq_false (by omega)
  have hdigit : c.isDigit = false := by
    rw [Char.isDigit, Bool.and_eq_false_iff]
    refine .inr (decide_eq_false fun hle => ?_)
    have hle' : c.toNat ≤ 57 := hle
    omega
  have hne : ∀ d : Char, d.toNat < 97 → c ≠ d := fun d hd heq => by
    rw [heq] at h
    omega
  rw [hdigit, decide_eq_false (hne '-' (by decide)), decide_eq_false (hne '.' (by decide))]
  rfl

/-- The digits of the slots are digits. -/
theorem digit_of_isNumSlot {c : Char} (h : isNumSlot c = true) : F.digit c = true := by
  rw [isNumSlot, Bool.and_eq_true, decide_eq_true_eq, decide_eq_true_eq] at h
  have hcap : numSlots = 8 := rfl
  rw [F.digit_ascii c (by omega), Char.isDigit, Bool.and_eq_true]
  exact ⟨decide_eq_true (show 48 ≤ c.toNat from h.1), decide_eq_true (show c.toNat ≤ 57 by omega)⟩

/-- No marker begins at the head of the text. -/
def NoFront (c : Char) (s : List Char) : Prop :=
  (c = '#' → s.head?.any isNumSlot = false) ∧ (c = '&' → s.head?.any isStrSlot = false)

/-- Nothing to fill. -/
theorem fillAll_nil : fillAll nums strs [] = [] := marker.replace_nil

/-- A character that begins no placeholder is kept. -/
theorem fillAll_cons {c : Char} {s : List Char} (h : NoFront c s) :
    fillAll nums strs (c :: s) = c :: fillAll nums strs s := by
  apply Lead.replace_of_none
  cases s with
  | nil => rfl
  | cons d s =>
    apply if_neg
    rw [Bool.or_eq_true, Bool.and_eq_true, Bool.and_eq_true, beq_iff_eq, beq_iff_eq]
    rintro (⟨hc, hd⟩ | ⟨hc, hd⟩)
    · exact absurd hd (Bool.eq_false_iff.mp (h.1 hc))
    · exact absurd hd (Bool.eq_false_iff.mp (h.2 hc))

/-- What a slot holds, or NUL. -/
def slotText (slots : List (List Char)) (i : ℕ) : List Char := (slots[i]?).getD ['\x00']

/-- A number placeholder becomes what its slot holds. -/
theorem fillAll_num {d : Char} (hd : isNumSlot d = true) (s : List Char) :
    fillAll nums strs ('#' :: d :: s) = slotText nums (d.toNat - 48) ++ fillAll nums strs s := by
  have hmarker : marker.length? ('#' :: d :: s) = some 2 := by
    apply if_pos
    dsimp only
    rw [hd]
    rfl
  exact Lead.replace_of_some hmarker

/-- A string placeholder becomes what its slot holds. -/
theorem fillAll_str {d : Char} (hd : isStrSlot d = true) (s : List Char) :
    fillAll nums strs ('&' :: d :: s) = slotText strs (d.toNat - 97) ++ fillAll nums strs s := by
  have hmarker : marker.length? ('&' :: d :: s) = some 2 := by
    apply if_pos
    dsimp only
    rw [hd]
    rfl
  exact Lead.replace_of_some hmarker

/-- The markers of texts. -/
def strMarker : Lead Char := pair fun h d => h == '&' && isStrSlot d

/-- The markers of texts are filled in. -/
def fillStrs (strs : List (List Char)) (s : List Char) : List Char :=
  strMarker.replace (fill [] strs) s

/-- Nothing to fill. -/
theorem fillStrs_nil : fillStrs strs [] = [] := strMarker.replace_nil

/-- A character that begins no string placeholder is kept. -/
theorem fillStrs_cons {c : Char} {s : List Char} (h : c = '&' → s.head?.any isStrSlot = false) :
    fillStrs strs (c :: s) = c :: fillStrs strs s := by
  apply Lead.replace_of_none
  cases s with
  | nil => rfl
  | cons d s =>
    apply if_neg
    rw [Bool.and_eq_true, beq_iff_eq]
    rintro ⟨hc, hd⟩
    exact absurd hd (Bool.eq_false_iff.mp (h hc))

/-- A string placeholder becomes what its slot holds. -/
theorem fillStrs_str {d : Char} (hd : isStrSlot d = true) (s : List Char) :
    fillStrs strs ('&' :: d :: s) = slotText strs (d.toNat - 97) ++ fillStrs strs s := by
  have hmarker : strMarker.length? ('&' :: d :: s) = some 2 := by
    apply if_pos
    dsimp only
    rw [hd]
    rfl
  exact Lead.replace_of_some hmarker

/-- A text without the two characters is kept. -/
theorem fillAll_append {x : List Char} (hx : '#' ∉ x ∧ '&' ∉ x) (s : List Char) :
    fillAll nums strs (x ++ s) = x ++ fillAll nums strs s := by
  induction x with
  | nil => rfl
  | cons c x ih =>
    have hc : NoFront c (x ++ s) := by
      constructor
      · rintro rfl
        exact absurd List.mem_cons_self hx.1
      · rintro rfl
        exact absurd List.mem_cons_self hx.2
    rw [List.cons_append, fillAll_cons hc, List.cons_append,
      ih ⟨fun h => hx.1 (List.mem_cons_of_mem c h), fun h => hx.2 (List.mem_cons_of_mem c h)⟩]

/-- Text without the front of a placeholder is kept as a whole. -/
theorem fillStrs_append {x : List Char} (hx : '&' ∉ x) (s : List Char) :
    fillStrs strs (x ++ s) = x ++ fillStrs strs s := by
  induction x with
  | nil => rfl
  | cons c x ih =>
    rw [List.cons_append, fillStrs_cons fun hc => absurd (hc ▸ List.mem_cons_self) hx,
      List.cons_append, ih fun h => hx (List.mem_cons_of_mem c h)]

/-! ## The pass over the numbers -/

/-- `_NUM_RE.sub` of `delex_py`. -/
def numPass (F : Flavor) (nums : List (List Char)) (s : List Char) : List Char :=
  (number F).replace (numSubPy nums) s

/-- A number behind a `#` has a slot, or its first digit is not one of a marker. -/
def Behind (F : Flavor) (nums : List (List Char)) (s : List Char) : Prop :=
  ∀ n, (number F).length? s = some n → s.take n ∈ nums ∨ s.head?.any isNumSlot = false

/-- Every number behind a `#` is such a one. -/
def HashOk (F : Flavor) (nums : List (List Char)) (s : List Char) : Prop :=
  ∀ t, '#' :: t <:+ s → Behind F nums t

/-- Only what stands behind a `#` is asked about. -/
theorem hashOk_cons {c : Char} {s : List Char} :
    HashOk F nums (c :: s) ↔ (c = '#' → Behind F nums s) ∧ HashOk F nums s := by
  constructor
  · intro h
    refine ⟨?_, fun t ht => h t (ht.trans (List.suffix_cons c s))⟩
    rintro rfl
    exact h s List.suffix_rfl
  · rintro ⟨hfront, hrest⟩ t ht
    rcases List.suffix_cons_iff.mp ht with heq | hsuffix
    · obtain ⟨rfl, rfl⟩ := List.cons.inj heq
      exact hfront rfl
    · exact hrest t hsuffix

/-- So text without one may be put in front. -/
theorem hashOk_append {x : List Char} (hx : '#' ∉ x) {s : List Char} :
    HashOk F nums (x ++ s) ↔ HashOk F nums s := by
  induction x with
  | nil => rfl
  | cons c x ih =>
    have hc : c ≠ '#' := fun hc => hx (hc ▸ List.mem_cons_self)
    rw [List.cons_append, hashOk_cons, ih fun h => hx (List.mem_cons_of_mem c h)]
    exact and_iff_right fun h => absurd h hc

/-! ### One number -/

/-- A number with a slot becomes its placeholder. -/
theorem numSubPy_of_mem {v : List Char} (h : v ∈ nums) :
    numSubPy nums v = numPh (nums.idxOf v) := if_pos h

/-- A number without one is kept. -/
theorem numSubPy_of_not_mem {v : List Char} (h : v ∉ nums) : numSubPy nums v = v := if_neg h

/-- What stands in front is a number, or stays. -/
theorem numPass_head (F : Flavor) (nums : List (List Char)) (s : List Char) :
    (∃ n, (number F).length? s = some n ∧ s.take n ∈ nums ∧
      (numPass F nums s).head? = some '#' ∧ s.head?.any (isNumChar F) = true) ∨
    (∀ n, (number F).length? s = some n → s.take n ∉ nums) ∧
      (numPass F nums s).head? = s.head? := by
  unfold numPass
  cases hlen : (number F).length? s with
  | none =>
    refine .inr ⟨(fun n h => by cases h), ?_⟩
    cases s with
    | nil => rw [Lead.replace_nil]
    | cons c s => rw [Lead.replace_of_none hlen, List.head?_cons, List.head?_cons]
  | some n =>
    have hpos := (number F).pos s n hlen
    have hle := (number F).le_length s n hlen
    rw [Lead.replace_of_some hlen]
    by_cases hslot : s.take n ∈ nums
    · rw [numSubPy_of_mem hslot]
      refine .inl ⟨n, rfl, hslot, rfl, ?_⟩
      have hall := all_take_number hlen
      cases s with
      | nil =>
        rw [List.length_nil] at hle
        omega
      | cons c s =>
        obtain ⟨k, rfl⟩ : ∃ k, n = k + 1 := ⟨n - 1, by omega⟩
        rw [List.take_succ_cons, List.all_cons, Bool.and_eq_true] at hall
        exact hall.1
    · refine .inr ⟨fun k hk => by rw [← Option.some_inj.mp hk]; exact hslot, ?_⟩
      rw [numSubPy_of_not_mem hslot, List.head?_append, List.head?_take, if_neg (by omega)]
      cases s with
      | nil =>
        rw [List.length_nil] at hle
        omega
      | cons c s => rfl

/-- A digit begins a number, so a placeholder's digit would be taken for one. -/
theorem number_of_isNumSlot {s : List Char} (h : s.head?.any isNumSlot = true) :
    (number F).length? s ≠ none := by
  obtain ⟨c, hc, hslot⟩ := (Option.any_eq_true _ _).mp h
  obtain ⟨t, rfl⟩ := List.head?_eq_some_iff.mp hc
  have hsign : sign (c :: t) = 0 := by
    apply if_neg
    rw [List.head?_cons, Option.some_inj]
    rintro rfl
    cases hslot
  have hdigits : digits F (c :: t) ≠ 0 := by
    rw [digits, List.takeWhile_cons_of_pos (digit_of_isNumSlot hslot)]
    exact Nat.succ_ne_zero _
  change numberLength F (c :: t) ≠ none
  rw [numberLength, hsign, List.drop_zero, if_neg hdigits]
  exact Option.some_ne_none _

/-- A `#` makes a marker with what the pass leaves behind it, unless the number is such a one. -/
theorem behind_iff (s : List Char) :
    Behind F nums s ↔ (numPass F nums s).head?.any isNumSlot = false := by
  rcases numPass_head F nums s with ⟨n, hlen, hslot, hhead, -⟩ | ⟨hslot, hhead⟩
  · refine iff_of_true (fun k hk => ?_) (by rw [hhead]; rfl)
    rw [← Option.some_inj.mp (hlen.symm.trans hk)]
    exact .inl hslot
  · rw [hhead]
    constructor
    · intro h
      cases hany : s.head?.any isNumSlot with
      | false => rfl
      | true =>
        obtain ⟨n, hn⟩ := Option.ne_none_iff_exists'.mp (number_of_isNumSlot (F := F) hany)
        rcases h n hn with hin | hout
        · exact absurd hin (hslot n hn)
        · exact hany.symm.trans hout
    · exact fun h n hn => .inr h

/-- The pass does not make or break a marker of a text. -/
theorem numPass_head_str (s : List Char) :
    (numPass F nums s).head?.any isStrSlot = s.head?.any isStrSlot := by
  rcases numPass_head F nums s with ⟨n, -, -, hhead, hnum⟩ | ⟨-, hhead⟩
  · obtain ⟨c, hc, hnum⟩ := (Option.any_eq_true _ _).mp hnum
    have hstr : isStrSlot c = false := by
      cases h : isStrSlot c with
      | false => rfl
      | true => exact absurd hnum (Bool.eq_false_iff.mp (isNumChar_of_isStrSlot h))
    rw [hhead, hc, Option.any_some, Option.any_some, hstr]
    rfl
  · rw [hhead]

/-- A character that begins no number is kept. -/
theorem numPass_cons {c : Char} {s : List Char} (h : (number F).length? (c :: s) = none) :
    numPass F nums (c :: s) = c :: numPass F nums s := Lead.replace_of_none h

/-- A number has none of the characters of the markers. -/
theorem not_mem_of_numeric {v : List Char} (h : v.all (isNumChar F) = true) :
    '#' ∉ v ∧ '&' ∉ v := by
  have hout : ∀ c, isNumChar F c = false → c ∉ v := fun c hc hmem =>
    absurd (List.all_eq_true.mp h c hmem) (Bool.eq_false_iff.mp hc)
  exact ⟨hout '#' (isNumChar_eq_false (by decide) (by decide)),
    hout '&' (isNumChar_eq_false (by decide) (by decide))⟩

/-- A value is in the slot of its first occurrence. -/
theorem slotText_idxOf {slots : List (List Char)} {v : List Char} (h : v ∈ slots) :
    slotText slots (slots.idxOf v) = v := by
  rw [slotText, List.getElem?_idxOf h, Option.getD_some]

/-! ### Filling the numbers back -/

/-- A number is put back, or was never taken out. -/
theorem fillAll_numPass_number (hslots : Slots F nums strs) {s : List Char} {n : ℕ}
    (h : (number F).length? s = some n) :
    fillAll nums strs (numPass F nums s) =
      s.take n ++ fillAll nums strs (numPass F nums (s.drop n)) := by
  have hpass : numPass F nums s = numSubPy nums (s.take n) ++ numPass F nums (s.drop n) :=
    Lead.replace_of_some h
  rw [hpass]
  by_cases hslot : s.take n ∈ nums
  · have hlt : nums.idxOf (s.take n) < numSlots :=
      (List.idxOf_lt_length_iff.mpr hslot).trans_le hslots.nums_le
    obtain ⟨hdigit, hcode⟩ := isNumSlot_ofNat hlt
    rw [numSubPy_of_mem hslot, numPh, List.cons_append, List.cons_append, List.nil_append,
      fillAll_num hdigit, hcode, Nat.add_sub_cancel_left, slotText_idxOf hslot]
  · rw [numSubPy_of_not_mem hslot, fillAll_append (not_mem_of_numeric (all_take_number h))]

/-- A character that is no number: it stays, or it makes a marker with what follows. -/
theorem fillAll_numPass_cons (nums strs : List (List Char)) {c : Char} {s : List Char}
    (h : (number F).length? (c :: s) = none) :
    (¬ (c = '#' ∧ ¬ Behind F nums s) ∧ ¬ (c = '&' ∧ s.head?.any isStrSlot = true) ∧
      fillAll nums strs (numPass F nums (c :: s)) = c :: fillAll nums strs (numPass F nums s)) ∨
    (c = '#' ∧ ¬ Behind F nums s ∧ ∃ d w, isNumSlot d = true ∧
      fillAll nums strs (numPass F nums s) = d :: w ∧
      fillAll nums strs (numPass F nums (c :: s)) = slotText nums (d.toNat - 48) ++ w) ∨
    (c = '&' ∧ ∃ d t w, s = d :: t ∧ isStrSlot d = true ∧
      fillAll nums strs (numPass F nums s) = d :: w ∧
      fillAll nums strs (numPass F nums (c :: s)) = slotText strs (d.toNat - 97) ++ w) := by
  rw [numPass_cons h]
  -- a `#` in front of what the pass made a slot's digit
  by_cases hnum : c = '#' ∧ ¬ Behind F nums s
  · obtain ⟨rfl, hbehind⟩ := hnum
    refine .inr (.inl ⟨rfl, hbehind, ?_⟩)
    rw [behind_iff, Bool.not_eq_false] at hbehind
    obtain ⟨d, hd, hslot⟩ := (Option.any_eq_true _ _).mp hbehind
    obtain ⟨w, hw⟩ := List.head?_eq_some_iff.mp hd
    have hfront : NoFront d w := by
      constructor <;>
        · rintro rfl
          cases hslot
    exact ⟨d, fillAll nums strs w, hslot, by rw [hw, fillAll_cons hfront],
      by rw [hw, fillAll_num hslot]⟩
  -- an `&` in front of a slot's letter
  by_cases hstr : c = '&' ∧ s.head?.any isStrSlot = true
  · obtain ⟨rfl, hany⟩ := hstr
    refine .inr (.inr ⟨rfl, ?_⟩)
    obtain ⟨d, hd, hslot⟩ := (Option.any_eq_true _ _).mp hany
    obtain ⟨t, rfl⟩ := List.head?_eq_some_iff.mp hd
    have hnone : (number F).length? (d :: t) = none := by
      cases hlen : (number F).length? (d :: t) with
      | none => rfl
      | some n =>
        have hpos := (number F).pos _ _ hlen
        obtain ⟨k, rfl⟩ : ∃ k, n = k + 1 := ⟨n - 1, by omega⟩
        have hall := all_take_number hlen
        rw [List.take_succ_cons, List.all_cons, isNumChar_of_isStrSlot hslot] at hall
        cases hall
    have hfront : NoFront d (numPass F nums t) := by
      constructor <;>
        · rintro rfl
          cases hslot
    exact ⟨d, t, fillAll nums strs (numPass F nums t), rfl, hslot,
      by rw [numPass_cons hnone, fillAll_cons hfront], by rw [numPass_cons hnone, fillAll_str hslot]⟩
  · -- anything else is kept
    have hfront : NoFront c (numPass F nums s) := by
      constructor
      · intro hc
        rw [← behind_iff]
        exact not_not.mp fun hbehind => hnum ⟨hc, hbehind⟩
      · intro hc
        rw [numPass_head_str]
        exact Bool.eq_false_iff.mpr fun hany => hstr ⟨hc, hany⟩
    exact .inl ⟨hnum, hstr, fillAll_cons hfront⟩

/-- **The numbers come back**: only the markers of texts are left to fill in. -/
theorem fillAll_numPass (hslots : Slots F nums strs) (u : List Char) (h : HashOk F nums u) :
    fillAll nums strs (numPass F nums u) = fillStrs strs u := by
  induction u using (number F).induction with
  | nil => rw [numPass, Lead.replace_nil, fillAll_nil, fillStrs_nil]
  | none c s hnone ih =>
    obtain ⟨hfront, hrest⟩ := hashOk_cons.mp h
    rcases fillAll_numPass_cons nums strs hnone with
      ⟨-, hstr, heq⟩ | ⟨hc, hbehind, -⟩ | ⟨rfl, d, t, w, rfl, hslot, hw, heq⟩
    · rw [heq, ih hrest, fillStrs_cons fun hc => Bool.eq_false_iff.mpr fun hany => hstr ⟨hc, hany⟩]
    · exact absurd (hfront hc) hbehind
    · have hd : d ≠ '&' := by
        rintro rfl
        cases hslot
      rw [ih hrest, fillStrs_cons fun hc => absurd hc hd] at hw
      rw [heq, fillStrs_str hslot, (List.cons.inj hw).2]
  | some s n hsome ih =>
    have hnum := not_mem_of_numeric (all_take_number hsome)
    have hrest : HashOk F nums (s.drop n) := by
      rwa [← List.take_append_drop n s, hashOk_append hnum.1] at h
    rw [fillAll_numPass_number hslots hsome, ih hrest, ← fillStrs_append hnum.2,
      List.take_append_drop]

/-! ### Counting fronts -/

/-- No slot holds a character. -/
def Free (h : Char) (slots : List (List Char)) : Prop := ∀ v ∈ slots, h ∉ v

/-- A slot whose text is free of a character adds none of it. -/
theorem count_slotText {h : Char} (hnul : h ≠ '\x00') {slots : List (List Char)}
    (hfree : Free h slots) (i : ℕ) : (slotText slots i).count h = 0 := by
  rw [List.count_eq_zero, slotText]
  cases hget : slots[i]? with
  | none =>
    rw [Option.getD_none, List.mem_singleton]
    exact hnul
  | some v =>
    rw [Option.getD_some]
    exact hfree v (List.mem_of_getElem? hget)

/-- Numbers have no fronts of placeholders. -/
theorem free_nums (hslots : Slots F nums strs) : Free '#' nums ∧ Free '&' nums :=
  ⟨fun v hv => (not_mem_of_numeric (hslots.numeric v hv).2).1,
    fun v hv => (not_mem_of_numeric (hslots.numeric v hv).2).2⟩

/-- **A marker of a number in the text loses its `#`**, and nothing makes a new one. -/
theorem count_fillAll_numPass (hslots : Slots F nums strs) (hstrs : Free '#' strs) (u : List Char) :
    (fillAll nums strs (numPass F nums u)).count '#' ≤ u.count '#' ∧
      ((fillAll nums strs (numPass F nums u)).count '#' = u.count '#' → HashOk F nums u) := by
  induction u using (number F).induction with
  | nil =>
    rw [numPass, Lead.replace_nil, fillAll_nil]
    refine ⟨le_rfl, fun _ t ht => ?_⟩
    cases List.suffix_nil.mp ht
  | none c s hnone ih =>
    rw [hashOk_cons]
    rcases fillAll_numPass_cons nums strs hnone with
      ⟨hnum, -, heq⟩ | ⟨rfl, -, d, w, hslot, hw, heq⟩ | ⟨rfl, d, t, w, rfl, hslot, hw, heq⟩
    · rw [heq, List.count_cons, List.count_cons]
      refine ⟨Nat.add_le_add_right ih.1 _, fun h => ⟨fun hc => ?_, ih.2 (Nat.add_right_cancel h)⟩⟩
      exact not_not.mp fun hbehind => hnum ⟨hc, hbehind⟩
    · have hd : d ≠ '#' := by
        rintro rfl
        cases hslot
      rw [hw, List.count_cons_of_ne hd] at ih
      rw [heq, List.count_append, count_slotText (by decide) (free_nums hslots).1,
        List.count_cons_self]
      refine ⟨by omega, fun h => ?_⟩
      omega
    · have hd : d ≠ '#' := by
        rintro rfl
        cases hslot
      rw [hw, List.count_cons_of_ne hd] at ih
      rw [heq, List.count_append, count_slotText (by decide) hstrs,
        List.count_cons_of_ne (by decide : ('&' : Char) ≠ '#')]
      refine ⟨by omega, fun h => ⟨(fun hc => by cases hc), ih.2 (by omega)⟩⟩
  | some s n hsome ih =>
    have hnum := not_mem_of_numeric (all_take_number hsome)
    have hcount : s.count '#' = (s.drop n).count '#' := by
      rw [← List.take_append_drop n s, List.count_append, List.count_eq_zero.mpr hnum.1,
        List.take_append_drop, Nat.zero_add]
    rw [fillAll_numPass_number hslots hsome, List.count_append, List.count_eq_zero.mpr hnum.1,
      Nat.zero_add, hcount]
    refine ⟨ih.1, fun h => ?_⟩
    rw [← List.take_append_drop n s, hashOk_append hnum.1]
    exact ih.2 h

/-! ## The pass over the texts -/

/-- `_STR_RE.sub` of `delex_py`. -/
def strPass (F : Flavor) (strs : List (List Char)) (t : List Char) : List Char :=
  (quoted F).replace (strSubPy strs) t

/-- What stands outside of the texts with a slot: these are emptied. -/
def outside (F : Flavor) (strs : List (List Char)) (t : List Char) : List Char :=
  (quoted F).replace (markSub content (fun text _ => text.take 1 ++ text.take 1) strs) t

/-- An `&` and one of the four letters stand only for a slot that holds them. -/
def AmpOk (strs : List (List Char)) (s : List Char) : Prop :=
  ∀ d t, '&' :: d :: t <:+ s → isStrSlot d = true → strs[d.toNat - 97]? = some ['&', d]

/-- Only what stands behind an `&` is asked about. -/
theorem ampOk_cons {c : Char} {s : List Char} :
    AmpOk strs (c :: s) ↔
      (c = '&' → ∀ d, s.head? = some d → isStrSlot d = true →
        strs[d.toNat - 97]? = some ['&', d]) ∧ AmpOk strs s := by
  constructor
  · intro h
    refine ⟨?_, fun d t ht => h d t (ht.trans (List.suffix_cons c s))⟩
    rintro rfl d hd
    obtain ⟨t, rfl⟩ := List.head?_eq_some_iff.mp hd
    exact h d t List.suffix_rfl
  · rintro ⟨hfront, hrest⟩ d t ht
    rcases List.suffix_cons_iff.mp ht with heq | hsuffix
    · obtain ⟨rfl, rfl⟩ := List.cons.inj heq
      exact hfront rfl d rfl
    · exact hrest d t hsuffix

/-! ### One quoted text -/

/-- A quoted text: a quote, what is in it, and the quote. -/
theorem quoted_spec {s : List Char} {n : ℕ} (h : (quoted F).length? s = some n) :
    ∃ q body rest, s = q :: (body ++ q :: rest) ∧ isQuote q = true ∧
      s.take n = q :: (body ++ [q]) ∧ s.drop n = rest ∧ content (s.take n) = body := by
  have huntil : ∀ (s : List Char) (q : Char) (k : ℕ), untilQuote F q s = some k →
      ∃ body rest, s = body ++ q :: rest ∧ body.length = k := by
    intro s q
    induction s with
    | nil =>
      intro k h
      cases h
    | cons c s ih =>
      intro k h
      rw [untilQuote] at h
      split_ifs at h with hc
      · exact ⟨[], s, by rw [hc]; rfl, Option.some_inj.mp h⟩
      · obtain ⟨j, hj, rfl⟩ := Option.map_eq_some_iff.mp h
        obtain ⟨body, rest, rfl, rfl⟩ := ih j hj
        exact ⟨c :: body, rest, rfl, rfl⟩
  cases s with
  | nil => cases h
  | cons q s =>
    change (if isQuote q then (untilQuote F q s).map (· + 2) else none) = some n at h
    split_ifs at h with hq
    obtain ⟨k, hk, rfl⟩ := Option.map_eq_some_iff.mp h
    obtain ⟨body, rest, rfl, rfl⟩ := huntil s q k hk
    have hcut : q :: (body ++ q :: rest) = (q :: (body ++ [q])) ++ rest := by
      rw [List.cons_append, List.append_assoc]
      rfl
    have hlen : body.length + 2 = (q :: (body ++ [q])).length := by
      rw [List.length_cons, List.length_append, List.length_singleton]
    refine ⟨q, body, rest, rfl, hq, ?_, ?_, ?_⟩
    · rw [hcut, hlen, List.take_left]
    · rw [hcut, hlen, List.drop_left]
    · rw [hcut, hlen, List.take_left, content, List.drop_succ_cons, List.drop_zero,
        List.dropLast_concat]

/-- A character that begins no string is kept, and is outside of strings. -/
theorem strPass_cons {c : Char} {s : List Char} (h : (quoted F).length? (c :: s) = none) :
    strPass F strs (c :: s) = [c] ++ strPass F strs s ∧
      outside F strs (c :: s) = [c] ++ outside F strs s :=
  ⟨Lead.replace_of_none h, Lead.replace_of_none h⟩

/-- A quoted text with a slot, and one without. -/
theorem strPass_quoted (strs : List (List Char)) {s : List Char} {n : ℕ}
    (h : (quoted F).length? s = some n) :
    ∃ q body, isQuote q = true ∧ s.take n = q :: (body ++ [q]) ∧
      (body ∈ strs ∧
        strPass F strs s = q :: (strPh (strs.idxOf body) ++ q :: strPass F strs (s.drop n)) ∧
        outside F strs s = q :: q :: outside F strs (s.drop n) ∨
      body ∉ strs ∧
        strPass F strs s = s.take n ++ strPass F strs (s.drop n) ∧
        outside F strs s = s.take n ++ outside F strs (s.drop n)) := by
  obtain ⟨q, body, rest, -, hq, htake, -, hcontent⟩ := quoted_spec h
  refine ⟨q, body, hq, htake, ?_⟩
  have hpass : strPass F strs s = strSubPy strs (s.take n) ++ strPass F strs (s.drop n) :=
    Lead.replace_of_some h
  have hout : outside F strs s = markSub content (fun text _ => text.take 1 ++ text.take 1) strs
      (s.take n) ++ outside F strs (s.drop n) := Lead.replace_of_some h
  rw [hpass, hout, strSubPy, markSub, markSub, hcontent]
  by_cases hslot : body ∈ strs
  · rw [if_pos hslot, if_pos hslot, htake]
    exact .inl ⟨hslot, rfl, rfl⟩
  · rw [if_neg hslot, if_neg hslot]
    exact .inr ⟨hslot, rfl, rfl⟩

/-- The pass keeps the first character: the quote stays in front of a placeholder. -/
theorem strPass_head (t : List Char) : (strPass F strs t).head? = (outside F strs t).head? := by
  cases hlen : (quoted F).length? t with
  | none =>
    cases t with
    | nil => rw [strPass, outside, Lead.replace_nil, Lead.replace_nil]
    | cons c s =>
      rw [(strPass_cons hlen).1, (strPass_cons hlen).2]
      rfl
  | some n =>
    obtain ⟨q, body, -, htake, ⟨-, hpass, hout⟩ | ⟨-, hpass, hout⟩⟩ := strPass_quoted strs hlen
    · rw [hpass, hout]
      rfl
    · rw [hpass, hout, htake]
      rfl

/-! ### Filling the texts back -/

/-- What filling in does to a character in front. -/
theorem fillStrs_front (strs : List (List Char)) (c : Char) (y : List Char) :
    ((c = '&' → y.head?.any isStrSlot = false) ∧ fillStrs strs (c :: y) = c :: fillStrs strs y) ∨
      ∃ d w, c = '&' ∧ y.head? = some d ∧ isStrSlot d = true ∧ fillStrs strs y = d :: w ∧
        fillStrs strs (c :: y) = slotText strs (d.toNat - 97) ++ w := by
  by_cases hfront : c = '&' → y.head?.any isStrSlot = false
  · exact .inl ⟨hfront, fillStrs_cons hfront⟩
  · obtain ⟨rfl, hany⟩ := Classical.not_imp.mp hfront
    obtain ⟨d, hd, hslot⟩ := (Option.any_eq_true _ _).mp (Bool.not_eq_false _ ▸ hany)
    obtain ⟨t, rfl⟩ := List.head?_eq_some_iff.mp hd
    have hne : d ≠ '&' := by
      rintro rfl
      cases hslot
    exact .inr ⟨d, fillStrs strs t, rfl, rfl, hslot, fillStrs_cons fun h => absurd h hne,
      fillStrs_str hslot t⟩

/-- Markers that stand for themselves are kept. -/
theorem fillStrs_append_of_ampOk {x y z : List Char} (hhead : z.head? = y.head?)
    (h : AmpOk strs (x ++ z)) : fillStrs strs (x ++ y) = x ++ fillStrs strs y := by
  induction x with
  | nil => rfl
  | cons c x ih =>
    obtain ⟨hfront, hrest⟩ := ampOk_cons.mp h
    have hsame : (x ++ z).head? = (x ++ y).head? := by rw [List.head?_append, List.head?_append, hhead]
    rw [List.cons_append, List.cons_append, ← ih hrest]
    rcases fillStrs_front strs c (x ++ y) with ⟨-, heq⟩ | ⟨d, w, hc, hd, hslot, hw, heq⟩
    · exact heq
    · rw [heq, hw, slotText, hfront hc d (hsame.trans hd) hslot, Option.getD_some, hc]
      rfl

/-- **The texts come back**, and what stands outside of them stays. -/
theorem fillStrs_strPass (hslots : Slots F nums strs) (t : List Char)
    (h : AmpOk strs (outside F strs t)) : fillStrs strs (strPass F strs t) = t := by
  induction t using (quoted F).induction with
  | nil => rw [strPass, Lead.replace_nil, fillStrs_nil]
  | none c s hnone ih =>
    rw [(strPass_cons hnone).2] at h
    rw [(strPass_cons hnone).1, fillStrs_append_of_ampOk (strPass_head s).symm h,
      ih (ampOk_cons.mp h).2]
    rfl
  | some s n hsome ih =>
    obtain ⟨q, body, hq, htake, ⟨hslot, hpass, hout⟩ | ⟨-, hpass, hout⟩⟩ :=
      strPass_quoted strs hsome
    · have hquote : q ≠ '&' := by
        rintro rfl
        cases hq
      have hlt : strs.idxOf body < strSlots :=
        (List.idxOf_lt_length_iff.mpr hslot).trans_le hslots.strs_le
      obtain ⟨hletter, hcode⟩ := isStrSlot_ofNat hlt
      rw [hout] at h
      rw [hpass, fillStrs_cons fun h => absurd h hquote, strPh, List.cons_append, List.cons_append,
        List.nil_append, fillStrs_str hletter, hcode, Nat.add_sub_cancel_left, slotText_idxOf hslot,
        fillStrs_cons fun h => absurd h hquote, ih (ampOk_cons.mp (ampOk_cons.mp h).2).2]
      refine Eq.trans ?_ (List.take_append_drop n s)
      rw [htake, List.cons_append, List.append_assoc]
      rfl
    · rw [hout] at h
      have hrest : ∀ x : List Char, AmpOk strs (x ++ outside F strs (s.drop n)) →
          AmpOk strs (outside F strs (s.drop n)) := fun x hx d u hu =>
        hx d u (hu.trans (List.suffix_append x _))
      rw [hpass, fillStrs_append_of_ampOk (strPass_head _).symm h, ih (hrest _ h),
        List.take_append_drop]

/-! ### Counting, again -/

/-- A cut text has the characters of both parts. -/
theorem count_cut (h : Char) (s : List Char) (n : ℕ) :
    s.count h = (s.take n).count h + (s.drop n).count h := by
  rw [← List.count_append, List.take_append_drop]

/-- Quotes of another kind add none of a character. -/
theorem count_quoted {h q : Char} (hq : q ≠ h) (body : List Char) :
    (q :: (body ++ [q])).count h = body.count h := by
  rw [List.count_cons_of_ne hq, List.count_append, List.count_cons_of_ne hq, List.count_nil,
    Nat.add_zero]

/-- **A marker of a text loses its `&`**, and nothing makes a new one. -/
theorem count_fillStrs_append (hstrs : Free '&' strs) (x y : List Char) :
    (fillStrs strs (x ++ y)).count '&' ≤ x.count '&' + (fillStrs strs y).count '&' ∧
      ((fillStrs strs (x ++ y)).count '&' = x.count '&' + (fillStrs strs y).count '&' →
        ∀ z, z.head? = y.head? → AmpOk strs z → AmpOk strs (x ++ z)) := by
  induction x with
  | nil =>
    rw [List.nil_append, List.count_nil, Nat.zero_add]
    exact ⟨le_rfl, fun _ z _ hz => hz⟩
  | cons c x ih =>
    rw [List.cons_append]
    rcases fillStrs_front strs c (x ++ y) with ⟨hfront, heq⟩ | ⟨d, w, rfl, hd, hslot, hw, heq⟩
    · rw [heq, List.count_cons, List.count_cons]
      refine ⟨by omega, fun h z hz hamp => ?_⟩
      rw [List.cons_append, ampOk_cons]
      refine ⟨fun hc d hd hslot => ?_, ih.2 (by omega) z hz hamp⟩
      -- no letter stands behind the `&`
      have hsame : (x ++ y).head? = some d := by
        rw [List.head?_append, ← hz, ← List.head?_append, hd]
      have hnone := hfront hc
      rw [hsame, Option.any_some, hslot] at hnone
      cases hnone
    · have hne : d ≠ '&' := by
        rintro rfl
        cases hslot
      rw [hw, List.count_cons_of_ne hne] at ih
      rw [heq, List.count_append, count_slotText (by decide) hstrs, List.count_cons_self]
      exact ⟨by omega, fun h => by omega⟩

/-- **Filling back never adds an `&`, and keeps all of them only where each was harmless.**
Counting is what decides the round trip. -/
theorem count_fillStrs_strPass (hslots : Slots F nums strs) (hstrs : Free '&' strs) (t : List Char) :
    (fillStrs strs (strPass F strs t)).count '&' ≤ t.count '&' ∧
      ((fillStrs strs (strPass F strs t)).count '&' = t.count '&' →
        AmpOk strs (outside F strs t)) := by
  -- text that is kept adds what it has, and no more
  have hplain : ∀ {x s : List Char}, ((fillStrs strs (strPass F strs s)).count '&' ≤ s.count '&' ∧
      ((fillStrs strs (strPass F strs s)).count '&' = s.count '&' → AmpOk strs (outside F strs s))) →
      (fillStrs strs (x ++ strPass F strs s)).count '&' ≤ (x ++ s).count '&' ∧
      ((fillStrs strs (x ++ strPass F strs s)).count '&' = (x ++ s).count '&' →
        AmpOk strs (x ++ outside F strs s)) := by
    intro x s ih
    obtain ⟨hle, hamp⟩ := count_fillStrs_append hstrs x (strPass F strs s)
    rw [List.count_append]
    refine ⟨by omega, fun h => ?_⟩
    exact hamp (by omega) _ (strPass_head s).symm (ih.2 (by omega))
  induction t using (quoted F).induction with
  | nil =>
    rw [strPass, outside, Lead.replace_nil, Lead.replace_nil, fillStrs_nil]
    refine ⟨le_rfl, fun _ d u hu => ?_⟩
    cases List.suffix_nil.mp hu
  | none c s hnone ih =>
    rw [(strPass_cons hnone).1, (strPass_cons hnone).2]
    exact hplain ih
  | some s n hsome ih =>
    obtain ⟨q, body, hq, htake, ⟨hslot, hpass, hout⟩ | ⟨-, hpass, hout⟩⟩ :=
      strPass_quoted strs hsome
    · have hquote : q ≠ '&' := by
        rintro rfl
        cases hq
      have hlt : strs.idxOf body < strSlots :=
        (List.idxOf_lt_length_iff.mpr hslot).trans_le hslots.strs_le
      obtain ⟨hletter, hcode⟩ := isStrSlot_ofNat hlt
      have hbody : body.count '&' = 0 := List.count_eq_zero.mpr (hstrs body hslot)
      have hcount : s.count '&' = (s.drop n).count '&' := by
        rw [count_cut '&' s n, htake, count_quoted hquote, hbody, Nat.zero_add]
      rw [hcount, hpass, hout, fillStrs_cons fun h => absurd h hquote, strPh, List.cons_append,
        List.cons_append, List.nil_append, fillStrs_str hletter, hcode, Nat.add_sub_cancel_left,
        slotText_idxOf hslot, fillStrs_cons fun h => absurd h hquote, List.count_cons_of_ne hquote,
        List.count_append, hbody, List.count_cons_of_ne hquote, Nat.zero_add]
      refine ⟨ih.1, fun h => ?_⟩
      rw [ampOk_cons, ampOk_cons]
      exact ⟨fun h => absurd h hquote, fun h => absurd h hquote, ih.2 h⟩
    · rw [hpass, hout]
      have h := hplain (x := s.take n) ih
      rwa [List.take_append_drop] at h

/-- The two passes over texts keep every `#`, if no slot has one. -/
theorem count_strPass (hslots : Slots F nums strs) (hstrs : Free '#' strs) (t : List Char) :
    (strPass F strs t).count '#' = t.count '#' := by
  induction t using (quoted F).induction with
  | nil => rw [strPass, Lead.replace_nil]
  | none c s hnone ih =>
    rw [(strPass_cons hnone).1, List.singleton_append, List.count_cons, List.count_cons, ih]
  | some s n hsome ih =>
    rw [count_cut '#' s n, ← ih]
    obtain ⟨q, body, hq, htake, ⟨hslot, hpass, -⟩ | ⟨-, hpass, -⟩⟩ :=
      strPass_quoted strs hsome
    · have hquote : q ≠ '#' := by
        rintro rfl
        cases hq
      have hlt : strs.idxOf body < strSlots :=
        (List.idxOf_lt_length_iff.mpr hslot).trans_le hslots.strs_le
      have hletter : Char.ofNat (97 + strs.idxOf body) ≠ '#' := fun heq => by
        have hslot := (isStrSlot_ofNat hlt).1
        rw [heq] at hslot
        cases hslot
      rw [hpass, htake, count_quoted hquote, List.count_eq_zero.mpr (hstrs body hslot), Nat.zero_add,
        List.count_cons_of_ne hquote, List.count_append, List.count_cons_of_ne hquote, strPh,
        List.count_cons_of_ne (by decide : ('&' : Char) ≠ '#'), List.count_cons_of_ne hletter,
        List.count_nil, Nat.zero_add]
    · rw [hpass, List.count_append]

/-! ## Numbers in front of a quote -/

/-- A run of digits ends where the next text begins with none. -/
theorem digits_append {w z : List Char} (hz : z.head?.any F.digit = false) :
    digits F (w ++ z) = digits F w := by
  unfold digits
  induction w with
  | nil =>
    cases z with
    | nil => rfl
    | cons c z =>
      have hc : F.digit c = false := hz
      rw [List.nil_append, List.takeWhile_cons, hc]
      rfl
  | cons c w ih =>
    rw [List.cons_append, List.takeWhile_cons, List.takeWhile_cons]
    split
    · rw [List.length_cons, List.length_cons, ih]
    · rfl

/-- A number does not see what stands behind a character of no number. -/
theorem numberLength_append {w z : List Char} (hz : z.head?.any (isNumChar F) = false) :
    numberLength F (w ++ z) = numberLength F w := by
  have hparts : z.head?.any F.digit = false ∧ z.head? ≠ some '-' ∧ z.head? ≠ some '.' := by
    cases hhead : z.head? with
    | none => exact ⟨rfl, (fun h => by cases h), (fun h => by cases h)⟩
    | some c =>
      rw [hhead, Option.any_some, isNumChar, Bool.or_eq_false_iff, Bool.or_eq_false_iff] at hz
      refine ⟨hz.1.1, fun heq => ?_, fun heq => ?_⟩
      · exact absurd (Option.some_inj.mp heq) (of_decide_eq_false hz.1.2)
      · exact absurd (Option.some_inj.mp heq) (of_decide_eq_false hz.2)
  obtain ⟨hdigit, hminus, hdot⟩ := hparts
  have hhead : ∀ (x : List Char) (c : Char), z.head? ≠ some c →
      ((x ++ z).head? = some c ↔ x.head? = some c) := by
    intro x c hc
    cases x with
    | nil => exact iff_of_false hc fun h => by cases h
    | cons d x => rfl
  -- the sign, the digits and the fraction are each read before `z`
  have hsign : sign (w ++ z) = sign w := by
    unfold sign
    exact if_congr (hhead w '-' hminus) rfl rfl
  have hsign_le : sign w ≤ w.length := by
    unfold sign
    split_ifs with h
    · obtain ⟨t, rfl⟩ := List.head?_eq_some_iff.mp h
      exact Nat.succ_pos _
    · exact Nat.zero_le _
  have hdigits : digits F ((w ++ z).drop (sign w)) = digits F (w.drop (sign w)) := by
    rw [List.drop_append_of_le_length hsign_le, digits_append hdigit]
  have hwhole : wholeLength F (w ++ z) = wholeLength F w := by
    rw [wholeLength, wholeLength, hsign, hdigits]
  have hwhole_le : wholeLength F w ≤ w.length := by
    have hle := digits_le F (w.drop (sign w))
    rw [List.length_drop] at hle
    rw [wholeLength]
    omega
  have hfraction : ∀ x : List Char, fraction F (x ++ z) = fraction F x := by
    intro x
    unfold fraction
    cases x with
    | nil =>
      rw [List.nil_append, if_neg fun h => hdot h.1, if_neg fun h => by cases h.1]
    | cons c x =>
      rw [List.cons_append, List.drop_succ_cons, List.drop_zero, digits_append hdigit]
      rfl
  rw [numberLength, numberLength, hsign, hdigits, hwhole, List.drop_append_of_le_length hwhole_le,
    hfraction]

/-- What stands behind a `#` is decided before the next text, if that begins with no digit. -/
theorem behind_append {w z : List Char} (hz : z.head?.any (isNumChar F) = false) :
    Behind F nums (w ++ z) ↔ Behind F nums w := by
  have hlength : (number F).length? (w ++ z) = (number F).length? w := numberLength_append hz
  unfold Behind
  rw [hlength]
  refine forall₂_congr fun n hn => ?_
  have hle := (number F).le_length w n hn
  have hpos := (number F).pos w n hn
  have hhead : (w ++ z).head? = w.head? := by
    cases w with
    | nil =>
      rw [List.length_nil] at hle
      omega
    | cons c w => rfl
  rw [List.take_append_of_le_length hle, hhead]

/-- So a text may be cut where no number goes on. -/
theorem hashOk_append_iff {w z : List Char} (hz : z.head?.any (isNumChar F) = false) :
    HashOk F nums (w ++ z) ↔ HashOk F nums w ∧ HashOk F nums z := by
  induction w with
  | nil =>
    refine (and_iff_right fun t ht => ?_).symm
    cases List.suffix_nil.mp ht
  | cons c w ih => rw [List.cons_append, hashOk_cons, hashOk_cons, behind_append hz, ih, and_assoc]

/-- Emptied or marked, the texts hide the same. -/
theorem hashOk_strPass (hslots : Slots F nums strs) (t : List Char) : ∀ x : List Char,
    HashOk F nums (x ++ strPass F strs t) ↔ HashOk F nums (x ++ outside F strs t) := by
  induction t using (quoted F).induction with
  | nil =>
    intro x
    rw [strPass, outside, Lead.replace_nil, Lead.replace_nil]
  | none c s hnone ih =>
    intro x
    rw [(strPass_cons hnone).1, (strPass_cons hnone).2, ← List.append_assoc, ← List.append_assoc, ih]
  | some s n hsome ih =>
    intro x
    obtain ⟨q, body, hq, -, ⟨hslot, hpass, hout⟩ | ⟨-, hpass, hout⟩⟩ :=
      strPass_quoted strs hsome
    · have hquote : q = '\'' ∨ q = '"' := by
        rwa [isQuote, Bool.or_eq_true, decide_eq_true_eq, decide_eq_true_eq] at hq
      have hnum : isNumChar F q = false := by
        rcases hquote with rfl | rfl
        · exact isNumChar_eq_false (by decide) (by decide)
        · exact isNumChar_eq_false (by decide) (by decide)
      have hhash : q ≠ '#' := by
        rintro rfl
        cases hq
      have hlt : strs.idxOf body < strSlots :=
        (List.idxOf_lt_length_iff.mpr hslot).trans_le hslots.strs_le
      -- a text and its mark have no `#`
      have hmark : '#' ∉ q :: (strPh (strs.idxOf body) ++ [q]) := by
        have hletter := (isStrSlot_ofNat hlt).1
        rw [strPh]
        simp only [List.cons_append, List.nil_append, List.mem_cons, List.not_mem_nil, or_false,
          not_or]
        refine ⟨hhash.symm, by decide, fun heq => ?_, hhash.symm⟩
        rw [← heq] at hletter
        cases hletter
      have hfront : ∀ y : List Char, (q :: y).head?.any (isNumChar F) = false := fun y => hnum
      have hbehind : q :: (strPh (strs.idxOf body) ++ q :: strPass F strs (s.drop n)) =
          q :: (strPh (strs.idxOf body) ++ [q]) ++ strPass F strs (s.drop n) := by
        rw [List.cons_append, List.append_assoc]
        rfl
      have hempty : q :: q :: outside F strs (s.drop n) = [q, q] ++ outside F strs (s.drop n) := rfl
      rw [hpass, hout, hashOk_append_iff (hfront _), hashOk_append_iff (hfront _), hbehind,
        hashOk_append hmark, hempty, hashOk_append (by
          simp only [List.mem_cons, List.not_mem_nil, or_false, or_self]
          exact hhash.symm)]
      exact and_congr_right fun _ => ih []
    · rw [hpass, hout, ← List.append_assoc, ← List.append_assoc, ih]

/-! ## The round trips -/

/-- A text without NUL has nothing to drop. -/
theorem dropUnfilled_eq_self {s : List Char} (h : '\x00' ∉ s) : dropUnfilled F s = s := by
  have hcomma : ∀ t, t <:+ s → (commaNul F).length? t = none := by
    intro t ht
    cases hlen : (commaNul F).length? t with
    | none => rfl
    | some n =>
      obtain ⟨k, -, hk⟩ := Option.bind_eq_some_iff.mp hlen
      split_ifs at hk with hnul
      exact absurd (ht.subset (List.mem_of_mem_drop (List.mem_of_head? hnul))) h
  have hnul : ∀ t, t <:+ s → (nulComma F).length? t = none := by
    intro t ht
    apply if_neg
    exact fun hhead => h (ht.subset (List.mem_of_head? hhead))
  rw [dropUnfilled, Lead.replace_eq_self hcomma, Lead.replace_eq_self hnul, List.filter_eq_self]
  exact fun c hc => decide_eq_true fun heq => h (heq ▸ hc)

/-- Dropping the unfilled placeholders only takes characters away. -/
theorem dropUnfilled_sublist (s : List Char) : (dropUnfilled F s).Sublist s :=
  List.filter_sublist.trans ((Lead.replace_nil_sublist _).trans (Lead.replace_nil_sublist s))

/-- No text of its own reads as a marker of another one: outside of the texts with a slot
there is no `&` with one of the four letters, unless its slot holds just these two, and a
number behind a `#` has a slot, or its first digit is no slot. -/
structure Plain (F : Flavor) (nums strs : List (List Char)) (t : List Char) : Prop where
  num : HashOk F nums (outside F strs t)
  str : AmpOk strs (outside F strs t)

/-- **What was taken out comes back.** -/
theorem relex_delexPy (hslots : Slots F nums strs) {t : List Char} (hnul : '\x00' ∉ t)
    (h : Plain F nums strs t) : relex F (delexPy F t nums strs) nums strs = t := by
  have hhash : HashOk F nums (strPass F strs t) := (hashOk_strPass hslots t []).mpr h.num
  have hfill : fillAll nums strs (delexPy F t nums strs) = t :=
    (fillAll_numPass hslots _ hhash).trans (fillStrs_strPass hslots t h.str)
  rw [relex, hfill, dropUnfilled_eq_self hnul]

/-- **It comes back only so**, if no slot holds a `#` or an `&`. -/
theorem plain_of_relex (hslots : Slots F nums strs) (hhash : Free '#' strs) (hamp : Free '&' strs)
    {t : List Char} (h : relex F (delexPy F t nums strs) nums strs = t) : Plain F nums strs t := by
  have hdrop : ∀ c, t.count c ≤ (fillAll nums strs (delexPy F t nums strs)).count c := by
    intro c
    have hle := (dropUnfilled_sublist (F := F) (fillAll nums strs (delexPy F t nums strs))).count_le c
    rwa [show dropUnfilled F (fillAll nums strs (delexPy F t nums strs)) = t from h] at hle
  have hnum : HashOk F nums (strPass F strs t) := by
    obtain ⟨hle, hok⟩ := count_fillAll_numPass hslots hhash (strPass F strs t)
    apply hok
    rw [count_strPass hslots hhash] at hle ⊢
    exact le_antisymm hle (hdrop '#')
  refine ⟨(hashOk_strPass hslots t []).mp hnum, ?_⟩
  obtain ⟨hle, hok⟩ := count_fillStrs_strPass hslots hamp t
  apply hok
  have hfill := hdrop '&'
  rw [show fillAll nums strs (delexPy F t nums strs) = fillStrs strs (strPass F strs t) from
    fillAll_numPass hslots _ hnum] at hfill
  exact le_antisymm hle hfill

/-- The slots of a request are slots. -/
theorem slots_delexEn (F : Flavor) (en : List Char) :
    Slots F (delexEn F en).nums (delexEn F en).strs :=
  ⟨(delexEn_slots F en).1, (delexEn_slots F en).2.1, (delexEn_slots F en).2.2⟩

/-- A text without NUL. -/
abbrev Text := { t : List Char // '\x00' ∉ t }

/-- Both round trips of a request and a program. -/
def RoundTrips (F : Flavor) (en py : List Char) : Prop :=
  relex F (delexEn F en).prompt (delexEn F en).nums (delexEn F en).strs = en ∧
    relex F (delexPy F py (delexEn F en).nums (delexEn F en).strs) (delexEn F en).nums
      (delexEn F en).strs = py

/-- **When delexicalization is undone**: for every request and program in which nothing of
their own reads as a marker, and, when no slot holds a `#` or an `&`, for no others. -/
theorem roundTrips_iff (F : Flavor) (en py : Text) :
    (Plain F (delexEn F en.1).nums (delexEn F en.1).strs en.1 ∧
        Plain F (delexEn F en.1).nums (delexEn F en.1).strs py.1 → RoundTrips F en.1 py.1) ∧
      (Free '#' (delexEn F en.1).strs ∧ Free '&' (delexEn F en.1).strs →
        (RoundTrips F en.1 py.1 ↔
          Plain F (delexEn F en.1).nums (delexEn F en.1).strs en.1 ∧
            Plain F (delexEn F en.1).nums (delexEn F en.1).strs py.1)) := by
  have hslots := slots_delexEn F en.1
  have hforward : Plain F (delexEn F en.1).nums (delexEn F en.1).strs en.1 ∧
      Plain F (delexEn F en.1).nums (delexEn F en.1).strs py.1 → RoundTrips F en.1 py.1 := by
    rintro ⟨hen, hpy⟩
    refine ⟨?_, relex_delexPy hslots py.2 hpy⟩
    rw [delexEn_eq]
    exact relex_delexPy hslots en.2 hen
  refine ⟨hforward, fun hfree => ⟨?_, hforward⟩⟩
  rintro ⟨hen, hpy⟩
  rw [delexEn_eq] at hen
  exact ⟨plain_of_relex hslots hfree.1 hfree.2 hen, plain_of_relex hslots hfree.1 hfree.2 hpy⟩

/-- **A marker that was in the request is lost**: it has no slot, and is dropped. -/
theorem relex_drops : ¬ ∀ en py : Text, RoundTrips python en.1 py.1 := by
  intro h
  have hlost := (h ⟨"&a".toList, by decide⟩ ⟨[], List.not_mem_nil⟩).1
  revert hlost
  decide

end Delex
