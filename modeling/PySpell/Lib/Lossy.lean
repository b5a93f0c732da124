/-
# Lossy decoding in parts

Lossy decoding reads a byte string unit by unit: a character, or an ill-formed piece that
becomes one replacement character.  Both are a lead byte and the bytes behind it that it
admits, so one length describes them (`unitLength`).

Bytes that are decoded in two parts give the text of the whole exactly when no character is
split between the parts (`lossy_append`, `length_lossy_append_lt`): a split character is one
unit of the whole, and more than one of the parts.  The same holds of any number of parts
(`lossy_flatten_iff`).
-/
import Mathlib.Data.List.TakeWhile
import PySpell.Lib.Text

namespace Text

/-! ## Units -/

/-- How many bytes a lead byte admits behind it: `n` at most, the first within its range. -/
def contLength : ℕ → ℕ → ℕ → List UInt8 → ℕ
  | 0, _, _, _ => 0
  | _ + 1, _, _, [] => 0
  | n + 1, lo, hi, b :: t =>
    if lo ≤ b.toNat ∧ b.toNat ≤ hi then 1 + contLength n 0x80 0xbf t else 0

/-- The length of the first unit. -/
def unitLength : List UInt8 → ℕ
  | [] => 0
  | a :: t =>
    match leadByte a.toNat with
    | none => 1
    | some (n, lo, hi) => 1 + contLength n lo hi t

/-- The character that the first unit becomes. -/
def unitChar (bs : List UInt8) : Char := ((decodeChar bs).map Prod.fst).getD (Char.ofNat 0xfffd)

theorem contLength_le (n lo hi : ℕ) (t : List UInt8) :
    contLength n lo hi t ≤ n ∧ contLength n lo hi t ≤ t.length := by
  induction t generalizing n lo hi with
  | nil => cases n <;> simp [contLength]
  | cons b t ih =>
    cases n with
    | zero => simp [contLength]
    | succ n =>
      obtain ⟨hn, ht⟩ := ih n 0x80 0xbf
      rw [contLength, List.length_cons]
      split_ifs <;> omega

/-- The bytes that are admitted are continuation bytes. -/
theorem isCont_of_contLength {n lo hi : ℕ} {t : List UInt8} (hlo : 0x80 ≤ lo) (hhi : hi ≤ 0xbf) :
    ∀ b ∈ t.take (contLength n lo hi t), isCont b = true := by
  induction t generalizing n lo hi with
  | nil => simp
  | cons b t ih =>
    cases n with
    | zero => simp [contLength]
    | succ n =>
      rw [contLength]
      split_ifs with hb
      · intro c hc
        rw [Nat.add_comm, List.take_succ_cons, List.mem_cons] at hc
        rcases hc with rfl | hc
        · exact isCont_iff.mpr ⟨by omega, by omega⟩
        · exact ih le_rfl le_rfl c hc
      · simp

/-- What a lead byte admits: continuation bytes, three at most. -/
theorem leadByte_range {a n lo hi : ℕ} (h : leadByte a = some (n, lo, hi)) :
    0x80 ≤ lo ∧ hi ≤ 0xbf ∧ (n = 0 ∧ a < 0x80 ∨ 0 < n ∧ 0xc2 ≤ a) := by
  unfold leadByte at h
  split_ifs at h <;> simp only [Option.some.injEq, Prod.mk.injEq] at h <;> omega

/-- Behind the first byte, the continuation bytes are admitted. -/
theorem contLength_eq_takeWhile (n : ℕ) (t : List UInt8) :
    contLength n 0x80 0xbf t = ((t.take n).takeWhile isCont).length := by
  induction t generalizing n with
  | nil => cases n <;> rfl
  | cons b t ih =>
    cases n with
    | zero => rfl
    | succ n =>
      rw [contLength, List.take_succ_cons, List.takeWhile_cons]
      by_cases hb : isCont b = true
      · rw [if_pos (isCont_iff.mp hb), if_pos hb, ih, List.length_cons, Nat.add_comm]
      · rw [if_neg fun h => hb (isCont_iff.mpr h), if_neg hb]
        rfl

/-- A list that passes a test whole. -/
theorem length_takeWhile_eq_iff {α : Type} (p : α → Bool) (l : List α) :
    (l.takeWhile p).length = l.length ↔ l.all p = true := by
  constructor
  · intro h
    have heq := (List.takeWhile_prefix p (l := l)).eq_of_length h
    rw [← heq]
    exact List.all_takeWhile
  · intro h
    rw [List.takeWhile_eq_self_iff.mpr fun x hx => List.all_eq_true.mp h x hx]

/-- A character is there exactly when the lead byte has all the bytes that it announces. -/
theorem contLength_eq_iff {n lo hi : ℕ} {t : List UInt8} (hlo : 0x80 ≤ lo) (hhi : hi ≤ 0xbf) :
    contLength n lo hi t = n ↔ (t.take n).length = n ∧ (t.take n).all isCont = true ∧
      ((t.take n).map UInt8.toNat).head?.all (fun b => lo ≤ b && b ≤ hi) = true := by
  cases n with
  | zero => simp [contLength]
  | succ n =>
    cases t with
    | nil => simp [contLength]
    | cons b t =>
      have htail : ((t.take n).takeWhile isCont).length = n ↔
          (t.take n).length = n ∧ (t.take n).all isCont = true := by
        have hle : ((t.take n).takeWhile isCont).length ≤ (t.take n).length :=
          (List.takeWhile_prefix _).length_le
        have hn : (t.take n).length ≤ n := List.length_take_le _ _
        rw [← length_takeWhile_eq_iff]
        omega
      rw [contLength, contLength_eq_takeWhile, List.take_succ_cons, List.length_cons,
        List.all_cons, List.map_cons, List.head?_cons, Option.all_some, Bool.and_eq_true,
        Bool.and_eq_true, decide_eq_true_eq, decide_eq_true_eq]
      constructor
      · intro h
        split_ifs at h with hb
        · obtain ⟨hlen, hall⟩ := htail.mp (by omega)
          exact ⟨by omega, ⟨isCont_iff.mpr ⟨by omega, by omega⟩, hall⟩, hb⟩
      · rintro ⟨hlen, ⟨-, hall⟩, hb⟩
        rw [if_pos hb, htail.mpr ⟨by omega, hall⟩, Nat.add_comm]

/-- **The first unit**: a character when it is complete, and otherwise an ill-formed piece
of the same length. -/
theorem decodeChar_of_lead {a : UInt8} {t : List UInt8} {n lo hi : ℕ}
    (hl : leadByte a.toNat = some (n, lo, hi)) :
    decodeChar (a :: t) = (if contLength n lo hi t = n then
      some (Char.ofNat (((t.take n).map UInt8.toNat).foldl (fun v b => v * 64 + b % 64)
        (if n = 0 then a.toNat else a.toNat % 2 ^ (6 - n))), t.drop n) else none) := by
  obtain ⟨hlo, hhi, -⟩ := leadByte_range hl
  have hiff := contLength_eq_iff (n := n) (t := t) hlo hhi
  simp only [decodeChar, hl, List.length_map]
  by_cases h : contLength n lo hi t = n
  · rw [if_pos h, if_pos (hiff.mp h)]
  · rw [if_neg h, if_neg fun hc => h (hiff.mpr hc)]

theorem illFormedLength_of_lead {a : UInt8} {t : List UInt8} {n lo hi : ℕ}
    (hl : leadByte a.toNat = some (n, lo, hi)) :
    illFormedLength (a :: t) = 1 + contLength n lo hi t := by
  simp only [illFormedLength, hl]
  cases n with
  | zero => rfl
  | succ n =>
    cases t with
    | nil => rfl
    | cons b t =>
      rw [List.take_succ_cons, contLength, contLength_eq_takeWhile]
      simp only [Bool.and_eq_true, decide_eq_true_eq]
      split_ifs <;> omega

theorem unitLength_pos {bs : List UInt8} (h : bs ≠ []) :
    0 < unitLength bs ∧ unitLength bs ≤ bs.length := by
  obtain ⟨a, t, rfl⟩ := List.exists_cons_of_ne_nil h
  rw [unitLength, List.length_cons]
  rcases leadByte a.toNat with _ | ⟨n, lo, hi⟩
  · exact ⟨Nat.one_pos, Nat.le_add_left _ _⟩
  · have hle := (contLength_le n lo hi t).2
    dsimp only
    omega

/-! ## The text, unit by unit -/

/-- The characters of a byte string. -/
def lossy (bs : List UInt8) : List Char := lossyLoop bs.length bs

/-- One round of the loop takes the first unit. -/
theorem lossyLoop_succ (fuel : ℕ) {bs : List UInt8} (h : bs ≠ []) :
    lossyLoop (fuel + 1) bs = unitChar bs :: lossyLoop fuel (bs.drop (unitLength bs)) := by
  obtain ⟨a, t, rfl⟩ := List.exists_cons_of_ne_nil h
  rw [lossyLoop, unitChar, unitLength]
  rcases hl : leadByte a.toNat with _ | ⟨n, lo, hi⟩
  · have hdecode : decodeChar (a :: t) = none := by simp only [decodeChar, hl]
    have hill : illFormedLength (a :: t) = 1 := by simp only [illFormedLength, hl]
    rw [hdecode, hill]
    rfl
  · rw [decodeChar_of_lead hl, illFormedLength_of_lead hl]
    dsimp only
    by_cases hc : contLength n lo hi t = n
    · rw [if_pos hc, hc, Nat.add_comm, List.drop_succ_cons]
      rfl
    · rw [if_neg hc]
      rfl

/-- The bound on the rounds does not matter. -/
theorem lossyLoop_eq {fuel : ℕ} {bs : List UInt8} (h : bs.length ≤ fuel) :
    lossyLoop fuel bs = lossy bs := by
  have hloop : ∀ (n : ℕ) (bs : List UInt8), bs.length ≤ n → ∀ fuel fuel', bs.length ≤ fuel →
      bs.length ≤ fuel' → lossyLoop fuel bs = lossyLoop fuel' bs := by
    intro n
    induction n with
    | zero =>
      intro bs hbs fuel fuel' _ _
      obtain rfl : bs = [] := List.eq_nil_of_length_eq_zero (Nat.le_zero.mp hbs)
      cases fuel <;> cases fuel' <;> rfl
    | succ n ih =>
      intro bs hbs fuel fuel' hf hf'
      by_cases hne : bs = []
      · subst hne
        cases fuel <;> cases fuel' <;> rfl
      · obtain ⟨hpos, hle⟩ := unitLength_pos hne
        have hlen : (bs.drop (unitLength bs)).length = bs.length - unitLength bs :=
          List.length_drop
        cases fuel with
        | zero => omega
        | succ fuel =>
          cases fuel' with
          | zero => omega
          | succ fuel' =>
            rw [lossyLoop_succ fuel hne, lossyLoop_succ fuel' hne,
              ih _ (by omega) fuel fuel' (by omega) (by omega)]
  exact hloop bs.length bs le_rfl _ _ h le_rfl

/-- **The first unit becomes the first character.** -/
theorem lossy_eq_cons {bs : List UInt8} (h : bs ≠ []) :
    lossy bs = unitChar bs :: lossy (bs.drop (unitLength bs)) := by
  obtain ⟨hpos, hle⟩ := unitLength_pos h
  obtain ⟨n, hn⟩ := Nat.exists_eq_add_one.mpr (hpos.trans_le hle)
  rw [lossy, hn, lossyLoop_succ n h, lossyLoop_eq (by rw [List.length_drop]; omega)]

theorem lossy_nil : lossy [] = [] := rfl

theorem fromUtf8Lossy_eq (bs : List UInt8) : fromUtf8Lossy bs = String.ofList (lossy bs) := rfl

/-! ## Characters that are split -/

/-- The bytes are the first ones of a character, or all of it. -/
def Begins (bs : List UInt8) : Prop :=
  ∃ a t n lo hi, bs = a :: t ∧ leadByte a.toNat = some (n, lo, hi) ∧
    contLength n lo hi t = t.length

/-- A character begins in the last bytes of `x` and goes on with the first byte of `y`. -/
def Splits (x y : List UInt8) : Prop :=
  ∃ u b, u ≠ [] ∧ u <:+ x ∧ y.head? = some b ∧ Begins (u ++ [b])

/-! ### One character -/

/-- Bytes that are admitted up to the end of a part may go on behind it. -/
theorem contLength_append (n lo hi : ℕ) (t y : List UInt8) :
    contLength n lo hi t < t.length ∧ contLength n lo hi (t ++ y) = contLength n lo hi t ∨
      contLength n lo hi t = t.length ∧ ∃ lo' hi', (0x80 ≤ lo → 0x80 ≤ lo') ∧
        (hi ≤ 0xbf → hi' ≤ 0xbf) ∧
        ∀ z, contLength n lo hi (t ++ z) = t.length + contLength (n - t.length) lo' hi' z := by
  induction t generalizing n lo hi with
  | nil =>
    right
    exact ⟨Nat.le_zero.mp (contLength_le n lo hi []).2, lo, hi, id, id, fun z => by simp⟩
  | cons b t ih =>
    cases n with
    | zero => exact Or.inl ⟨Nat.succ_pos _, rfl⟩
    | succ n =>
      simp only [List.cons_append, contLength, List.length_cons]
      by_cases hb : lo ≤ b.toNat ∧ b.toNat ≤ hi
      · simp only [if_pos hb]
        obtain ⟨hlt, heq⟩ | ⟨hall, lo', hi', hlo, hhi, heq⟩ := ih n 0x80 0xbf
        · exact Or.inl ⟨by omega, by rw [heq]⟩
        · right
          refine ⟨by omega, lo', hi', fun _ => hlo le_rfl, fun _ => hhi le_rfl, fun z => ?_⟩
          rw [heq z, Nat.add_sub_add_right]
          omega
      · simp only [if_neg hb]
        exact Or.inl ⟨Nat.succ_pos _, trivial⟩

/-- A byte that is admitted first is admitted whatever follows it. -/
theorem contLength_singleton (n lo hi : ℕ) (b : UInt8) (y : List UInt8) :
    contLength n lo hi (b :: y) = 0 ∧ contLength n lo hi [b] = 0 ∨
      0 < contLength n lo hi (b :: y) ∧ contLength n lo hi [b] = 1 := by
  cases n with
  | zero => exact Or.inl ⟨rfl, rfl⟩
  | succ n =>
    have hnil : contLength n 0x80 0xbf [] = 0 := Nat.le_zero.mp (contLength_le n 0x80 0xbf []).2
    rw [contLength, contLength, hnil]
    split_ifs
    · exact Or.inr ⟨by omega, rfl⟩
    · exact Or.inl ⟨rfl, rfl⟩

/-- **The first unit of a part** is the first unit of the whole, or the part is the
beginning of a character that goes on behind it. -/
theorem unit_append {x : List UInt8} (hx : x ≠ []) (y : List UInt8) :
    unitLength (x ++ y) = unitLength x ∧ unitChar (x ++ y) = unitChar x ∨
      ∃ b, y.head? = some b ∧ Begins (x ++ [b]) := by
  obtain ⟨a, t, rfl⟩ := List.exists_cons_of_ne_nil hx
  rcases hl : leadByte a.toNat with _ | ⟨n, lo, hi⟩
  · left
    simp only [unitLength, unitChar, List.cons_append, decodeChar, hl, and_self]
  · have hunit : ∀ l : List UInt8, unitLength (a :: l) = 1 + contLength n lo hi l := by
      intro l
      simp only [unitLength, hl]
    -- when the same bytes are admitted, they are the same character
    have hsame : contLength n lo hi (t ++ y) = contLength n lo hi t →
        unitLength (a :: t ++ y) = unitLength (a :: t) ∧
          unitChar (a :: t ++ y) = unitChar (a :: t) := by
      intro heq
      refine ⟨by rw [List.cons_append, hunit, hunit, heq], ?_⟩
      rw [List.cons_append, unitChar, unitChar, decodeChar_of_lead hl, decodeChar_of_lead hl, heq]
      by_cases hn : contLength n lo hi t = n
      · have hle := (contLength_le n lo hi t).2
        rw [if_pos hn, if_pos hn, List.take_append_of_le_length (by omega)]
        rfl
      · rw [if_neg hn, if_neg hn]
    obtain ⟨-, heq⟩ | ⟨hall, lo', hi', -, -, heq⟩ := contLength_append n lo hi t y
    · exact Or.inl (hsame heq)
    · cases y with
      | nil => exact Or.inl (hsame (by rw [List.append_nil]))
      | cons b y =>
        obtain ⟨hmore, -⟩ | ⟨hmore, hone⟩ := contLength_singleton (n - t.length) lo' hi' b y
        · exact Or.inl (hsame (by rw [heq, hmore, hall, Nat.add_zero]))
        · right
          refine ⟨b, rfl, a, t ++ [b], n, lo, hi, rfl, hl, ?_⟩
          rw [heq, hone, List.length_append]
          rfl

/-- **Without a split character the parts are decoded alone.** -/
theorem lossy_append {x y : List UInt8} (h : ¬ Splits x y) :
    lossy (x ++ y) = lossy x ++ lossy y := by
  obtain ⟨n, hn⟩ : ∃ n, x.length ≤ n := ⟨_, le_rfl⟩
  induction n generalizing x with
  | zero =>
    obtain rfl : x = [] := List.eq_nil_of_length_eq_zero (Nat.le_zero.mp hn)
    rfl
  | succ n ih =>
    by_cases hx : x = []
    · subst hx
      rfl
    · obtain ⟨hpos, hle⟩ := unitLength_pos hx
      obtain ⟨hlen, hchar⟩ | ⟨b, hb, hbegins⟩ := unit_append hx y
      · have hrest : ¬ Splits (x.drop (unitLength x)) y := by
          rintro ⟨u, b, hu, hsuffix, hb, hbegins⟩
          exact h ⟨u, b, hu, hsuffix.trans (List.drop_suffix _ x), hb, hbegins⟩
        rw [lossy_eq_cons (List.append_ne_nil_of_left_ne_nil hx y), lossy_eq_cons hx, hlen, hchar,
          List.drop_append_of_le_length hle, ih hrest (by rw [List.length_drop]; omega)]
        rfl
      · exact absurd ⟨x, b, hx, List.suffix_rfl, hb, hbegins⟩ h

/-- What follows the first byte of a character is a continuation byte. -/
theorem Begins.isCont_last {pre : List UInt8} {a : UInt8} (h : Begins (pre ++ [a]))
    (hpre : pre ≠ []) : isCont a = true := by
  obtain ⟨c, t, n, lo, hi, heq, hl, hall⟩ := h
  obtain ⟨d, pre, rfl⟩ := List.exists_cons_of_ne_nil hpre
  obtain ⟨-, rfl⟩ := List.cons.inj heq
  obtain ⟨hlo, hhi, -⟩ := leadByte_range hl
  have hcont := isCont_of_contLength (n := n) (t := pre ++ [a]) hlo hhi
  rw [List.append_eq] at hall
  rw [hall, List.take_length] at hcont
  exact hcont a (List.mem_append_right _ List.mem_cons_self)

/-- A character of more than one byte does not begin with a continuation byte. -/
theorem Begins.not_isCont_head {a b : UInt8} {t : List UInt8} (h : Begins (a :: t ++ [b])) :
    isCont a = false := by
  obtain ⟨c, t', n, lo, hi, heq, hl, hall⟩ := h
  obtain ⟨rfl, rfl⟩ := List.cons.inj heq
  obtain ⟨-, -, hn⟩ := leadByte_range hl
  have hle := (contLength_le n lo hi (t ++ [b])).1
  rw [List.append_eq] at hall
  rw [hall, List.length_append, List.length_singleton] at hle
  exact isCont_eq_false (Or.inr (by omega))

/-! ### The length of what is decoded -/

/-- Continuation bytes on their own are a replacement character each. -/
theorem length_lossy_drop {y : List UInt8} {j : ℕ} (hj : j ≤ y.length)
    (hcont : ∀ b ∈ y.take j, isCont b = true) :
    (lossy y).length = j + (lossy (y.drop j)).length := by
  induction j generalizing y with
  | zero => rw [Nat.zero_add, List.drop_zero]
  | succ j ih =>
    cases y with
    | nil => simp at hj
    | cons b y =>
      rw [List.take_succ_cons] at hcont
      have hb := isCont_iff.mp (hcont b List.mem_cons_self)
      have hlead : leadByte b.toNat = none := by
        rcases hl : leadByte b.toNat with _ | ⟨n, lo, hi⟩
        · rfl
        · have hrange := leadByte_range hl
          omega
      have hunit : unitLength (b :: y) = 1 := by simp only [unitLength, hlead]
      have hrest := ih (Nat.le_of_succ_le_succ hj) fun c hc =>
        hcont c (List.mem_cons_of_mem b hc)
      rw [lossy_eq_cons (List.cons_ne_nil b y), hunit, List.drop_succ_cons, List.drop_zero,
        List.length_cons, hrest, List.drop_succ_cons]
      omega

/-- A character that is split is one unit of the whole. -/
theorem length_lossy_begins {u y : List UInt8} {b : UInt8} (hu : u ≠ [])
    (hbegins : Begins (u ++ [b])) :
    (lossy (u ++ b :: y)).length < (lossy u).length + (lossy (b :: y)).length := by
  obtain ⟨c, t', n, lo, hi, heq, hl, hall⟩ := hbegins
  obtain ⟨a, t, rfl⟩ := List.exists_cons_of_ne_nil hu
  obtain ⟨rfl, rfl⟩ := List.cons.inj heq
  obtain ⟨hlo, hhi, -⟩ := leadByte_range hl
  have hunit : ∀ l : List UInt8, unitLength (a :: l) = 1 + contLength n lo hi l := by
    intro l
    simp only [unitLength, hl]
  rw [List.append_eq, List.length_append, List.length_singleton] at hall
  obtain ⟨hlt, hsame⟩ | ⟨hwhole, lo', hi', hlo', hhi', hrest⟩ := contLength_append n lo hi t [b]
  · omega
  · -- the bytes of `y` that the character takes
    obtain ⟨j, hj⟩ : ∃ j, j = contLength (n - t.length) lo' hi' (b :: y) := ⟨_, rfl⟩
    have hone := hrest [b]
    have hpos : 0 < j := by
      rcases contLength_singleton (n - t.length) lo' hi' b y with ⟨-, hnone⟩ | ⟨hpos, -⟩
      · omega
      · omega
    have hjle : j ≤ (b :: y).length := hj ▸ (contLength_le _ _ _ _).2
    have hcont := isCont_of_contLength (n := n - t.length) (t := b :: y) (hlo' hlo) (hhi' hhi)
    rw [← hj] at hcont
    have hfirst : (lossy (a :: t)).length = 1 := by
      rw [lossy_eq_cons hu, hunit, hwhole, Nat.add_comm, List.drop_succ_cons, List.drop_length]
      rfl
    have hdrop : (a :: t ++ b :: y).drop (unitLength (a :: t ++ b :: y)) = (b :: y).drop j := by
      rw [List.cons_append, hunit, hrest, ← hj, Nat.add_comm, List.drop_succ_cons,
        List.drop_append, List.drop_eq_nil_of_le (Nat.le_add_right _ _), List.nil_append,
        Nat.add_sub_cancel_left]
    rw [hfirst, length_lossy_drop hjle hcont, lossy_eq_cons (by simp), hdrop, List.length_cons]
    omega

/-- **With a split character the parts have more characters than the whole.** -/
theorem length_lossy_append_lt {x y : List UInt8} (h : Splits x y) :
    (lossy (x ++ y)).length < (lossy x).length + (lossy y).length := by
  obtain ⟨u, b, hu, ⟨pre, rfl⟩, hb, hbegins⟩ := h
  obtain ⟨y, rfl⟩ : ∃ y', y = b :: y' := by
    cases y with
    | nil => cases hb
    | cons c y => exact ⟨y, by rw [Option.some_inj.mp hb]⟩
  obtain ⟨n, hn⟩ : ∃ n, pre.length ≤ n := ⟨_, le_rfl⟩
  induction n generalizing pre with
  | zero =>
    obtain rfl : pre = [] := List.eq_nil_of_length_eq_zero (Nat.le_zero.mp hn)
    exact length_lossy_begins hu hbegins
  | succ n ih =>
    by_cases hpre : pre = []
    · subst hpre
      exact length_lossy_begins hu hbegins
    · -- the first unit ends before the character that is split
      have hunit : ∀ z : List UInt8, unitLength (pre ++ (u ++ z)) = unitLength pre := by
        intro z
        obtain ⟨hlen, -⟩ | ⟨c, hc, hlong⟩ := unit_append hpre (u ++ z)
        · exact hlen
        · obtain ⟨a, t, rfl⟩ := List.exists_cons_of_ne_nil hu
          obtain rfl : a = c := Option.some_inj.mp hc
          have hcont := hlong.isCont_last hpre
          rw [hbegins.not_isCont_head] at hcont
          cases hcont
      obtain ⟨hpos, hle⟩ := unitLength_pos hpre
      have hcons : ∀ z : List UInt8, (lossy (pre ++ (u ++ z))).length =
          1 + (lossy (pre.drop (unitLength pre) ++ (u ++ z))).length := by
        intro z
        rw [lossy_eq_cons (List.append_ne_nil_of_left_ne_nil hpre _), hunit,
          List.drop_append_of_le_length hle, List.length_cons, Nat.add_comm]
      have hrest := ih (pre.drop (unitLength pre)) (by rw [List.length_drop]; omega)
      have hpart := hcons []
      rw [List.append_nil] at hpart
      rw [List.append_assoc] at hrest ⊢
      rw [hcons, hpart]
      omega

/-! ## Any number of parts -/

/-- No character is split between a part and the ones after it. -/
def NoSplit (parts : List (List UInt8)) : Prop :=
  ∀ pre p post, parts = pre ++ p :: post → ¬ Splits p post.flatten

theorem noSplit_cons_iff (p : List UInt8) (parts : List (List UInt8)) :
    NoSplit (p :: parts) ↔ ¬ Splits p parts.flatten ∧ NoSplit parts := by
  constructor
  · intro h
    refine ⟨h [] p parts rfl, fun pre q post heq => h (p :: pre) q post ?_⟩
    rw [heq]
    rfl
  · rintro ⟨hp, hparts⟩ pre q post heq
    cases pre with
    | nil =>
      obtain ⟨rfl, rfl⟩ := List.cons.inj heq
      exact hp
    | cons r pre =>
      obtain ⟨-, rfl⟩ := List.cons.inj heq
      exact hparts pre q post rfl

/-- The parts have at least the characters of the whole. -/
theorem length_lossy_flatten_le (parts : List (List UInt8)) :
    (lossy parts.flatten).length ≤ (parts.flatMap lossy).length := by
  induction parts with
  | nil => exact le_rfl
  | cons p parts ih =>
    rw [List.flatten_cons, List.flatMap_cons, List.length_append]
    by_cases hsplit : Splits p parts.flatten
    · have hlt := length_lossy_append_lt hsplit
      omega
    · rw [lossy_append hsplit, List.length_append]
      omega

/-- **Parts are decoded like the whole** exactly when no character is split. -/
theorem lossy_flatten_iff (parts : List (List UInt8)) :
    parts.flatMap lossy = lossy parts.flatten ↔ NoSplit parts := by
  induction parts with
  | nil => exact ⟨fun _ pre p post h => by simp at h, fun _ => rfl⟩
  | cons p parts ih =>
    rw [noSplit_cons_iff, List.flatten_cons, List.flatMap_cons]
    constructor
    · intro heq
      have hlen := congrArg List.length heq
      have hle := length_lossy_flatten_le parts
      rw [List.length_append] at hlen
      have hsplit : ¬ Splits p parts.flatten := fun h => by
        have hlt := length_lossy_append_lt h
        omega
      rw [lossy_append hsplit] at heq
      exact ⟨hsplit, ih.mp (List.append_cancel_left heq)⟩
    · rintro ⟨hsplit, hparts⟩
      rw [lossy_append hsplit, ih.mpr hparts]

/-! ## ASCII text -/

theorem le_toNat_ofNat {v : ℕ} (h : 0x80 ≤ v) (hv : v < 0xd800 ∨ 0xdfff < v ∧ v < 0x110000) :
    0x80 ≤ (Char.ofNat v).toNat := by
  rw [Char.ofNat, dif_pos hv]
  exact h

/-- No character has a second, longer encoding: what begins with another byte than an ASCII
byte is no ASCII character. -/
theorem le_toNat_of_decodeChar {a : UInt8} {t rest : List UInt8} {c : Char}
    (h : decodeChar (a :: t) = some (c, rest)) (ha : 0x80 ≤ a.toNat) : 0x80 ≤ c.toNat := by
  have hlt := a.toNat_lt
  rcases hl : leadByte a.toNat with _ | ⟨n, lo, hi⟩
  · simp [decodeChar, hl] at h
  simp only [decodeChar, hl] at h
  split at h
  swap
  · cases h
  next hok =>
  obtain ⟨rfl, -⟩ := Prod.mk.inj (Option.some.inj h)
  obtain ⟨hlen, -, hhead⟩ := hok
  -- one case for each range of lead bytes, with the bytes that it announces
  unfold leadByte at hl
  split_ifs at hl
  · omega
  all_goals
    obtain ⟨rfl, hrange⟩ := Prod.mk.inj (Option.some.inj hl)
    obtain ⟨rfl, rfl⟩ := Prod.mk.inj hrange
    rcases t with _ | ⟨b, _ | ⟨b', _ | ⟨b'', t⟩⟩⟩
    all_goals
      simp at hlen hhead ⊢
    all_goals
      apply le_toNat_ofNat
      · omega
      · omega

/-- The bytes of such a character are not ASCII either. -/
theorem le_of_mem_utf8EncodeChar {c : Char} (hc : 0x80 ≤ c.toNat) :
    ∀ b ∈ String.utf8EncodeChar c, 0x80 ≤ b.toNat := by
  intro b hb
  by_contra hascii
  have hmem : b ∈ utf8 (String.singleton c) := by simpa [utf8] using hb
  have hchar := mem_of_ascii_mem_utf8 (Nat.not_le.mp hascii) hmem
  rw [String.toList_singleton, List.mem_singleton] at hchar
  have hsmall : ∀ n < 0x80, (Char.ofNat n).toNat < 0x80 := by decide
  have := hsmall b.toNat (Nat.not_le.mp hascii)
  rw [hchar] at this
  omega

/-- The first byte stands for itself, or begins a unit that becomes no ASCII character. -/
theorem lossy_cases (a : UInt8) (t : List UInt8) :
    (a.toNat < 0x80 ∧ bytes (lossy (a :: t)) = a :: bytes (lossy t)) ∨
    ∃ x k, (∀ b ∈ x, 0x80 ≤ b.toNat) ∧ x ≠ [] ∧
      bytes (lossy (a :: t)) = x ++ bytes (lossy (t.drop k)) := by
  rw [lossy_eq_cons (List.cons_ne_nil a t), bytes, List.flatMap_cons]
  by_cases ha : a.toNat < 0x80
  · left
    have hl : leadByte a.toNat = some (0, 0x80, 0xbf) := by rw [leadByte, if_pos ha]
    have hunit : unitLength (a :: t) = 1 := by simp only [unitLength, hl, contLength]
    have hchar : unitChar (a :: t) = Char.ofNat a.toNat := by rw [unitChar, decodeChar_ascii ha]; rfl
    rw [hchar, hunit, utf8EncodeChar_ofNat ha]
    exact ⟨ha, rfl⟩
  · right
    have hchar : 0x80 ≤ (unitChar (a :: t)).toNat := by
      rw [unitChar]
      cases hd : decodeChar (a :: t) with
      | none => decide
      | some out =>
        obtain ⟨c, rest⟩ := out
        exact le_toNat_of_decodeChar hd (Nat.not_lt.mp ha)
    obtain ⟨k, hk⟩ := Nat.exists_eq_add_one.mpr (unitLength_pos (List.cons_ne_nil a t)).1
    refine ⟨_, k, le_of_mem_utf8EncodeChar hchar, ?_, by rw [hk, List.drop_succ_cons]; rfl⟩
    rcases utf8EncodeChar_cases (unitChar (a :: t)) with ⟨x, hx, -⟩ | ⟨x, ys, hx, -⟩
    · simp [hx]
    · simp [hx]

/-- A part does not begin in a piece that has none of its elements. -/
theorem infix_of_infix_append {α : Type} {pat x y : List α} (hx : ∀ b ∈ x, b ∉ pat)
    (h : pat <:+: x ++ y) : pat <:+: y := by
  induction x with
  | nil => exact h
  | cons b x ih =>
    have hrest := ih fun c hc => hx c (List.mem_cons_of_mem b hc)
    rw [List.cons_append] at h
    rcases List.infix_cons_iff.mp h with hprefix | hinfix
    · cases pat with
      | nil => exact List.nil_infix
      | cons p pat =>
        obtain ⟨rfl, -⟩ := List.cons_prefix_cons.mp hprefix
        exact absurd List.mem_cons_self (hx p List.mem_cons_self)
    · exact hrest hinfix

/-! ### Parts of a text -/

section Ascii

variable {pat : List UInt8}

theorem not_mem_of_le (hpat : ∀ b ∈ pat, b.toNat < 0x80) {x : List UInt8}
    (hx : ∀ b ∈ x, 0x80 ≤ b.toNat) : ∀ b ∈ x, b ∉ pat := fun b hb hmem =>
  absurd (hpat b hmem) (Nat.not_lt.mpr (hx b hb))

/-- ASCII bytes at the head of the text are at the head of the bytes. -/
theorem prefix_of_prefix_lossy (hpat : ∀ b ∈ pat, b.toNat < 0x80) :
    ∀ {bs : List UInt8}, pat <+: bytes (lossy bs) → pat <+: bs := by
  induction pat with
  | nil => exact fun _ => List.nil_prefix
  | cons p pat ih =>
    intro bs h
    cases bs with
    | nil => exact absurd h.length_le (by simp [lossy_nil, bytes])
    | cons a t =>
      rcases lossy_cases a t with ⟨-, heq⟩ | ⟨x, k, hx, hne, heq⟩
      · rw [heq] at h
        obtain ⟨rfl, hrest⟩ := List.cons_prefix_cons.mp h
        exact List.cons_prefix_cons.mpr
          ⟨rfl, ih (fun b hb => hpat b (List.mem_cons_of_mem p hb)) hrest⟩
      · rw [heq] at h
        obtain ⟨b, x, rfl⟩ := List.exists_cons_of_ne_nil hne
        obtain ⟨rfl, -⟩ := List.cons_prefix_cons.mp h
        exact absurd List.mem_cons_self (not_mem_of_le hpat hx p List.mem_cons_self)

/-- **ASCII bytes that stand in the text stand in the bytes**: nothing that is ill-formed
decodes to ASCII. -/
theorem infix_of_infix_lossy (hpat : ∀ b ∈ pat, b.toNat < 0x80) {bs : List UInt8}
    (h : pat <:+: bytes (lossy bs)) : pat <:+: bs := by
  induction hn : bs.length using Nat.strong_induction_on generalizing bs with
  | _ n ih =>
    cases bs with
    | nil => exact h
    | cons a t =>
      rcases lossy_cases a t with ⟨-, heq⟩ | ⟨x, k, hx, -, heq⟩
      · rw [heq] at h
        rcases List.infix_cons_iff.mp h with hprefix | hinfix
        · exact (prefix_of_prefix_lossy hpat (heq ▸ hprefix)).isInfix
        · exact (ih _ (by rw [← hn]; exact Nat.lt_succ_self _) hinfix rfl).trans
            (List.suffix_cons a t).isInfix
      · rw [heq] at h
        have hrest := infix_of_infix_append (not_mem_of_le hpat hx) h
        have hlen : (t.drop k).length < n := by
          rw [List.length_drop, ← hn, List.length_cons]
          omega
        exact (ih _ hlen hrest rfl).trans ((List.drop_suffix k t).trans (List.suffix_cons a t)).isInfix

end Ascii

/-- Trimming a text cuts its bytes. -/
theorem infix_utf8_trim (s : String) : utf8 (trim s) <:+: utf8 s := by
  have hfront := List.dropWhile_suffix isWhitespace (l := s.toList)
  have hback := List.dropWhile_suffix isWhitespace (l := (s.toList.dropWhile isWhitespace).reverse)
  have hchars : (trim s).toList <:+: s.toList := by
    rw [trim, String.toList_ofList]
    refine List.IsInfix.trans (List.IsPrefix.isInfix ?_) hfront.isInfix
    rw [← List.reverse_suffix, List.reverse_reverse]
    exact hback
  obtain ⟨x, y, heq⟩ := hchars
  refine ⟨bytes x, bytes y, ?_⟩
  rw [utf8, utf8, ← heq]
  simp only [bytes, List.flatMap_append]

end Text
