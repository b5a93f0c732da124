/-
# Writing JSON texts

What a program that writes JSON by hand has to see to.  The text of every document is a
JSON text (`Doc.isValue_text`).  A string is written character by character, each as a
piece that stands for it, and is then read back (`exists_pieces`).  A text in which a
control character stands inside of a string is no JSON text: a reader that only follows the
quotes and the backslashes ends a document outside of strings and meets no control
character inside one (`scan_doc`).
-/
import PySpell.Lib.JsonDocument

namespace JsonGrammar

/-! ## Documents are JSON texts -/

/-- Digits are a range of ASCII. -/
theorem isDigit_bounds {c : Char} (h : c.isDigit = true) : 48 ≤ c.toNat ∧ c.toNat ≤ 57 := by
  rw [Char.isDigit, Bool.and_eq_true, decide_eq_true_iff, decide_eq_true_iff] at h
  exact h

/-- A digit is no other character. -/
theorem ne_of_isDigit {c d : Char} (h : c.isDigit = true) (hd : d.isDigit = false) : c ≠ d := by
  rintro rfl
  rw [h] at hd
  cases hd

/-- A text of digits that is not empty is a run of digits. -/
theorem isDigits_of_all {l : List Char} (h : l ≠ [] ∧ l.all Char.isDigit = true) :
    isDigits l = true := by
  rw [isDigits, Bool.and_eq_true, decide_eq_true_iff]
  exact h

/-- What follows the mark of an exponent. -/
theorem isExp_text (e : Expo) :
    isExp (e.sign.elim [] (fun s => [if s then '-' else '+']) ++ e.digits.1) = true := by
  obtain ⟨hne, hall⟩ := digits_all e.digits
  have hdigits := isDigits_of_all ⟨hne, hall⟩
  cases e.sign with
  | some s => cases s <;> exact hdigits
  | none =>
    obtain ⟨c, t, hct⟩ := List.exists_cons_of_ne_nil hne
    have hc : c.isDigit = true := List.all_eq_true.mp hall c (hct ▸ List.mem_cons_self)
    show isExp e.digits.1 = true
    rw [hct] at hdigits ⊢
    rw [isExp]
    · exact hdigits
    · exact fun t' h => ne_of_isDigit hc rfl (List.cons.inj h).1
    · exact fun t' h => ne_of_isDigit hc rfl (List.cons.inj h).1

/-- **The text of a number is a number.** -/
theorem isNumber_text (n : Number) : isNumber n.text = true := by
  obtain ⟨hne, hwhole⟩ := whole_all n.whole
  have hdigit : ∀ c ∈ n.whole.1, c.isDigit = true := List.all_eq_true.mp hwhole
  -- the sign
  have hsign : (if n.text.head? = some '-' then n.text.tail else n.text) =
      n.whole.1 ++ n.fracText ++ n.expoText := by
    rw [Number.text, Number.signText]
    cases n.neg with
    | true => rfl
    | false =>
      obtain ⟨c, t, hct⟩ := List.exists_cons_of_ne_nil hne
      have hc : c ≠ '-' := ne_of_isDigit (hdigit c (hct ▸ List.mem_cons_self)) rfl
      rw [hct]
      exact if_neg fun h => hc (Option.some_inj.mp h)
  -- the mantissa has no mark
  have hmantissa : ∀ c ∈ n.whole.1 ++ n.fracText, (decide (c ≠ 'e') && decide (c ≠ 'E')) = true := by
    have hmark : ∀ c : Char, c.isDigit = true → (decide (c ≠ 'e') && decide (c ≠ 'E')) = true := by
      intro c hc
      simp [ne_of_isDigit hc (d := 'e') rfl, ne_of_isDigit hc (d := 'E') rfl]
    intro c hc
    rcases List.mem_append.mp hc with hc | hc
    · exact hmark c (hdigit c hc)
    · unfold Number.fracText at hc
      cases hf : n.frac with
      | none => rw [hf] at hc; cases hc
      | some d =>
        rw [hf] at hc
        rcases List.mem_cons.mp hc with rfl | hc
        · rfl
        · exact hmark c (List.all_eq_true.mp (digits_all d).2 c hc)
  have hexpo : n.expoText.takeWhile (fun c => decide (c ≠ 'e') && decide (c ≠ 'E')) = [] ∧
      n.expoText.dropWhile (fun c => decide (c ≠ 'e') && decide (c ≠ 'E')) = n.expoText := by
    rcases expoText_head n with h | ⟨c, t, h, rfl | rfl⟩
    · rw [h]
      exact ⟨rfl, rfl⟩
    · rw [h]
      exact ⟨rfl, rfl⟩
    · rw [h]
      exact ⟨rfl, rfl⟩
  -- the whole part has no point
  have hpoint : ∀ c ∈ n.whole.1, decide (c ≠ '.') = true := fun c hc =>
    decide_eq_true (ne_of_isDigit (hdigit c hc) rfl)
  have hfrac : n.fracText.takeWhile (fun c => decide (c ≠ '.')) = [] ∧
      n.fracText.dropWhile (fun c => decide (c ≠ '.')) = n.fracText := by
    rw [Number.fracText]
    cases n.frac <;> exact ⟨rfl, rfl⟩
  unfold isNumber
  simp only [hsign]
  rw [List.takeWhile_append_of_pos hmantissa, List.dropWhile_append_of_pos hmantissa, hexpo.1,
    hexpo.2, List.append_nil, List.takeWhile_append_of_pos hpoint,
    List.dropWhile_append_of_pos hpoint, hfrac.1, hfrac.2, List.append_nil, n.whole.2,
    Bool.true_and, Bool.and_eq_true, Bool.or_eq_true, Bool.or_eq_true]
  constructor
  · rw [Number.fracText]
    cases n.frac with
    | none => exact .inl rfl
    | some d => exact .inr d.2
  · rw [Number.expoText]
    cases n.expo with
    | none => exact .inl rfl
    | some e => exact .inr (isExp_text e)

/-! ### Items and members -/

/-- The elements of an array with their texts. -/
def Items.padded : Items → List Padded
  | .last before d after => [⟨before.1, d.text, after.1⟩]
  | .cons before d after rest => ⟨before.1, d.text, after.1⟩ :: rest.padded

/-- The members of an object with their texts. -/
def Members.padded : Members → List (Padded × Padded)
  | .last before key mid gap d after =>
    [(⟨before.1, '"' :: encode key ++ ['"'], mid.1⟩, ⟨gap.1, d.text, after.1⟩)]
  | .cons before key mid gap d after rest =>
    (⟨before.1, '"' :: encode key ++ ['"'], mid.1⟩, ⟨gap.1, d.text, after.1⟩) :: rest.padded

/-- Items are at least one. -/
theorem Items.padded_ne_nil (items : Items) : items.padded ≠ [] := by
  cases items <;> exact List.cons_ne_nil _ _

/-- So are members. -/
theorem Members.padded_ne_nil (members : Members) : members.padded ≠ [] := by
  cases members <;> exact List.cons_ne_nil _ _

/-- The items of an array, written with commas between them. -/
theorem Items.text_eq (items : Items) :
    items.text = [','].intercalate (items.padded.map Padded.chars) := by
  cases items with
  | last before d after =>
    rw [Items.padded, List.map_singleton, List.intercalate_singleton]
    rfl
  | cons before d after rest =>
    have hrest := rest.text_eq
    obtain ⟨e, es, hes⟩ := List.exists_cons_of_ne_nil rest.padded_ne_nil
    rw [hes, List.map_cons] at hrest
    rw [Items.padded, List.map_cons, hes, List.map_cons, List.intercalate_cons_cons, ← hrest]
    simp only [Items.text, Padded.chars, List.append_assoc, List.cons_append, List.nil_append]

/-- The members of an object, written with commas between them. -/
theorem Members.text_eq (members : Members) : members.text =
    [','].intercalate (members.padded.map fun e => e.1.chars ++ ':' :: e.2.chars) := by
  cases members with
  | last before key mid gap d after =>
    rw [Members.padded, List.map_singleton, List.intercalate_singleton]
    simp only [Members.text, keyText, Padded.chars, List.append_assoc, List.cons_append]
  | cons before key mid gap d after rest =>
    have hrest := rest.text_eq
    obtain ⟨e, es, hes⟩ := List.exists_cons_of_ne_nil rest.padded_ne_nil
    rw [hes, List.map_cons] at hrest
    rw [Members.padded, List.map_cons, hes, List.map_cons, List.intercalate_cons_cons, ← hrest]
    simp only [Members.text, keyText, Padded.chars, List.append_assoc, List.cons_append,
      List.nil_append]

mutual

/-- **The text of a document is a JSON value.** -/
theorem Doc.isValue_text : ∀ d : Doc, IsValue d.text
  | .null => .literal (.inl rfl)
  | .bool true => .literal (.inr (.inl rfl))
  | .bool false => .literal (.inr (.inr rfl))
  | .number n => .number (isNumber_text n)
  | .string s => .string ((isStringBody_iff _).mpr ⟨s, rfl⟩)
  | .emptyArray w => .emptyArray w.2
  | .array items => by
    rw [Doc.text, Items.text_eq]
    exact .array items.padded items.padded_ne_nil (fun e he => (items.padded_spec e he).1)
      fun e he => (items.padded_spec e he).2
  | .emptyObject w => .emptyObject w.2
  | .object members => by
    rw [Doc.text, Members.text_eq]
    exact .object members.padded members.padded_ne_nil
      (fun e he => (members.padded_spec e he).1) (fun e he => (members.padded_spec e he).2.1)
      fun e he => (members.padded_spec e he).2.2

/-- Each item is a value between white space: mutual induction over the document. -/
theorem Items.padded_spec : ∀ (items : Items), ∀ e ∈ items.padded, e.Blank ∧ IsValue e.text
  | .last before d after, e, he => by
    obtain rfl := List.mem_singleton.mp he
    exact ⟨⟨before.2, after.2⟩, d.isValue_text⟩
  | .cons before d after rest, e, he => by
    rcases List.mem_cons.mp he with rfl | he
    · exact ⟨⟨before.2, after.2⟩, d.isValue_text⟩
    · exact rest.padded_spec e he

/-- Each member is a key and a value between white space. -/
theorem Members.padded_spec : ∀ (members : Members), ∀ e ∈ members.padded,
    (e.1.Blank ∧ e.2.Blank) ∧ (∃ k, isStringBody k ∧ e.1.text = '"' :: k ++ ['"']) ∧
      IsValue e.2.text
  | .last before key mid gap d after, e, he => by
    obtain rfl := List.mem_singleton.mp he
    exact ⟨⟨⟨before.2, mid.2⟩, gap.2, after.2⟩,
      ⟨_, (isStringBody_iff _).mpr ⟨key, rfl⟩, rfl⟩, d.isValue_text⟩
  | .cons before key mid gap d after rest, e, he => by
    rcases List.mem_cons.mp he with rfl | he
    · exact ⟨⟨⟨before.2, mid.2⟩, gap.2, after.2⟩,
        ⟨_, (isStringBody_iff _).mpr ⟨key, rfl⟩, rfl⟩, d.isValue_text⟩
    · exact rest.padded_spec e he

end

/-! ## Writing a number -/

/-- A natural number is written without a leading zero. -/
theorem isInt_toDigits (n : ℕ) : isInt (Nat.toDigits 10 n) = true := by
  have hdigit : ∀ m, (Nat.toDigits 10 m).all Char.isDigit = true := fun m =>
    List.all_eq_true.mpr fun c hc => Nat.isDigit_of_mem_toDigits (by decide) (by decide) hc
  -- a number that is not zero does not begin with a zero
  have hhead : ∀ m, 0 < m → ∃ c t, Nat.toDigits 10 m = c :: t ∧ c ≠ '0' := by
    intro m
    induction m using Nat.strongRecOn with
    | _ m ih =>
      intro hm
      rcases Nat.lt_or_ge m 10 with hlt | hge
      · refine ⟨m.digitChar, [], Nat.toDigits_of_lt_base hlt, fun h => ?_⟩
        have hzero := Nat.digitChar_eq_zero.mp h
        omega
      · obtain ⟨c, t, hct, hc⟩ := ih (m / 10) (by omega) (by omega)
        exact ⟨c, t ++ [(m % 10).digitChar], by rw [Nat.toDigits_of_base_le (by decide) hge, hct]; rfl,
          hc⟩
  rcases Nat.eq_zero_or_pos n with rfl | hn
  · rw [Nat.toDigits_zero]
    rfl
  · obtain ⟨c, t, hct, hc⟩ := hhead n hn
    have hall := hdigit n
    rw [hct, List.all_cons, Bool.and_eq_true] at hall
    rw [hct, isInt]
    · simp [hc, hall.1, hall.2]
    · exact fun h _ => hc h

/-- A natural number as it is written. -/
def Number.ofNat (n : ℕ) : Number := ⟨false, ⟨Nat.toDigits 10 n, isInt_toDigits n⟩, none, none⟩

/-- A natural number in a document is written with its digits. -/
theorem Number.text_ofNat (n : ℕ) : (Number.ofNat n).text = (toString n).toList := by
  show [] ++ Nat.toDigits 10 n ++ [] ++ [] = (Nat.repr n).toList
  simp [Nat.repr]

/-! ## Writing a string -/

/-- The piece is no half of a surrogate pair. -/
def Piece.Whole (p : Piece) : Prop := ∀ n, p.code = some n → n < 0xd800

/-- A character that is written whole is no half of a pair. -/
theorem pairChar_eq_none {p q : Piece} (h : p.Whole) : pairChar p q = none := by
  unfold pairChar
  split
  · next hi lo hp _ =>
    have hlt := h hi hp
    rw [if_neg (by omega)]
  · rfl

/-- So a string of them has no pair. -/
theorem noPair_of_whole {ps : List Piece} (h : ∀ p ∈ ps, p.Whole) : NoPair ps := by
  induction ps with
  | nil => exact .nil
  | cons p ps ih =>
    have hrest := ih fun q hq => h q (List.mem_cons_of_mem p hq)
    cases ps with
    | nil => exact .singleton p
    | cons q ps => exact .cons_cons (pairChar_eq_none (h p List.mem_cons_self)) hrest

/-- **A string that is written character by character is read back**, when each character is
written as a piece that stands for it. -/
theorem exists_pieces {write : Char → List Char} {l : List Char}
    (h : ∀ c ∈ l, ∃ p : Piece, p.text = write c ∧ p.char = c ∧ p.Whole) :
    ∃ ps, encode ps = l.flatMap write ∧ decode ps = l ∧ NoPair ps := by
  have hps : ∃ ps : List Piece, encode ps = l.flatMap write ∧ ps.map Piece.char = l ∧
      ∀ p ∈ ps, p.Whole := by
    induction l with
    | nil => exact ⟨[], rfl, rfl, fun p hp => by cases hp⟩
    | cons c l ih =>
      obtain ⟨p, htext, hchar, hwhole⟩ := h c List.mem_cons_self
      obtain ⟨ps, hencode, hmap, hall⟩ := ih fun d hd => h d (List.mem_cons_of_mem c hd)
      refine ⟨p :: ps, ?_, ?_, fun q hq => ?_⟩
      · rw [encode_cons, htext, hencode, List.flatMap_cons]
      · rw [List.map_cons, hchar, hmap]
      · rcases List.mem_cons.mp hq with rfl | hq
        · exact hwhole
        · exact hall q hq
  obtain ⟨ps, hencode, hmap, hall⟩ := hps
  have hpair := noPair_of_whole hall
  exact ⟨ps, hencode, ((decode_eq_map_iff ps).mpr hpair).trans hmap, hpair⟩

/-! ## What a text says -/

/-- The text is a document that says `t`, without a surrogate pair in its strings. -/
def Writes (N : Number → Prop) (text : List Char) (t : Tree) : Prop :=
  ∃ d : Doc, d.text = text ∧ d.tree = t ∧ d.Every NoPair N

/-- A character that stands for itself in a string. -/
def IsRaw (c : Char) : Prop := c ≠ '"' ∧ c ≠ '\\' ∧ 0x20 ≤ c.toNat

instance (c : Char) : Decidable (IsRaw c) := inferInstanceAs (Decidable (_ ∧ _ ∧ _))

section
variable {N : Number → Prop}

/-- `null` is written as it is. -/
theorem writes_null : Writes N "null".toList .null := ⟨.null, rfl, rfl, trivial⟩

/-- So is `true`. -/
theorem writes_true : Writes N "true".toList (.bool true) := ⟨.bool true, rfl, rfl, trivial⟩

/-- So is `false`. -/
theorem writes_false : Writes N "false".toList (.bool false) := ⟨.bool false, rfl, rfl, trivial⟩

/-- A truth value is written as its word. -/
theorem writes_bool (b : Bool) : Writes N (toString b).toList (.bool b) := by
  cases b with
  | true => exact writes_true
  | false => exact writes_false

/-- A number is written with its text. -/
theorem writes_number {n : Number} (h : N n) : Writes N n.text (.number n) := ⟨.number n, rfl, rfl, h⟩

/-- A string is written between quotes, each character as a piece that is read back as it. -/
theorem writes_string {write : Char → List Char} {l : List Char}
    (h : ∀ c ∈ l, ∃ p : Piece, p.text = write c ∧ p.char = c ∧ p.Whole) :
    Writes N ('"' :: l.flatMap write ++ ['"']) (.string (String.ofList l)) := by
  obtain ⟨ps, hencode, hdecode, hpair⟩ := exists_pieces h
  refine ⟨.string ps, ?_, ?_, hpair⟩
  · rw [Doc.text, hencode]
  · rw [Doc.tree, hdecode]

/-- A string of characters that stand for themselves. -/
theorem exists_raw {l : List Char} (h : ∀ c ∈ l, IsRaw c) :
    ∃ ps, encode ps = l ∧ decode ps = l ∧ NoPair ps := by
  have hpieces := @exists_pieces (fun c => [c]) l fun c hc =>
    ⟨.raw ⟨c, h c hc⟩, rfl, rfl, fun n hn => by cases hn⟩
  rw [List.flatMap_singleton'] at hpieces
  exact hpieces

/-- A member as a text: the key, and the text of the value. -/
def memberText (m : String × List Char) : List Char := '"' :: m.1.toList ++ '"' :: ':' :: m.2

/-- **An object** whose keys stand for themselves, without whitespace. -/
theorem writes_object (members : List ((String × List Char) × Tree)) (hne : members ≠ [])
    (hkey : members.Forall fun m => ∀ c ∈ m.1.1.toList, IsRaw c)
    (h : members.Forall fun m => Writes N m.1.2 m.2) :
    Writes N ('\x7b' :: [','].intercalate (members.map fun m => memberText m.1) ++ ['\x7d'])
      (.object (members.map fun m => (m.1.1, m.2))) := by
  rw [List.forall_iff_forall_mem] at hkey h
  have hmembers : ∃ l : Members,
      l.text = [','].intercalate (members.map fun m => memberText m.1) ∧
      l.pairs = members.map (fun m => (m.1.1, m.2)) ∧ l.Every NoPair N := by
    induction members with
    | nil => exact absurd rfl hne
    | cons m members ih =>
      let none : Blank := ⟨[], rfl⟩
      obtain ⟨d, hd, htree, hevery⟩ := h m List.mem_cons_self
      obtain ⟨key, hencode, hdecode, hpair⟩ := exists_raw (hkey m List.mem_cons_self)
      have htext : keyText none key none none ++ d.text ++ [] = memberText m.1 := by
        rw [keyText, hencode, hd, memberText, List.append_nil]
        simp only [none, List.nil_append, List.append_assoc, List.cons_append, List.append_nil]
      have hname : String.ofList (decode key) = m.1.1 := by
        rw [hdecode, String.ofList_toList]
      cases members with
      | nil =>
        refine ⟨.last none key none none d none, ?_, ?_, hpair, hevery⟩
        · rw [Members.text, List.map_singleton, List.intercalate_singleton]
          exact htext
        · rw [Members.pairs, hname, htree]
          rfl
      | cons m' members =>
        obtain ⟨l, hl, hpairs, hlevery⟩ := ih (List.cons_ne_nil _ _)
          (fun x hx => hkey x (List.mem_cons_of_mem m hx))
          fun x hx => h x (List.mem_cons_of_mem m hx)
        rw [List.map_cons] at hl
        refine ⟨.cons none key none none d none l, ?_, ?_, hpair, hevery, hlevery⟩
        · rw [Members.text, List.map_cons, List.map_cons, List.intercalate_cons_cons, ← hl,
            ← htext]
          simp only [none, List.append_nil, List.append_assoc, List.cons_append, List.nil_append]
        · rw [Members.pairs, hname, htree, hpairs]
          rfl
  obtain ⟨l, hl, hpairs, hevery⟩ := hmembers
  exact ⟨.object l, by rw [Doc.text, hl], by rw [Doc.tree, hpairs], hevery⟩

end

/-! ## Control characters -/

/-- Where a reader stands that follows only quotes and backslashes. -/
inductive Spot where
  | outside
  | inside
  /-- Inside of a string, behind a backslash. -/
  | escape
  deriving DecidableEq

/-- One character; a control character inside of a string is refused. -/
def Spot.next : Spot → Char → Option Spot
  | outside, c => some (if c = '"' then inside else outside)
  | inside, c =>
    if c = '"' then some outside
    else if c = '\\' then some escape
    else if c.toNat < 0x20 then none
    else some inside
  | escape, _ => some inside

def scan (s : Spot) (l : List Char) : Option Spot := l.foldlM Spot.next s

/-! ### Scanning in parts -/

/-- Scanning goes on where it stopped. -/
theorem scan_append (s : Spot) (l r : List Char) :
    scan s (l ++ r) = (scan s l).bind fun t => scan t r := List.foldlM_append

/-- So a text can be scanned part by part. -/
theorem scan_append_of {s t : Spot} {l : List Char} (h : scan s l = some t) (r : List Char) :
    scan s (l ++ r) = scan t r := by
  rw [scan_append, h]
  rfl

/-- Or character by character. -/
theorem scan_cons {s t : Spot} {c : Char} (h : s.next c = some t) (l : List Char) :
    scan s (c :: l) = scan t l := by
  unfold scan
  rw [List.foldlM_cons, h]
  rfl

/-- Without quotes a reader stays outside. -/
theorem scan_outside {l : List Char} (h : '"' ∉ l) : scan .outside l = some .outside := by
  induction l with
  | nil => rfl
  | cons c l ih =>
    rw [List.mem_cons, not_or] at h
    have hnext : Spot.next .outside c = some .outside := by
      rw [Spot.next, if_neg (Ne.symm h.1)]
    rw [scan_cons hnext]
    exact ih h.2

/-- A character that stands for itself. -/
theorem next_inside {c : Char} (h : IsRaw c) :
    Spot.next .inside c = some .inside := by
  rw [Spot.next, if_neg h.1, if_neg h.2.1, if_neg (Nat.not_lt.mpr h.2.2)]

/-- A hexadecimal digit is no special character. -/
theorem Hex.isRaw (h : Hex) : IsRaw h.1 := by
  obtain ⟨c, hc⟩ := h
  have hle : ∀ a b : Char, a ≤ b ↔ a.toNat ≤ b.toNat := fun a b => Iff.rfl
  rw [isHex, Bool.or_eq_true, Bool.or_eq_true, Bool.and_eq_true, Bool.and_eq_true] at hc
  simp only [decide_eq_true_eq, hle] at hc
  have hrange : 48 ≤ c.toNat ∧ c.toNat ≤ 57 ∨ 97 ≤ c.toNat ∧ c.toNat ≤ 102 ∨
      65 ≤ c.toNat ∧ c.toNat ≤ 70 := by
    rcases hc with (hc | hc) | hc
    · exact .inl (isDigit_bounds hc)
    · exact .inr (.inl hc)
    · exact .inr (.inr hc)
  refine ⟨?_, ?_, by show 32 ≤ c.toNat; omega⟩
  · rintro rfl
    simp at hrange
  · rintro rfl
    simp at hrange

/-! ### Scanning a document -/

/-- A piece of a string keeps the scan inside of it. -/
theorem scan_piece (p : Piece) (l : List Char) :
    scan .inside (p.text ++ l) = scan .inside l := by
  cases p with
  | raw c => exact scan_cons (next_inside c.2) l
  | short e => cases e <;> rfl
  | unicode a b c d =>
    show scan .inside ('\\' :: 'u' :: a.1 :: b.1 :: c.1 :: d.1 :: l) = scan .inside l
    rw [scan_cons (t := .escape) rfl, scan_cons (t := .inside) rfl,
      scan_cons (next_inside a.isRaw), scan_cons (next_inside b.isRaw),
      scan_cons (next_inside c.isRaw), scan_cons (next_inside d.isRaw)]

/-- A string leads from outside to outside. -/
theorem scan_string (ps : List Piece) (l : List Char) :
    scan .outside ('"' :: encode ps ++ ['"'] ++ l) = scan .outside l := by
  show scan .outside ('"' :: (encode ps ++ ['"'] ++ l)) = _
  rw [scan_cons (t := .inside) rfl, List.append_assoc]
  induction ps with
  | nil => rfl
  | cons p ps ih => rw [encode_cons, List.append_assoc, scan_piece, ih]

/-- White space keeps the scan outside of strings. -/
theorem scan_blank (w : Blank) (l : List Char) : scan .outside (w.1 ++ l) = scan .outside l := by
  apply scan_append_of
  apply scan_outside
  intro hmem
  have hws := List.all_eq_true.mp w.2 '"' hmem
  exact absurd hws (by decide)

/-- So does any text without a quote. -/
theorem scan_plain {l : List Char} (h : '"' ∉ l) (r : List Char) :
    scan .outside (l ++ r) = scan .outside r :=
  scan_append_of (scan_outside h) r

/-- A number has no quote. -/
theorem quote_not_mem_number (n : Number) : '"' ∉ n.text := by
  have hne : ∀ c ∈ n.text, c ≠ '"' :=
    n.forall_mem_text (fun h => ne_of_isDigit h rfl) (by decide) (by decide) (by decide)
      (by decide) (by decide)
  exact fun hmem => hne '"' hmem rfl

/-- A key is a string and leaves the scan outside. -/
theorem scan_key (before : Blank) (key : List Piece) (mid gap : Blank) (l : List Char) :
    scan .outside (keyText before key mid gap ++ l) = scan .outside l := by
  rw [keyText, List.append_assoc, List.append_assoc, List.append_assoc, scan_blank, scan_string,
    scan_blank]
  show scan .outside (':' :: (gap.1 ++ l)) = scan .outside l
  rw [scan_cons (t := .outside) rfl, scan_blank]

mutual

/-- **A reader that starts a document outside of strings ends it there**, and meets no
control character inside of one. -/
theorem scan_doc : ∀ (d : Doc) (l : List Char), scan .outside (d.text ++ l) = scan .outside l
  | .null, l => rfl
  | .bool true, l => rfl
  | .bool false, l => rfl
  | .number n, l => scan_plain (quote_not_mem_number n) l
  | .string s, l => scan_string s l
  | .emptyArray w, l => by
    show scan .outside ('[' :: (w.1 ++ [']'] ++ l)) = _
    rw [scan_cons (t := .outside) rfl, List.append_assoc, scan_blank]
    rfl
  | .array items, l => by
    show scan .outside ('[' :: (items.text ++ [']'] ++ l)) = _
    rw [scan_cons (t := .outside) rfl, List.append_assoc, scan_items]
    rfl
  | .emptyObject w, l => by
    show scan .outside ('\x7b' :: (w.1 ++ ['\x7d'] ++ l)) = _
    rw [scan_cons (t := .outside) rfl, List.append_assoc, scan_blank]
    rfl
  | .object members, l => by
    show scan .outside ('\x7b' :: (members.text ++ ['\x7d'] ++ l)) = _
    rw [scan_cons (t := .outside) rfl, List.append_assoc, scan_members]
    rfl

/-- Items leave the scan outside: mutual induction over the document. -/
theorem scan_items : ∀ (items : Items) (l : List Char),
    scan .outside (items.text ++ l) = scan .outside l
  | .last before d after, l => by
    rw [Items.text, List.append_assoc, List.append_assoc, scan_blank, scan_doc, scan_blank]
  | .cons before d after rest, l => by
    rw [Items.text, List.append_assoc, List.append_assoc, List.append_assoc, scan_blank, scan_doc,
      scan_blank]
    show scan .outside (',' :: (rest.text ++ l)) = _
    rw [scan_cons (t := .outside) rfl, scan_items]

/-- So do members. -/
theorem scan_members : ∀ (members : Members) (l : List Char),
    scan .outside (members.text ++ l) = scan .outside l
  | .last before key mid gap d after, l => by
    rw [Members.text, List.append_assoc, List.append_assoc, scan_key, scan_doc, scan_blank]
  | .cons before key mid gap d after rest, l => by
    rw [Members.text, List.append_assoc, List.append_assoc, List.append_assoc, scan_key, scan_doc,
      scan_blank]
    show scan .outside (',' :: (rest.text ++ l)) = _
    rw [scan_cons (t := .outside) rfl, scan_members]

end

/-- **A JSON text has no control character inside of a string.** -/
theorem scan_of_isJson {s : String} (h : IsJson s) : scan .outside s.toList = some .outside := by
  obtain ⟨e, ⟨hbefore, hafter⟩, hvalue, hs⟩ := h
  obtain ⟨d, hd⟩ := exists_doc hvalue
  rw [hs, Padded.chars, ← hd, List.append_assoc, scan_blank ⟨e.before, hbefore⟩, scan_doc,
    ← List.append_nil e.after, scan_blank ⟨e.after, hafter⟩]
  rfl

end JsonGrammar
