/-
# Text as UTF-8 bytes

A string slice is a sequence of bytes that is valid UTF-8.  `utf8` encodes a
string, `fromUtf8` validates and decodes a byte string, reporting how much of it
is valid when not all of it is, and `strSlice` cuts a slice between two byte
offsets and panics when an offset splits a character.

The byte after an ASCII byte starts a new character
(`isCharBoundary_succ_of_ascii`), so a scanner that stops only after ASCII bytes
never splits one.

The second half of the module reads decimal integers and splits text.
-/
import Mathlib.Data.List.Basic
import PySpell.Lib.Outcome

namespace Text

/-! ## Encoding -/

/-- The UTF-8 bytes of a string. -/
def utf8 (s : String) : List UInt8 := s.toList.flatMap String.utf8EncodeChar

/-- A continuation byte `10xxxxxx`. -/
def isCont (b : UInt8) : Bool := 0x80 ≤ b.toNat && b.toNat ≤ 0xbf

theorem isCont_iff {b : UInt8} : isCont b = true ↔ 0x80 ≤ b.toNat ∧ b.toNat ≤ 0xbf := by
  simp [isCont]

/-- An ASCII byte or the lead byte of a sequence is no continuation byte. -/
theorem isCont_eq_false {b : UInt8} (h : b.toNat < 0x80 ∨ 0xc0 ≤ b.toNat) : isCont b = false := by
  rw [Bool.eq_false_iff, ne_eq, isCont_iff]
  omega

/-- A code point takes one ASCII byte, or a lead byte and continuation bytes. -/
theorem utf8EncodeChar_cases (c : Char) :
    (∃ x : UInt8, String.utf8EncodeChar c = [x] ∧ x.toNat < 0x80) ∨
    ∃ x ys, String.utf8EncodeChar c = x :: ys ∧ 0xc0 ≤ x.toNat ∧ ∀ y ∈ ys, isCont y := by
  have byte : ∀ n : ℕ, n < 256 → (UInt8.ofNat n).toNat = n := fun n h => by
    rw [UInt8.toNat_ofNat', Nat.mod_eq_of_lt h]
  have tail : ∀ n : ℕ, isCont (UInt8.ofNat (n % 0x40 + 0x80)) = true := fun n => by
    rw [isCont_iff, byte _ (by omega)]
    omega
  unfold String.utf8EncodeChar
  dsimp only
  split
  · exact Or.inl ⟨_, rfl, by rw [byte _ (by omega)]; omega⟩
  · right
    split
    · refine ⟨_, _, rfl, by rw [byte _ (by omega)]; omega, ?_⟩
      simp only [List.mem_cons, List.not_mem_nil, or_false, forall_eq, tail]
    · split
      · refine ⟨_, _, rfl, by rw [byte _ (by omega)]; omega, ?_⟩
        simp only [List.mem_cons, List.not_mem_nil, or_false, forall_eq_or_imp, forall_eq, tail,
          and_self]
      · refine ⟨_, _, rfl, by rw [byte _ (by omega)]; omega, ?_⟩
        simp only [List.mem_cons, List.not_mem_nil, or_false, forall_eq_or_imp, forall_eq, tail,
          and_self]

/-! ## Decoding -/

/-- What a lead byte announces: the number of continuation bytes, and the range
of the first of them. -/
def leadByte (a : ℕ) : Option (ℕ × ℕ × ℕ) :=
  if a < 0x80 then some (0, 0x80, 0xbf)
  else if 0xc2 ≤ a ∧ a ≤ 0xdf then some (1, 0x80, 0xbf)
  else if a = 0xe0 then some (2, 0xa0, 0xbf)
  else if a = 0xed then some (2, 0x80, 0x9f)
  else if 0xe1 ≤ a ∧ a ≤ 0xef then some (2, 0x80, 0xbf)
  else if a = 0xf0 then some (3, 0x90, 0xbf)
  else if a = 0xf4 then some (3, 0x80, 0x8f)
  else if 0xf1 ≤ a ∧ a ≤ 0xf3 then some (3, 0x80, 0xbf)
  else none

/-- The first code point of a byte string, if one is encoded there, and the
bytes after it. -/
def decodeChar : List UInt8 → Option (Char × List UInt8)
  | [] => none
  | a :: t =>
    match leadByte a.toNat with
    | none => none
    | some (n, lo, hi) =>
      let tail := (t.take n).map UInt8.toNat
      let bits := if n = 0 then a.toNat else a.toNat % 2 ^ (6 - n)
      if tail.length = n ∧ (t.take n).all isCont ∧ tail.head?.all (fun b => lo ≤ b && b ≤ hi) then
        some (Char.ofNat (tail.foldl (fun v b => v * 64 + b % 64) bits), t.drop n)
      else none

/-- Decoding consumes at least one byte. -/
theorem decodeChar_length {bs rest : List UInt8} {c : Char}
    (h : decodeChar bs = some (c, rest)) : rest.length < bs.length := by
  rcases bs with _ | ⟨a, t⟩
  · simp [decodeChar] at h
  · rcases hl : leadByte a.toNat with _ | ⟨n, lo, hi⟩
    · simp [decodeChar, hl] at h
    · simp only [decodeChar, hl] at h
      split at h
      · obtain ⟨-, rfl⟩ := Prod.mk.inj (Option.some.inj h)
        simp only [List.length_drop, List.length_cons]
        omega
      · exact absurd h (by simp)

/-- Decoding reads a nonempty piece and does not look at what follows it. -/
theorem decodeChar_eq_some {bs rest : List UInt8} {c : Char}
    (h : decodeChar bs = some (c, rest)) :
    ∃ pre, bs = pre ++ rest ∧ ∀ x, decodeChar (pre ++ x) = some (c, x) := by
  rcases bs with _ | ⟨a, t⟩
  · simp [decodeChar] at h
  · rcases hl : leadByte a.toNat with _ | ⟨n, lo, hi⟩
    · simp [decodeChar, hl] at h
    · simp only [decodeChar, hl] at h
      split at h
      · next hok =>
        obtain ⟨rfl, rfl⟩ := Prod.mk.inj (Option.some.inj h)
        have hlen : (t.take n).length = n := by simpa using hok.1
        have htake : ∀ x, (t.take n ++ x).take n = t.take n := fun x => by
          rw [List.take_append_of_le_length (by omega), List.take_take, Nat.min_self]
        have hdrop : ∀ x, (t.take n ++ x).drop n = x := fun x =>
          List.drop_left' hlen
        refine ⟨a :: t.take n, by simp, fun x => ?_⟩
        simp only [List.cons_append, decodeChar, hl]
        rw [htake, hdrop, if_pos hok]
      · exact absurd h (by simp)

/-- What decoding a complete sequence gives. -/
theorem decodeChar_cons {a : UInt8} {t : List UInt8} (lo hi : ℕ)
    (hl : leadByte a.toNat = some (t.length, lo, hi)) (ht : t.all isCont)
    (hr : t.head?.all (fun b => lo ≤ b.toNat && b.toNat ≤ hi)) (x : List UInt8) :
    decodeChar (a :: t ++ x) =
      some (Char.ofNat ((t.map UInt8.toNat).foldl (fun v b => v * 64 + b % 64)
        (if t.length = 0 then a.toNat else a.toNat % 2 ^ (6 - t.length))), x) := by
  simp only [List.cons_append, decodeChar, hl, List.take_left, List.drop_left, List.length_map]
  rw [if_pos]
  refine ⟨trivial, ht, ?_⟩
  cases t with
  | nil => simp
  | cons b t => simpa using hr

/-! ### A character and its bytes -/

theorem leadByte_two {n : ℕ} (h : 0x80 ≤ n) (h' : n ≤ 0x7ff) :
    leadByte (n / 64 + 0xc0) = some (1, 0x80, 0xbf) := by
  unfold leadByte
  rw [if_neg (by omega), if_pos (by omega)]

/-- The lead byte of a three-byte sequence admits the byte that comes second. -/
theorem leadByte_three {n : ℕ} (h : 0x800 ≤ n) (h' : n ≤ 0xffff)
    (hs : n < 0xd800 ∨ 0xdfff < n) :
    ∃ lo hi, leadByte (n / 4096 + 0xe0) = some (2, lo, hi) ∧
      lo ≤ n / 64 % 64 + 0x80 ∧ n / 64 % 64 + 0x80 ≤ hi := by
  unfold leadByte
  split_ifs <;> first | omega | exact ⟨_, _, rfl, by omega, by omega⟩

theorem leadByte_four {n : ℕ} (h : 0x10000 ≤ n) (h' : n ≤ 0x10ffff) :
    ∃ lo hi, leadByte (n / 262144 + 0xf0) = some (3, lo, hi) ∧
      lo ≤ n / 4096 % 64 + 0x80 ∧ n / 4096 % 64 + 0x80 ≤ hi := by
  unfold leadByte
  split_ifs <;> first | omega | exact ⟨_, _, rfl, by omega, by omega⟩

/-- **Decoding inverts encoding.** -/
theorem decodeChar_encode (c : Char) (x : List UInt8) :
    decodeChar (String.utf8EncodeChar c ++ x) = some (c, x) := by
  have byte : ∀ n : ℕ, n < 256 → (UInt8.ofNat n).toNat = n := fun n h => by
    rw [UInt8.toNat_ofNat', Nat.mod_eq_of_lt h]
  have hc : Char.ofNat c.val.toNat = c := Char.ofNat_toNat c
  have hv : c.val.toNat < 0xd800 ∨ 0xdfff < c.val.toNat ∧ c.val.toNat < 0x110000 := c.valid
  have tail : ∀ n : ℕ, isCont (UInt8.ofNat (n % 64 + 0x80)) = true := fun n => by
    rw [isCont_iff, byte _ (by omega)]
    omega
  unfold String.utf8EncodeChar
  dsimp only
  generalize c.val.toNat = n at hv hc ⊢
  split_ifs with h1 h2 h3
  · -- one byte
    rw [decodeChar_cons 0x80 0xbf
      (by rw [byte _ (by omega), leadByte, if_pos (by omega)]; rfl) rfl rfl,
      List.length_nil, if_pos rfl, byte _ (by omega)]
    simp [hc]
  · -- two bytes
    rw [show n / 64 % 32 = n / 64 by omega, decodeChar_cons 0x80 0xbf
      (by rw [byte _ (by omega), leadByte_two (by omega) h2]; rfl)
      (by simp only [List.all_cons, List.all_nil, tail, Bool.and_self])
      (by
        simp only [List.head?_cons, Option.all_some, byte _ (show n % 64 + 0x80 < 256 by omega)]
        simp only [Bool.and_eq_true, decide_eq_true_eq]
        omega)]
    simp only [List.map_cons, List.map_nil, List.foldl_cons, List.foldl_nil, List.length_cons,
      List.length_nil, byte _ (show n / 64 + 0xc0 < 256 by omega),
      byte _ (show n % 64 + 0x80 < 256 by omega)]
    rw [if_neg (by omega), ← hc]
    congr 3
    omega
  · -- three bytes
    obtain ⟨lo, hi, hl, hlo, hhi⟩ := leadByte_three (n := n) (by omega) h3 (by omega)
    rw [show n / 4096 % 16 = n / 4096 by omega, decodeChar_cons lo hi
      (by rw [byte _ (by omega), hl]; rfl)
      (by simp only [List.all_cons, List.all_nil, tail, Bool.and_self])
      (by
        simp only [List.head?_cons, Option.all_some,
          byte _ (show n / 64 % 64 + 0x80 < 256 by omega)]
        simp only [Bool.and_eq_true, decide_eq_true_eq]
        omega)]
    simp only [List.map_cons, List.map_nil, List.foldl_cons, List.foldl_nil, List.length_cons,
      List.length_nil, byte _ (show n / 4096 + 0xe0 < 256 by omega),
      byte _ (show n / 64 % 64 + 0x80 < 256 by omega),
      byte _ (show n % 64 + 0x80 < 256 by omega)]
    rw [if_neg (by omega), ← hc]
    congr 3
    omega
  · -- four bytes
    obtain ⟨lo, hi, hl, hlo, hhi⟩ := leadByte_four (n := n) (by omega) (by omega)
    rw [show n / 262144 % 8 = n / 262144 by omega, decodeChar_cons lo hi
      (by rw [byte _ (by omega), hl]; rfl)
      (by simp only [List.all_cons, List.all_nil, tail, Bool.and_self])
      (by
        simp only [List.head?_cons, Option.all_some,
          byte _ (show n / 4096 % 64 + 0x80 < 256 by omega)]
        simp only [Bool.and_eq_true, decide_eq_true_eq]
        omega)]
    simp only [List.map_cons, List.map_nil, List.foldl_cons, List.foldl_nil, List.length_cons,
      List.length_nil, byte _ (show n / 262144 + 0xf0 < 256 by omega),
      byte _ (show n / 4096 % 64 + 0x80 < 256 by omega),
      byte _ (show n / 64 % 64 + 0x80 < 256 by omega),
      byte _ (show n % 64 + 0x80 < 256 by omega)]
    rw [if_neg (by omega), ← hc]
    congr 3
    omega

/-! ### The valid prefix -/

/-- The longest valid prefix: its code points and its length in bytes. -/
def validPrefix (bs : List UInt8) : List Char × ℕ :=
  match _h : decodeChar bs with
  | none => ([], 0)
  | some (c, rest) => (c :: (validPrefix rest).1, bs.length - rest.length + (validPrefix rest).2)
termination_by bs.length
decreasing_by all_goals exact decodeChar_length _h

/-- The valid prefix is a prefix. -/
theorem validPrefix_le (bs : List UInt8) : (validPrefix bs).2 ≤ bs.length := by
  fun_induction validPrefix bs with
  | case1 bs h => simp
  | case2 bs c rest h ih =>
    have := decodeChar_length h
    show bs.length - rest.length + (validPrefix rest).2 ≤ bs.length
    omega

/-- The valid prefix is valid. -/
theorem validPrefix_take (bs : List UInt8) :
    validPrefix (bs.take (validPrefix bs).2) = validPrefix bs := by
  fun_induction validPrefix bs with
  | case1 bs h => simp [validPrefix, decodeChar]
  | case2 bs c rest h ih =>
    obtain ⟨pre, rfl, hpre⟩ := decodeChar_eq_some h
    rw [List.length_append, Nat.add_sub_cancel, List.take_length_add_append]
    rw [validPrefix]
    split
    · next he => simp [hpre] at he
    · next c' rest' he =>
      rw [hpre] at he
      obtain ⟨rfl, rfl⟩ := Prod.mk.inj (Option.some.inj he)
      rw [ih]
      simp

theorem validPrefix_encode (cs : List Char) :
    validPrefix (cs.flatMap String.utf8EncodeChar) =
      (cs, (cs.flatMap String.utf8EncodeChar).length) := by
  induction cs with
  | nil => simp [validPrefix, decodeChar]
  | cons c cs ih =>
    rw [List.flatMap_cons, validPrefix]
    split
    · next he => simp [decodeChar_encode] at he
    · next c' rest he =>
      rw [decodeChar_encode] at he
      obtain ⟨rfl, rfl⟩ := Prod.mk.inj (Option.some.inj he)
      rw [ih]
      simp

/-! ### Strict decoding -/

/-- `core::str::from_utf8`: the decoded text, or `valid_up_to`. -/
def fromUtf8 (bs : List UInt8) : Except ℕ String :=
  if (validPrefix bs).2 = bs.length then .ok (String.ofList (validPrefix bs).1)
  else .error (validPrefix bs).2

/-- **A text is read back from its bytes.** -/
theorem fromUtf8_utf8 (s : String) : fromUtf8 (utf8 s) = .ok s := by
  rw [fromUtf8, utf8, validPrefix_encode, if_pos rfl, String.ofList_toList]

/-- The bytes up to `valid_up_to` are valid. -/
theorem fromUtf8_take (bs : List UInt8) :
    fromUtf8 (bs.take (validPrefix bs).2) = .ok (String.ofList (validPrefix bs).1) := by
  rw [fromUtf8, validPrefix_take, if_pos]
  rw [List.length_take, Nat.min_eq_left (validPrefix_le bs)]

/-! ### Prefixes of a text -/

/-- Valid bytes do not change how the bytes behind them are read. -/
theorem validPrefix_append {bs : List UInt8} (x : List UInt8)
    (h : (validPrefix bs).2 = bs.length) :
    validPrefix (bs ++ x) =
      ((validPrefix bs).1 ++ (validPrefix x).1, bs.length + (validPrefix x).2) := by
  fun_induction validPrefix bs with
  | case1 bs hnone =>
    obtain rfl : bs = [] := List.eq_nil_of_length_eq_zero h.symm
    simp
  | case2 bs c rest hsome ih =>
    obtain ⟨pre, rfl, hpre⟩ := decodeChar_eq_some hsome
    have hlen := decodeChar_length hsome
    simp only [List.length_append] at h hlen
    rw [List.append_assoc, validPrefix]
    split
    · next he => simp [hpre] at he
    · next c' rest' he =>
      rw [hpre] at he
      obtain ⟨rfl, rfl⟩ := Prod.mk.inj (Option.some.inj he)
      rw [ih (by omega)]
      simp only [List.cons_append, List.length_append, Prod.mk.injEq, true_and]
      omega

/-- A code point takes bytes, and bytes that were read are a code point. -/
theorem validPrefix_eq_nil {bs : List UInt8} (h : (validPrefix bs).1 = []) :
    (validPrefix bs).2 = 0 := by
  fun_induction validPrefix bs with
  | case1 bs hnone => rfl
  | case2 bs c rest hsome ih => cases h

/-- More bytes are a longer text. -/
theorem fromUtf8_append_eq {bs x : List UInt8} {s : String} (h : fromUtf8 bs = .ok s)
    (hx : fromUtf8 (bs ++ x) = .ok s) : x = [] := by
  rw [fromUtf8] at h hx
  split at h
  · next hbs =>
    rw [validPrefix_append x hbs] at hx
    split at hx
    · next hlen =>
      have hchars := (Except.ok.inj hx).trans (Except.ok.inj h).symm
      have hcs := congrArg String.toList hchars
      rw [String.toList_ofList, String.toList_ofList, List.append_right_eq_self] at hcs
      rw [validPrefix_eq_nil hcs, List.length_append] at hlen
      exact List.eq_nil_of_length_eq_zero (by omega)
    · cases hx
  · cases h

/-! ### ASCII in a text -/

/-- The bytes of one code point: the ones after the first are continuation bytes, and an
ASCII byte has none after it. -/
theorem decodeChar_bytes {bs rest : List UInt8} {c : Char} (h : decodeChar bs = some (c, rest)) :
    ∃ a t, bs = a :: t ++ rest ∧ (∀ y ∈ t, isCont y = true) ∧
      (a.toNat < 0x80 → t = [] ∧ c = Char.ofNat a.toNat) := by
  rcases bs with _ | ⟨a, t⟩
  · simp [decodeChar] at h
  · rcases hl : leadByte a.toNat with _ | ⟨n, lo, hi⟩
    · simp [decodeChar, hl] at h
    · simp only [decodeChar, hl] at h
      split at h
      · next hok =>
        obtain ⟨rfl, rfl⟩ := Prod.mk.inj (Option.some.inj h)
        refine ⟨a, t.take n, by simp, List.all_eq_true.mp hok.2.1, fun hascii => ?_⟩
        have hn : n = 0 := by
          rw [leadByte, if_pos hascii] at hl
          exact (Prod.mk.inj (Option.some.inj hl)).1.symm
        subst hn
        exact ⟨rfl, rfl⟩
      · cases h

/-- An ASCII byte is read as its own character. -/
theorem decodeChar_ascii {b : UInt8} (hb : b.toNat < 0x80) (y : List UInt8) :
    decodeChar (b :: y) = some (Char.ofNat b.toNat, y) := by
  have hl : leadByte b.toNat = some (0, 0x80, 0xbf) := by rw [leadByte, if_pos hb]
  exact decodeChar_cons (t := []) 0x80 0xbf hl rfl rfl y

/-- What stands before an ASCII byte in valid bytes is valid. -/
theorem validPrefix_before_ascii {x y : List UInt8} {b : UInt8} (hb : b.toNat < 0x80)
    (h : (validPrefix (x ++ b :: y)).2 = (x ++ b :: y).length) :
    (validPrefix x).2 = x.length := by
  fun_induction validPrefix x with
  | case1 x hnone =>
    -- no code point starts here, so there is nothing here
    rcases x with _ | ⟨a, t⟩
    · rfl
    exfalso
    rw [validPrefix] at h
    split at h
    · simp at h
    · next c rest hsome =>
      obtain ⟨a', t', heq, hcont, hascii⟩ := decodeChar_bytes hsome
      obtain ⟨pre, hpre, hread⟩ := decodeChar_eq_some hsome
      obtain rfl : pre = a' :: t' := List.append_cancel_right (hpre.symm.trans heq)
      obtain ⟨z, hz, hrest⟩ | ⟨z, hz, -⟩ := List.append_eq_append_iff.mp heq
      · -- the code point would go over the ASCII byte
        rcases z with _ | ⟨d, z⟩
        · rw [List.append_nil] at hz
          have hread' := hread []
          rw [List.append_nil, hz, hnone] at hread'
          cases hread'
        · obtain ⟨-, rfl⟩ := List.cons_eq_cons.mp hz
          obtain ⟨rfl, -⟩ := List.cons_eq_cons.mp hrest
          have hmem := hcont b (List.mem_append_right t (List.mem_cons_self ..))
          rw [isCont_eq_false (.inl hb)] at hmem
          cases hmem
      · rw [hz, hread z] at hnone
        cases hnone
  | case2 x c rest hsome ih =>
    obtain ⟨pre, rfl, hpre⟩ := decodeChar_eq_some hsome
    have hlen := decodeChar_length hsome
    rw [List.append_assoc, validPrefix] at h
    split at h
    · next he => simp [hpre] at he
    · next c' rest' he =>
      rw [hpre] at he
      obtain ⟨rfl, rfl⟩ := Prod.mk.inj (Option.some.inj he)
      simp only [List.length_append, List.length_cons] at h hlen ih ⊢
      have := ih (by omega)
      omega

/-- **Valid bytes are split at an ASCII byte** as their text is at its character. -/
theorem fromUtf8_split_ascii {x y : List UInt8} {b : UInt8} (hb : b.toNat < 0x80) {s : String}
    (h : fromUtf8 (x ++ b :: y) = .ok s) :
    ∃ before after, fromUtf8 x = .ok before ∧ fromUtf8 y = .ok after ∧
      s.toList = before.toList ++ Char.ofNat b.toNat :: after.toList := by
  rw [fromUtf8] at h
  split at h
  · next hall =>
    have hx := validPrefix_before_ascii hb hall
    have hcons : validPrefix (b :: y) =
        (Char.ofNat b.toNat :: (validPrefix y).1, 1 + (validPrefix y).2) := by
      rw [validPrefix]
      split
      · next hnone => rw [decodeChar_ascii hb] at hnone; cases hnone
      · next c rest hsome =>
        rw [decodeChar_ascii hb] at hsome
        obtain ⟨rfl, rfl⟩ := Prod.mk.inj (Option.some.inj hsome)
        rw [List.length_cons, Nat.add_sub_cancel_left]
    rw [validPrefix_append _ hx, hcons] at h hall
    have hy : (validPrefix y).2 = y.length := by
      simp only [List.length_append, List.length_cons] at hall
      omega
    refine ⟨String.ofList (validPrefix x).1, String.ofList (validPrefix y).1, ?_, ?_, ?_⟩
    · rw [fromUtf8, if_pos hx]
    · rw [fromUtf8, if_pos hy]
    · rw [← Except.ok.inj h]
      simp
  · cases h

/-! ### Lossy decoding -/

/-- The length of the ill-formed piece at the head of a byte string that does not
start with a code point: the longest part that could have begun one, or one byte. -/
def illFormedLength : List UInt8 → ℕ
  | [] => 0
  | a :: t =>
    match leadByte a.toNat with
    | none => 1
    | some (n, lo, hi) =>
      match t.take n with
      | b :: t' => if lo ≤ b.toNat && b.toNat ≤ hi then 2 + (t'.takeWhile isCont).length else 1
      | [] => 1

/-- Decode what is well-formed and put `U+FFFD` for each ill-formed piece, in at most
so many steps. -/
def lossyLoop : ℕ → List UInt8 → List Char
  | 0, _ => []
  | _ + 1, [] => []
  | fuel + 1, b :: bs =>
    match decodeChar (b :: bs) with
    | some (c, rest) => c :: lossyLoop fuel rest
    | none => Char.ofNat 0xfffd :: lossyLoop fuel ((b :: bs).drop (illFormedLength (b :: bs)))

/-- `String::from_utf8_lossy`; every step takes a byte at least. -/
def fromUtf8Lossy (bs : List UInt8) : String := String.ofList (lossyLoop bs.length bs)

theorem lossyLoop_encode (cs : List Char) (fuel : ℕ) :
    (cs.flatMap String.utf8EncodeChar).length ≤ fuel →
      lossyLoop fuel (cs.flatMap String.utf8EncodeChar) = cs := by
  induction cs generalizing fuel with
  | nil => cases fuel <;> simp [lossyLoop]
  | cons c cs ih =>
    intro hfuel
    have hne : String.utf8EncodeChar c ≠ [] := by
      rcases utf8EncodeChar_cases c with ⟨x, hx, -⟩ | ⟨x, ys, hx, -, -⟩ <;> simp [hx]
    rw [List.flatMap_cons] at hfuel ⊢
    obtain ⟨b, bs, hb⟩ := List.exists_cons_of_ne_nil hne
    have hdec := decodeChar_encode c (cs.flatMap String.utf8EncodeChar)
    rw [hb] at hfuel hdec ⊢
    cases fuel with
    | zero => simp at hfuel
    | succ fuel =>
      rw [List.cons_append] at hfuel hdec ⊢
      rw [lossyLoop, hdec]
      simp only [List.length_cons, List.length_append] at hfuel
      simp only [ih fuel (by omega)]

/-- **Lossy decoding of a text loses nothing.** -/
theorem fromUtf8Lossy_utf8 (s : String) : fromUtf8Lossy (utf8 s) = s := by
  rw [fromUtf8Lossy, utf8, lossyLoop_encode _ _ le_rfl, String.ofList_toList]

/-- Lossy decoding keeps valid bytes as they are. -/
theorem fromUtf8Lossy_of_valid {bs : List UInt8} {s : String} (h : fromUtf8 bs = .ok s) :
    fromUtf8Lossy bs = s := by
  have hloop : ∀ fuel, bs.length ≤ fuel → (validPrefix bs).2 = bs.length →
      lossyLoop fuel bs = (validPrefix bs).1 := by
    clear h
    fun_induction validPrefix bs with
    | case1 bs hnone =>
      intro fuel _ hlen
      obtain rfl : bs = [] := List.eq_nil_of_length_eq_zero hlen.symm
      cases fuel with
      | zero => rfl
      | succ fuel => rfl
    | case2 bs c rest hsome ih =>
      intro fuel hfuel hlen
      have hlt := decodeChar_length hsome
      cases bs with
      | nil => simp at hlt
      | cons b bs =>
        cases fuel with
        | zero => simp at hfuel
        | succ fuel =>
          rw [List.length_cons] at hfuel hlt
          have hrest := ih fuel (by omega) (by rw [List.length_cons] at hlen; omega)
          simp only [lossyLoop, hsome, hrest]
  rw [fromUtf8] at h
  split at h
  · next hall =>
    rw [fromUtf8Lossy, hloop _ le_rfl hall]
    exact Except.ok.inj h
  · cases h

/-! ### ASCII -/

/-- A character below 128 is its own byte. -/
theorem utf8EncodeChar_ascii {c : Char} (h : c.toNat < 0x80) :
    String.utf8EncodeChar c = [UInt8.ofNat c.toNat] := by
  unfold String.utf8EncodeChar
  dsimp only
  rw [if_pos (show c.val.toNat ≤ 0x7f by change c.toNat ≤ 0x7f; omega)]
  rfl

/-- A byte below 128 is the encoding of its character. -/
theorem utf8EncodeChar_ofNat {b : UInt8} (h : b.toNat < 0x80) :
    String.utf8EncodeChar (Char.ofNat b.toNat) = [b] := by
  have hchar : ∀ n < 0x80, (Char.ofNat n).toNat = n := by decide
  rw [utf8EncodeChar_ascii (by rw [hchar _ h]; exact h), hchar _ h, UInt8.ofNat_toNat]

/-- An ASCII byte in the encoding of a text is a character of it. -/
theorem mem_of_ascii_mem_utf8 {s : String} {b : UInt8} (hb : b.toNat < 0x80)
    (h : b ∈ utf8 s) : Char.ofNat b.toNat ∈ s.toList := by
  obtain ⟨c, hc, hbc⟩ := List.mem_flatMap.mp h
  rcases utf8EncodeChar_cases c with ⟨x, hx, hlt⟩ | ⟨x, ys, hx, hge, hys⟩
  · -- the only byte, so the character is below 128 and is the byte
    have hsmall : c.toNat < 0x80 := by
      unfold String.utf8EncodeChar at hx
      dsimp only at hx
      split at hx
      · next hle => exact Nat.lt_succ_of_le hle
      · split at hx
        · simp at hx
        · split at hx <;> simp at hx
    rw [utf8EncodeChar_ascii hsmall, List.mem_singleton] at hbc
    have hnat : b.toNat = c.toNat := by
      rw [hbc, UInt8.toNat_ofNat', Nat.mod_eq_of_lt (by omega)]
    rw [hnat, Char.ofNat_toNat]
    exact hc
  · rw [hx] at hbc
    rcases List.mem_cons.mp hbc with rfl | hmem
    · omega
    · have := (isCont_iff.mp (hys b hmem)).1
      omega

/-- A text of ASCII characters, as bytes. -/
theorem utf8_ascii {cs : List Char} (h : ∀ c ∈ cs, c.toNat < 0x80) :
    utf8 (String.ofList cs) = cs.map fun c => UInt8.ofNat c.toNat := by
  rw [utf8, String.toList_ofList]
  induction cs with
  | nil => rfl
  | cons c cs ih =>
    rw [List.flatMap_cons, utf8EncodeChar_ascii (h c (by simp)),
      ih fun d hd => h d (List.mem_cons_of_mem c hd)]
    rfl

theorem utf8_append (s t : String) : utf8 (s ++ t) = utf8 s ++ utf8 t := by
  simp [utf8]

/-- The UTF-8 bytes of characters. -/
def bytes (cs : List Char) : List UInt8 := cs.flatMap String.utf8EncodeChar

theorem utf8_ofList (cs : List Char) : utf8 (String.ofList cs) = bytes cs := by
  rw [utf8, String.toList_ofList, bytes]

theorem bytes_append (cs ds : List Char) : bytes (cs ++ ds) = bytes cs ++ bytes ds :=
  List.flatMap_append

/-- A byte per ASCII character. -/
theorem bytes_cons {c : Char} (h : c.toNat < 0x80) (cs : List Char) :
    bytes (c :: cs) = UInt8.ofNat c.toNat :: bytes cs := by
  rw [bytes, List.flatMap_cons, utf8EncodeChar_ascii h]
  rfl

theorem bytes_ascii {cs : List Char} (h : ∀ c ∈ cs, c.toNat < 0x80) :
    bytes cs = cs.map fun c => UInt8.ofNat c.toNat := by
  rw [← utf8_ofList, utf8_ascii h]

/-- ASCII bytes are the bytes of their characters. -/
theorem bytes_map_ofNat {bs : List UInt8} (h : ∀ b ∈ bs, b.toNat < 0x80) :
    bytes (bs.map fun b => Char.ofNat b.toNat) = bs := by
  induction bs with
  | nil => rfl
  | cons b bs ih =>
    rw [List.map_cons, bytes, List.flatMap_cons, utf8EncodeChar_ofNat (h b List.mem_cons_self)]
    exact congrArg (b :: ·) (ih fun c hc => h c (List.mem_cons_of_mem b hc))

/-- Characters before a valid text are read back with it. -/
theorem fromUtf8_bytes_append (cs : List Char) {x : List UInt8} {s : String}
    (h : fromUtf8 x = .ok s) : fromUtf8 (bytes cs ++ x) = .ok (String.ofList cs ++ s) := by
  have hvalid : validPrefix (bytes cs) = (cs, (bytes cs).length) := validPrefix_encode cs
  have happend := validPrefix_append x (show (validPrefix (bytes cs)).2 = (bytes cs).length by
    rw [hvalid])
  rw [fromUtf8] at h
  by_cases hx : (validPrefix x).2 = x.length
  · rw [if_pos hx] at h
    rw [fromUtf8, happend, hvalid, List.length_append, if_pos (by omega), String.ofList_append,
      Except.ok.inj h]
  · rw [if_neg hx] at h
    cases h

/-- Characters before an invalid text do not mend it. -/
theorem fromUtf8_bytes_append_error (cs : List Char) {x : List UInt8} {n : ℕ}
    (h : fromUtf8 x = .error n) : ∃ m, fromUtf8 (bytes cs ++ x) = .error m := by
  have hvalid : validPrefix (bytes cs) = (cs, (bytes cs).length) := validPrefix_encode cs
  have happend := validPrefix_append x (show (validPrefix (bytes cs)).2 = (bytes cs).length by
    rw [hvalid])
  rw [fromUtf8] at h
  by_cases hx : (validPrefix x).2 = x.length
  · rw [if_pos hx] at h
    cases h
  · refine ⟨(bytes cs).length + (validPrefix x).2, ?_⟩
    rw [fromUtf8, happend, hvalid, List.length_append, if_neg (by omega)]

/-! ## Character boundaries -/

/-- `str::is_char_boundary`: an offset that does not fall on a continuation byte. -/
def isCharBoundary (b : List UInt8) (i : ℕ) : Bool :=
  match b[i]? with
  | some c => !isCont c
  | none => i = b.length

theorem isCharBoundary_iff {b : List UInt8} {i : ℕ} :
    isCharBoundary b i = true ↔ i = b.length ∨ ∃ c, b[i]? = some c ∧ isCont c = false := by
  unfold isCharBoundary
  rcases h : b[i]? with _ | c
  · simp
  · have hi : i ≠ b.length := by
      rintro rfl
      simp at h
    simp [hi]

/-- An offset that holds an ASCII byte is a boundary. -/
theorem isCharBoundary_of_ascii {b : List UInt8} {i : ℕ} {c : UInt8}
    (hc : b[i]? = some c) (h : c.toNat < 0x80) : isCharBoundary b i = true :=
  isCharBoundary_iff.mpr (Or.inr ⟨c, hc, isCont_eq_false (Or.inl h)⟩)

/-- `b[i..j]` of a string slice. -/
def strSlice {ε : Type} (b : List UInt8) (i j : ℕ) : Outcome ε (List UInt8) :=
  if i ≤ j ∧ isCharBoundary b i ∧ isCharBoundary b j then .ok ((b.drop i).take (j - i))
  else .panic

theorem strSlice_eq_ok {ε : Type} {b : List UInt8} {i j : ℕ} (hij : i ≤ j)
    (hi : isCharBoundary b i = true) (hj : isCharBoundary b j = true) :
    (strSlice b i j : Outcome ε (List UInt8)) = .ok ((b.drop i).take (j - i)) :=
  if_pos ⟨hij, hi, hj⟩

/-- The first byte of an encoded text is no continuation byte. -/
theorem isCont_head_eq_false (cs : List Char) (y : UInt8)
    (hy : (cs.flatMap String.utf8EncodeChar)[0]? = some y) : isCont y = false := by
  rcases cs with _ | ⟨c, cs⟩
  · simp at hy
  · rw [List.flatMap_cons] at hy
    rcases utf8EncodeChar_cases c with ⟨x, hx, hlt⟩ | ⟨x, ys, hx, hle, -⟩
    · rw [hx] at hy
      obtain rfl : x = y := by simpa using hy
      exact isCont_eq_false (Or.inl hlt)
    · rw [hx] at hy
      obtain rfl : x = y := by simpa using hy
      exact isCont_eq_false (Or.inr hle)

/-- In an encoded text the byte after an ASCII byte is no continuation byte. -/
theorem isCont_after_ascii_eq_false (cs : List Char) :
    ∀ (i : ℕ) (x y : UInt8), (cs.flatMap String.utf8EncodeChar)[i]? = some x → x.toNat < 0x80 →
      (cs.flatMap String.utf8EncodeChar)[i + 1]? = some y → isCont y = false := by
  induction cs with
  | nil => simp
  | cons c cs ih =>
    intro i x y hx hlt hy
    rw [List.flatMap_cons] at hx hy
    rcases utf8EncodeChar_cases c with ⟨a, ha, -⟩ | ⟨a, ys, ha, hle, hys⟩
    · rw [ha, List.singleton_append] at hx hy
      rcases i with _ | i
      · exact isCont_head_eq_false cs y (by simpa using hy)
      · exact ih i x y (by simpa using hx) hlt (by simpa using hy)
    · rw [ha] at hx hy
      by_cases hi : i < (a :: ys).length
      · -- no byte of a multi-byte sequence is ASCII
        exfalso
        rw [List.getElem?_append_left hi] at hx
        rcases List.mem_cons.mp (List.mem_of_getElem? hx) with rfl | hmem
        · omega
        · have := (isCont_iff.mp (hys x hmem)).1
          omega
      · rw [List.getElem?_append_right (by omega)] at hx hy
        refine ih (i - (a :: ys).length) x y hx hlt ?_
        rw [show i - (a :: ys).length + 1 = i + 1 - (a :: ys).length by omega]
        exact hy

/-- **After an ASCII byte comes a character boundary.** -/
theorem isCharBoundary_succ_of_ascii {s : String} {i : ℕ} {c : UInt8}
    (hc : (utf8 s)[i]? = some c) (h : c.toNat < 0x80) :
    isCharBoundary (utf8 s) (i + 1) = true := by
  rw [isCharBoundary_iff]
  rcases hy : (utf8 s)[i + 1]? with _ | y
  · have h1 := (List.getElem?_eq_some_iff.mp hc).1
    have h2 := List.getElem?_eq_none_iff.mp hy
    exact Or.inl (by omega)
  · exact Or.inr ⟨y, rfl, isCont_after_ascii_eq_false s.toList i c y hc h hy⟩

/-- The start of a text is a boundary. -/
theorem isCharBoundary_zero (s : String) : isCharBoundary (utf8 s) 0 = true := by
  rw [isCharBoundary_iff]
  rcases hy : (utf8 s)[0]? with _ | y
  · have := List.getElem?_eq_none_iff.mp hy
    exact Or.inl (by omega)
  · exact Or.inr ⟨y, rfl, isCont_head_eq_false s.toList y hy⟩

/-! ## Decimal integers -/

def isDigit (c : Char) : Bool := '0' ≤ c && c ≤ '9'

/-- The value of a string of digits. -/
def digitsVal (ds : List Char) : ℕ := ds.foldl (fun a c => a * 10 + (c.toNat - '0'.toNat)) 0

/-- A nonempty string of digits. -/
def parseDigits (ds : List Char) : Option ℕ :=
  if ds ≠ [] && ds.all isDigit then some (digitsVal ds) else none

/-- `str::parse::<i64>`: an optional sign and digits, within range. -/
def parseI64 (s : String) : Option Int64 :=
  match s.toList with
  | '-' :: ds => (parseDigits ds).bind fun n =>
      if n ≤ 2 ^ 63 then some (Int64.ofInt (-n)) else none
  | '+' :: ds => (parseDigits ds).bind fun n =>
      if n < 2 ^ 63 then some (Int64.ofInt n) else none
  | ds => (parseDigits ds).bind fun n =>
      if n < 2 ^ 63 then some (Int64.ofInt n) else none

/-- `str::parse` for an unsigned type of so many bits: no minus sign. -/
def parseUnsigned (bits : ℕ) (s : String) : Option ℕ :=
  let digits := match s.toList with
    | '+' :: ds => ds
    | ds => ds
  (parseDigits digits).bind fun n => if n < 2 ^ bits then some n else none

/-- `str::parse::<usize>` on a 64-bit machine. -/
def parseUsize (s : String) : Option ℕ := parseUnsigned 64 s

/-! ## Trimming and splitting -/

/-- `char::is_whitespace`: the Unicode property `White_Space`. -/
def isWhitespace (c : Char) : Bool :=
  let n := c.toNat
  (9 ≤ n && n ≤ 13) || n = 0x20 || n = 0x85 || n = 0xa0 || n = 0x1680 ||
    (0x2000 ≤ n && n ≤ 0x200a) || n = 0x2028 || n = 0x2029 || n = 0x202f || n = 0x205f ||
    n = 0x3000

/-- `str::trim`. -/
def trim (s : String) : String :=
  String.ofList (((s.toList.dropWhile isWhitespace).reverse.dropWhile isWhitespace).reverse)

/-- Nothing is trimmed from a text without whitespace. -/
theorem trim_of_not_isWhitespace {s : String} (h : ∀ c ∈ s.toList, isWhitespace c = false) :
    trim s = s := by
  have hdrop : ∀ l : List Char, (∀ c ∈ l, isWhitespace c = false) →
      l.dropWhile isWhitespace = l := by
    intro l hl
    cases l with
    | nil => rfl
    | cons c l => rw [List.dropWhile_cons, hl c (by simp)]; rfl
  rw [trim, hdrop _ h, hdrop _ (fun c hc => h c (List.mem_reverse.mp hc)), List.reverse_reverse,
    String.ofList_toList]

/-- What stands in a text is whitespace, or stays when the text is trimmed. -/
theorem isWhitespace_or_mem_trim {s : String} {c : Char} (h : c ∈ s.toList) :
    isWhitespace c = true ∨ c ∈ (trim s).toList := by
  have hdrop : ∀ {l : List Char}, c ∈ l → isWhitespace c = true ∨ c ∈ l.dropWhile isWhitespace := by
    intro l hl
    rw [← List.takeWhile_append_dropWhile (p := isWhitespace) (l := l), List.mem_append] at hl
    exact hl.imp_left fun h => List.all_eq_true.mp List.all_takeWhile c h
  rcases hdrop h with hw | hmem
  · exact .inl hw
  · rcases hdrop (List.mem_reverse.mpr hmem) with hw | hmem
    · exact .inl hw
    · right
      rw [trim, String.toList_ofList]
      exact List.mem_reverse.mpr hmem

/-- Trimming takes whitespace only. -/
theorem filter_trim (s : String) :
    (trim s).toList.filter (!isWhitespace ·) = s.toList.filter (!isWhitespace ·) := by
  have hdrop : ∀ l : List Char,
      (l.dropWhile isWhitespace).filter (!isWhitespace ·) = l.filter (!isWhitespace ·) := by
    intro l
    induction l with
    | nil => rfl
    | cons c l ih =>
      rw [List.dropWhile_cons]
      cases h : isWhitespace c with
      | true =>
        rw [if_pos rfl, ih, List.filter_cons_of_neg (by rw [h]; decide)]
      | false => rfl
  rw [trim, String.toList_ofList, List.filter_reverse, hdrop, ← List.filter_reverse,
    List.reverse_reverse, hdrop]

/-- **What is appended to a text is trimmed away again** exactly if it is whitespace. -/
theorem trim_append_eq_iff (s t : List Char) :
    trim (String.ofList (s ++ t)) = trim (String.ofList s) ↔ ∀ c ∈ t, isWhitespace c = true := by
  constructor
  · intro h
    have hfilter := filter_trim (String.ofList (s ++ t))
    rw [h, filter_trim, String.toList_ofList, String.toList_ofList, List.filter_append,
      List.self_eq_append_right, List.filter_eq_nil_iff] at hfilter
    intro c hc
    simpa using hfilter c hc
  · intro h
    have hblank : ∀ l : List Char, (∀ c ∈ l, isWhitespace c = true) → ∀ r : List Char,
        (l ++ r).dropWhile isWhitespace = r.dropWhile isWhitespace := fun l hl r =>
      List.dropWhile_append_of_pos hl
    have hrev : ∀ c ∈ t.reverse, isWhitespace c = true := fun c hc => h c (List.mem_reverse.mp hc)
    rw [trim, trim, String.toList_ofList, String.toList_ofList, List.dropWhile_append]
    split
    · -- the whole text is whitespace
      next hs =>
      have ht := hblank t h []
      rw [List.append_nil] at ht
      rw [ht, List.isEmpty_iff.mp hs]
      rfl
    · rw [List.reverse_append, hblank _ hrev]

/-- `str::split` at a character. -/
def splitChar (sep : Char) (s : String) : List String :=
  (s.toList.splitOn sep).map String.ofList

end Text
