/-
# Base64 after RFC 4648

A group of up to four characters is a number in base 64, and the bytes that it stands for
are the digits of that number in base 256, without the bits that the padding leaves over.
`decode` is strict: padding ends the text, and the bits left over are zero.

`group_groupText` says that a group of one, two or three bytes is read back, and
`decode_append` that the groups are read one after the other.
-/
import Mathlib.Data.List.Basic
import Mathlib.Tactic.IntervalCases
import PySpell.Lib.Bytes

namespace Base64

/-! ## The alphabet -/

/-- The value of a character (Table 1). -/
def value (c : Char) : Option ℕ :=
  if 'A' ≤ c ∧ c ≤ 'Z' then some (c.toNat - 'A'.toNat)
  else if 'a' ≤ c ∧ c ≤ 'z' then some (c.toNat - 'a'.toNat + 26)
  else if '0' ≤ c ∧ c ≤ '9' then some (c.toNat - '0'.toNat + 52)
  else if c = '+' then some 62
  else if c = '/' then some 63
  else none

/-- The character of a value below 64. -/
def digit (n : ℕ) : Char :=
  "ABCDEFGHIJKLMNOPQRSTUVWXYZabcdefghijklmnopqrstuvwxyz0123456789+/".toList.getD n 'A'

theorem value_digit : ∀ n < 64, value (digit n) = some n := by
  decide +kernel

theorem digit_ne_pad : ∀ n < 64, digit n ≠ '=' := by
  decide +kernel

/-! ## Groups -/

/-- The number whose digits the characters are. -/
def number (cs : List Char) : Option ℕ :=
  cs.foldlM (fun n c => (value c).map fun v => n * 64 + v) 0

/-- The last `k` digits of a number. -/
def digits : ℕ → ℕ → List Char
  | 0, _ => []
  | k + 1, n => digits k (n / 64) ++ [digit (n % 64)]

@[simp] theorem length_digits (k n : ℕ) : (digits k n).length = k := by
  induction k generalizing n with
  | zero => rfl
  | succ k ih => rw [digits, List.length_append, ih, List.length_singleton]

/-- What is true of the characters of the alphabet is true of the digits. -/
theorem forall_mem_digits {p : Char → Prop} (hp : ∀ n < 64, p (digit n)) (k n : ℕ) :
    ∀ c ∈ digits k n, p c := by
  induction k generalizing n with
  | zero => exact fun _ hc => absurd hc List.not_mem_nil
  | succ k ih =>
    intro c hc
    rcases List.mem_append.mp hc with hc | hc
    · exact ih _ c hc
    · rw [List.mem_singleton.mp hc]
      exact hp _ (Nat.mod_lt n (by decide))

theorem digits_ne_pad (k n : ℕ) : ∀ c ∈ digits k n, c ≠ '=' := forall_mem_digits digit_ne_pad k n

theorem number_digits {k n : ℕ} (h : n < 64 ^ k) : number (digits k n) = some n := by
  induction k generalizing n with
  | zero =>
    obtain rfl : n = 0 := by simpa using h
    rfl
  | succ k ih =>
    have hdiv : n / 64 < 64 ^ k := by
      rw [Nat.div_lt_iff_lt_mul (by decide)]
      rwa [pow_succ] at h
    have hlast := value_digit (n % 64) (Nat.mod_lt n (by decide))
    have hn := ih hdiv
    rw [number] at hn
    rw [digits, number, List.foldlM_append, hn]
    simp only [Option.bind_eq_bind, Option.bind_some, List.foldlM_cons, List.foldlM_nil, hlast,
      Option.map_some, Option.pure_def, Nat.div_add_mod']

/-- The bytes of a group whose padding is cut off: two bits are left over for each of the
characters that are missing, and they are zero. -/
def group (cs : List Char) : Option (List UInt8) := do
  let n ← number cs
  let rest := 4 ^ (4 - cs.length)
  if n % rest = 0 then some (Bytes.ofNatBe (cs.length - 1) (n / rest)) else none

/-- The characters of one, two or three bytes. -/
def groupText (bs : List UInt8) : List Char :=
  digits (bs.length + 1) (Bytes.toNatBe bs * 4 ^ (3 - bs.length))

/-- **A group is read back.** -/
theorem group_groupText {bs : List UInt8} (h : bs.length ≤ 3) :
    group (groupText bs) = some bs := by
  have hlt : Bytes.toNatBe bs * 4 ^ (3 - bs.length) < 64 ^ (bs.length + 1) := by
    have hbase : 256 ^ bs.length * 4 ^ (3 - bs.length) ≤ 64 ^ (bs.length + 1) := by
      interval_cases bs.length <;> decide
    have hbytes := Nat.mul_lt_mul_of_pos_right (Bytes.toNatBe_lt bs)
      (Nat.pow_pos (n := 3 - bs.length) (show 0 < 4 by decide))
    omega
  have hpad : 4 - (bs.length + 1) = 3 - bs.length := by omega
  have hpos : 0 < 4 ^ (3 - bs.length) := Nat.pow_pos (by decide)
  rw [group, groupText, number_digits hlt]
  simp only [Option.bind_eq_bind, Option.bind_some, length_digits, hpad, Nat.mul_mod_left,
    if_true, Nat.add_sub_cancel, Nat.mul_div_cancel _ hpos, Bytes.ofNatBe_toNatBe]

/-! ## Texts -/

/-- The last four characters, of which two may be padding. -/
def lastGroup (a b c d : Char) : Option (List UInt8) :=
  if d ≠ '=' then group [a, b, c, d]
  else if c ≠ '=' then group [a, b, c]
  else group [a, b]

/-- The bytes that a text stands for. -/
def decode : List Char → Option (List UInt8)
  | [] => some []
  | a :: b :: c :: d :: rest =>
    if rest = [] then lastGroup a b c d
    else do
      let bytes ← group [a, b, c, d]
      let more ← decode rest
      pure (bytes ++ more)
  | _ => none

/-- A group with its padding. -/
def padded (bs : List UInt8) : List Char := groupText bs ++ List.replicate (3 - bs.length) '='

theorem forall_mem_padded {p : Char → Prop} (hp : ∀ n < 64, p (digit n)) (hpad : p '=')
    (bs : List UInt8) : ∀ c ∈ padded bs, p c := by
  intro c hc
  rcases List.mem_append.mp hc with hc | hc
  · exact forall_mem_digits hp _ _ c hc
  · rw [List.eq_of_mem_replicate hc]
    exact hpad

/-- Three bytes make four characters, and none of them is padding. -/
theorem groupText_of_length {bs : List UInt8} (h : bs.length = 3) :
    ∃ a b c d, groupText bs = [a, b, c, d] ∧ d ≠ '=' := by
  have hlen : (groupText bs).length = 4 := (length_digits _ _).trans (by rw [h])
  match hbs : groupText bs, hlen with
  | [a, b, c, d], _ =>
    have hmem : d ∈ groupText bs := by rw [hbs]; simp
    exact ⟨a, b, c, d, rfl, digits_ne_pad _ _ d hmem⟩

/-- The last group is read back. -/
theorem decode_padded {bs : List UInt8} (hne : bs ≠ []) (h : bs.length ≤ 3) :
    decode (padded bs) = some bs := by
  have hgroup := group_groupText h
  have hlen : (groupText bs).length = bs.length + 1 := length_digits _ _
  have hpos : 0 < bs.length := List.length_pos_iff.mpr hne
  obtain h1 | h2 | h3 : bs.length = 1 ∨ bs.length = 2 ∨ bs.length = 3 := by omega
  · obtain ⟨a, b, hab⟩ := List.length_eq_two.mp (hlen.trans (by rw [h1]))
    rw [hab] at hgroup
    rw [padded, hab, h1]
    exact hgroup
  · obtain ⟨a, b, c, habc⟩ := List.length_eq_three.mp (hlen.trans (by rw [h2]))
    have hc : c ≠ '=' := digits_ne_pad _ _ c (by rw [groupText] at habc; rw [habc]; simp)
    rw [habc] at hgroup
    rw [padded, habc, h2]
    show lastGroup a b c '=' = some bs
    rw [lastGroup, if_neg (by simp), if_pos hc, hgroup]
  · obtain ⟨a, b, c, d, habcd, hd⟩ := groupText_of_length h3
    rw [habcd] at hgroup
    rw [padded, habcd, h3]
    show lastGroup a b c d = some bs
    rw [lastGroup, if_pos hd, hgroup]

/-- **The groups are read one after the other.** -/
theorem decode_append {bs : List UInt8} {rest : List Char} {more : List UInt8}
    (h : bs.length = 3) (hrest : decode rest = some more) :
    decode (padded bs ++ rest) = some (bs ++ more) := by
  by_cases hnil : rest = []
  · subst hnil
    obtain rfl : [] = more := Option.some.inj hrest
    rw [List.append_nil, List.append_nil]
    exact decode_padded (List.ne_nil_of_length_pos (by omega)) h.le
  · obtain ⟨a, b, c, d, habcd, -⟩ := groupText_of_length h
    have hgroup := group_groupText h.le
    rw [habcd] at hgroup
    rw [padded, habcd, h]
    show decode (a :: b :: c :: d :: rest) = some (bs ++ more)
    rw [decode, if_neg hnil, hgroup, hrest]
    rfl

end Base64
