/-
# Literal header fields after RFC 7541

A header block without tables: an integer with a prefix (section 5.1), a string that is not
Huffman coded (5.2), and a literal field without indexing whose name is new (6.2.2).  Every
reader returns what it leaves, and reads what the writer of the same thing puts in front of
anything (`integer_integerText`, `string_stringText`, `field_fieldText`), so a block of
fields is read back whole (`fields_flatMap`).
-/
import Mathlib.Data.List.Basic
import Mathlib.Tactic.Ring

namespace Hpack

/-! ## Integers -/

/-- The octets behind a full prefix: seven bits in each, the lowest first, on top of `i`; `m`
is the place of the next bits. -/
def continuation : ℕ → ℕ → List UInt8 → Option (ℕ × List UInt8)
  | _, _, [] => none
  | i, m, b :: l =>
    let i := i + b.toNat % 128 * 2 ^ m
    if 128 ≤ b.toNat then continuation i (m + 7) l else some (i, l)

/-- An integer with a prefix of `n` bits. -/
def integer (n : ℕ) : List UInt8 → Option (ℕ × List UInt8)
  | [] => none
  | b :: l =>
    let i := b.toNat % 2 ^ n
    if i < 2 ^ n - 1 then some (i, l) else continuation i 0 l

/-- The octets of what exceeds a full prefix. -/
def octets (i : ℕ) : List UInt8 :=
  if 128 ≤ i then UInt8.ofNat (i % 128 + 128) :: octets (i / 128) else [UInt8.ofNat i]

/-- An integer in a prefix of `n` bits, the other bits of the first octet zero. -/
def integerText (n i : ℕ) : List UInt8 :=
  if i < 2 ^ n - 1 then [UInt8.ofNat i]
  else UInt8.ofNat (2 ^ n - 1) :: octets (i - (2 ^ n - 1))

theorem octets_ne_nil (i : ℕ) : octets i ≠ [] := by
  rw [octets]
  split <;> exact List.cons_ne_nil _ _

/-- Seven bits in an octet. -/
theorem length_octets_le {k i : ℕ} (h : i < 128 ^ (k + 1)) : (octets i).length ≤ k + 1 := by
  induction k generalizing i with
  | zero =>
    rw [octets, if_neg (by omega)]
    exact le_rfl
  | succ k ih =>
    rw [octets]
    split
    · have hdiv : i / 128 < 128 ^ (k + 1) := by
        rw [Nat.div_lt_iff_lt_mul (by decide), ← pow_succ]
        exact h
      have hrest := ih hdiv
      rw [List.length_cons]
      omega
    · exact Nat.le_add_left _ _

/-- The octets add what they were made of, at their place. -/
theorem continuation_octets (j : ℕ) (i m : ℕ) (l : List UInt8) :
    continuation i m (octets j ++ l) = some (i + j * 2 ^ m, l) := by
  induction j using Nat.strongRecOn generalizing i m with
  | ind j ih =>
    rw [octets]
    split
    · next hbig =>
      have hbyte : (UInt8.ofNat (j % 128 + 128)).toNat = j % 128 + 128 := by
        rw [UInt8.toNat_ofNat', Nat.mod_eq_of_lt (by omega)]
      have hlow : (j % 128 + 128) % 128 = j % 128 := by omega
      have hplace : i + j % 128 * 2 ^ m + j / 128 * 2 ^ (m + 7) = i + j * 2 ^ m := by
        calc i + j % 128 * 2 ^ m + j / 128 * 2 ^ (m + 7)
            = i + (j % 128 + 128 * (j / 128)) * 2 ^ m := by ring
          _ = i + j * 2 ^ m := by rw [Nat.mod_add_div]
      rw [List.cons_append, continuation, hbyte, hlow, if_pos (by omega), ih _ (by omega), hplace]
    · next hsmall =>
      have hbyte : (UInt8.ofNat j).toNat = j := by
        rw [UInt8.toNat_ofNat', Nat.mod_eq_of_lt (by omega)]
      rw [List.cons_append, continuation, hbyte, if_neg hsmall, Nat.mod_eq_of_lt (by omega)]
      rfl

/-- **Round trip of integers**, for every prefix. -/
theorem integer_integerText {n : ℕ} (hn : n ≤ 8) (i : ℕ) (l : List UInt8) :
    integer n (integerText n i ++ l) = some (i, l) := by
  have hle : 2 ^ n ≤ 2 ^ 8 := Nat.pow_le_pow_right (by decide) hn
  have hpos : 0 < 2 ^ n := Nat.pow_pos (by decide)
  have hbyte : ∀ k < 2 ^ n, (UInt8.ofNat k).toNat % 2 ^ n = k := by
    intro k hk
    rw [UInt8.toNat_ofNat', Nat.mod_eq_of_lt (by omega : k < 2 ^ 8), Nat.mod_eq_of_lt hk]
  rw [integerText]
  split
  · next hsmall =>
    rw [List.cons_append, integer, hbyte i (by omega), if_pos hsmall]
    rfl
  · next hbig =>
    have hsum : 2 ^ n - 1 + (i - (2 ^ n - 1)) * 2 ^ 0 = i := by
      rw [pow_zero]
      omega
    rw [List.cons_append, integer, hbyte _ (by omega), if_neg (by omega), continuation_octets,
      hsum]

/-! ## Strings -/

/-- A string that is not Huffman coded: the first bit is clear, and the length has the other
seven. -/
def string : List UInt8 → Option (List UInt8 × List UInt8)
  | [] => none
  | b :: l =>
    if 128 ≤ b.toNat then none
    else do
      let (len, l) ← integer 7 (b :: l)
      if l.length < len then none else some (l.take len, l.drop len)

def stringText (s : List UInt8) : List UInt8 := integerText 7 s.length ++ s

/-- The first octet of a length has seven bits. -/
theorem integerText_head (i : ℕ) : ∃ b l, integerText 7 i = b :: l ∧ b.toNat < 128 := by
  rw [integerText]
  split
  · next hsmall =>
    refine ⟨_, _, rfl, ?_⟩
    rw [UInt8.toNat_ofNat']
    omega
  · exact ⟨_, _, rfl, by decide⟩

/-- **Round trip of strings.** -/
theorem string_stringText (s l : List UInt8) : string (stringText s ++ l) = some (s, l) := by
  obtain ⟨b, more, hhead, hb⟩ := integerText_head s.length
  have hint := integer_integerText (n := 7) (by decide) s.length (s ++ l)
  rw [hhead] at hint
  rw [stringText, hhead, List.append_assoc, List.cons_append, string, if_neg (by omega),
    ← List.cons_append, hint]
  simp

/-! ## Fields -/

/-- A literal field without indexing, with a new name: the first octet is zero. -/
def field : List UInt8 → Option ((List UInt8 × List UInt8) × List UInt8)
  | [] => none
  | b :: l =>
    if b = 0 then do
      let (name, l) ← string l
      let (value, l) ← string l
      some ((name, value), l)
    else none

def fieldText (f : List UInt8 × List UInt8) : List UInt8 :=
  0 :: stringText f.1 ++ stringText f.2

/-- **Round trip of fields.** -/
theorem field_fieldText (f : List UInt8 × List UInt8) (l : List UInt8) :
    field (fieldText f ++ l) = some (f, l) := by
  rw [fieldText, List.append_assoc, List.cons_append, field, if_pos rfl, string_stringText]
  simp only [Option.bind_eq_bind, Option.bind_some, string_stringText]

/-- The fields of a block, in at most so many steps. -/
def fieldsLoop : ℕ → List UInt8 → Option (List (List UInt8 × List UInt8))
  | _, [] => some []
  | 0, _ => none
  | fuel + 1, l => do
    let (f, l) ← field l
    let fs ← fieldsLoop fuel l
    some (f :: fs)

/-- The fields of a block; each takes an octet at least. -/
def fields (block : List UInt8) : Option (List (List UInt8 × List UInt8)) :=
  fieldsLoop block.length block

/-- **A block is read back.** -/
theorem fields_flatMap (fs : List (List UInt8 × List UInt8)) :
    fields (fs.flatMap fieldText) = some fs := by
  have hloop : ∀ fuel, (fs.flatMap fieldText).length ≤ fuel →
      fieldsLoop fuel (fs.flatMap fieldText) = some fs := by
    induction fs with
    | nil =>
      intro fuel _
      cases fuel <;> rfl
    | cons f fs ih =>
      intro fuel hfuel
      have hlen : 0 < (fieldText f).length := by simp [fieldText]
      have hfield := field_fieldText f (fs.flatMap fieldText)
      rw [List.flatMap_cons, List.length_append] at hfuel
      rw [List.flatMap_cons]
      obtain ⟨fuel, rfl⟩ : ∃ k, fuel = k + 1 := ⟨fuel - 1, by omega⟩
      have hcons : fieldText f ++ fs.flatMap fieldText ≠ [] := by
        intro h
        rw [(List.append_eq_nil_iff.mp h).1] at hlen
        exact absurd hlen (by decide)
      rw [fieldsLoop, hfield, Option.bind_eq_bind, Option.bind_some]
      · dsimp only
        rw [ih fuel (by omega)]
        rfl
      · exact hcons
  exact hloop _ le_rfl

end Hpack
