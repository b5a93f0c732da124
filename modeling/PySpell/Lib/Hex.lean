/-
# Hexadecimal text

Two lower-case digits for each byte, and the reading of digits of either case.
-/
import PySpell.Lib.Text

namespace Hex

open Text

/-- The digit of a value below 16. -/
def digit (n : ℕ) : Char := "0123456789abcdef".toList.getD n '0'

/-- `hex_encode`. -/
def encodeChars (bytes : List UInt8) : List Char :=
  bytes.flatMap fun b => [digit (b.toNat / 16), digit (b.toNat % 16)]

def encode (bytes : List UInt8) : String := String.ofList (encodeChars bytes)

/-- `hex_val`. -/
def val (c : UInt8) : Option ℕ :=
  let n := c.toNat
  if '0'.toNat ≤ n ∧ n ≤ '9'.toNat then some (n - '0'.toNat)
  else if 'a'.toNat ≤ n ∧ n ≤ 'f'.toNat then some (n - 'a'.toNat + 10)
  else if 'A'.toNat ≤ n ∧ n ≤ 'F'.toNat then some (n - 'A'.toNat + 10)
  else none

/-- Two digits at a time. -/
def pairs : List UInt8 → Option (List UInt8)
  | a :: b :: s => do
    let hi ← val a
    let lo ← val b
    let rest ← pairs s
    pure (UInt8.ofNat (hi * 16 + lo) :: rest)
  | _ => some []

/-- `hex_decode`: an odd number of characters is refused. -/
def decode (s : List UInt8) : Option (List UInt8) :=
  if s.length % 2 ≠ 0 then none else pairs s

/-! ## Round trip -/

/-- A digit is an ASCII character that reads as its value. -/
theorem digit_spec : ∀ n < 16, (digit n).toNat < 0x80 ∧
    val (UInt8.ofNat (digit n).toNat) = some n ∧ isWhitespace (digit n) = false ∧
    digit n ≠ '\n' ∧ digit n ≠ '\r' := by
  decide +kernel

/-- What is true of the digits is true of the characters of an encoding. -/
theorem forall_mem_encodeChars {p : Char → Prop} (hp : ∀ n < 16, p (digit n))
    (bytes : List UInt8) : ∀ c ∈ encodeChars bytes, p c := by
  intro c hc
  obtain ⟨b, -, hb⟩ := List.mem_flatMap.mp hc
  have hlt := b.toNat_lt
  simp only [List.mem_cons, List.not_mem_nil, or_false] at hb
  rcases hb with rfl | rfl
  · exact hp _ (by omega)
  · exact hp _ (by omega)

theorem utf8_encode (bytes : List UInt8) :
    utf8 (encode bytes) = (encodeChars bytes).map fun c => UInt8.ofNat c.toNat :=
  utf8_ascii (forall_mem_encodeChars (fun n hn => (digit_spec n hn).1) bytes)

@[simp] theorem length_encodeChars (bytes : List UInt8) :
    (encodeChars bytes).length = 2 * bytes.length := by
  induction bytes with
  | nil => rfl
  | cons b bytes ih =>
    have hcons : encodeChars (b :: bytes) =
        [digit (b.toNat / 16), digit (b.toNat % 16)] ++ encodeChars bytes := rfl
    rw [hcons, List.length_append, ih, List.length_cons]
    simp only [List.length_cons, List.length_nil]
    omega

theorem length_utf8_encode (bytes : List UInt8) :
    (utf8 (encode bytes)).length = 2 * bytes.length := by
  rw [utf8_encode, List.length_map, length_encodeChars]

theorem pairs_encode (bytes : List UInt8) :
    pairs ((encodeChars bytes).map fun c => UInt8.ofNat c.toNat) = some bytes := by
  induction bytes with
  | nil => rfl
  | cons b bytes ih =>
    have hlt := b.toNat_lt
    have hhi := (digit_spec (b.toNat / 16) (by omega)).2.1
    have hlo := (digit_spec (b.toNat % 16) (by omega)).2.1
    have hb : UInt8.ofNat (b.toNat / 16 * 16 + b.toNat % 16) = b := by
      rw [Nat.div_add_mod' b.toNat 16]
      exact UInt8.ofNat_toNat
    change pairs (UInt8.ofNat (digit (b.toNat / 16)).toNat ::
      UInt8.ofNat (digit (b.toNat % 16)).toNat ::
        (encodeChars bytes).map fun c => UInt8.ofNat c.toNat) = _
    rw [pairs, hhi, hlo, ih]
    change some (UInt8.ofNat (b.toNat / 16 * 16 + b.toNat % 16) :: bytes) = _
    rw [hb]

/-- **Decoding inverts encoding.** -/
theorem decode_encode (bytes : List UInt8) : decode (utf8 (encode bytes)) = some bytes := by
  rw [decode, length_utf8_encode, if_neg (by omega), utf8_encode, pairs_encode]

end Hex
