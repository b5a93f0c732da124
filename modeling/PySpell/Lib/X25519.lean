/-
# X25519

Diffie–Hellman on Curve25519 by the Montgomery ladder, over the numbers modulo
`2^255 - 19`.  Scalars are clamped; keys are 32 bytes with the least first.
-/
import PySpell.Lib.Bytes

namespace X25519

def prime : ℕ := 2 ^ 255 - 19

/-- Powers by squaring, over the lowest `i` bits of the exponent from the top. -/
def powLoop (a e : ℕ) : ℕ → ℕ → ℕ
  | 0, acc => acc
  | i + 1, acc =>
    let sq := acc * acc % prime
    powLoop a e i (if e.testBit i then sq * a % prime else sq)

/-- The inverse, as a power. -/
def inverse (a : ℕ) : ℕ := powLoop a (prime - 2) 255 1

/-- Two points that differ by the base, each as a fraction. -/
structure Ladder where
  x2 : ℕ
  z2 : ℕ
  x3 : ℕ
  z3 : ℕ

/-- One bit of the scalar: the points are doubled and added, swapped for a bit that is
set. -/
def Ladder.step (u : ℕ) (bit : Bool) (s : Ladder) : Ladder :=
  let (x2, z2, x3, z3) := if bit then (s.x3, s.z3, s.x2, s.z2) else (s.x2, s.z2, s.x3, s.z3)
  let a := (x2 + z2) % prime
  let aa := a * a % prime
  let b := (x2 + (prime - z2)) % prime
  let bb := b * b % prime
  let e := (aa + (prime - bb)) % prime
  let da := (x3 + (prime - z3)) % prime * a % prime
  let cb := (x3 + z3) % prime * b % prime
  let dif := (da + (prime - cb)) % prime
  let sum := (da + cb) * (da + cb) % prime
  let dbl := aa * bb % prime
  let sumZ := u * (dif * dif % prime) % prime
  let dblZ := e * ((aa + 121665 * e) % prime) % prime
  if bit then ⟨sum, sumZ, dbl, dblZ⟩ else ⟨dbl, dblZ, sum, sumZ⟩

/-- The lowest `i` bits of the scalar, from the top. -/
def ladder (u k : ℕ) : ℕ → Ladder → Ladder
  | 0, s => s
  | i + 1, s => ladder u k i (s.step u (k.testBit i))

/-- The lowest three bits are cleared, and the top one is set. -/
def clamp (k : ℕ) : ℕ := k % 2 ^ 254 / 8 * 8 + 2 ^ 254

/-- The multiple of a point, by its coordinate. -/
def mul (k u : ℕ) : ℕ :=
  let s := ladder u (clamp k) 255 ⟨1, 0, u, 1⟩
  s.x2 * inverse s.z2 % prime

def dh (priv pub : Bytes 32) : Bytes 32 :=
  Bytes.ofList 32 (Bytes.ofNat 32 (mul (Bytes.toNat priv) (Bytes.toNat pub % 2 ^ 255 % prime)))

/-- The public key: a multiple of the base point 9. -/
def pubkey (priv : Bytes 32) : Bytes 32 :=
  Bytes.ofList 32 (Bytes.ofNat 32 (mul (Bytes.toNat priv) 9))

/-- The public key of a scalar, from the definition of the function. -/
example : mul 0x2a2cb91da5fb77b12a99c0eb872f4cdf4566b25172c1163c7da518730a6d0777 9 =
    0x6a4e9baa8ea9a4ebf41a38260d3abf0d5af73eb4dc7d8b7454a7308909f02085 := by decide +kernel

end X25519
