/-
# XSalsa20-Poly1305

The secret box of NaCl: a key stream of XSalsa20, whose first 32 bytes are the key of a
Poly1305 tag; the tag of 16 bytes stands in front of the ciphertext.  `decrypt_encrypt` is
the round trip.
-/
import PySpell.Lib.ChaChaPoly

namespace SalsaPoly

open ChaChaPoly (rotl words poly)

/-! ## The stream -/

def quarter (v : List UInt32) : ℕ × ℕ × ℕ × ℕ → List UInt32
  | (a, b, c, d) =>
    let vb := v.getD b 0 ^^^ rotl (v.getD a 0 + v.getD d 0) 7
    let vc := v.getD c 0 ^^^ rotl (vb + v.getD a 0) 9
    let vd := v.getD d 0 ^^^ rotl (vc + vb) 13
    let va := v.getD a 0 ^^^ rotl (vd + vc) 18
    (((v.set a va).set b vb).set c vc).set d vd

/-- The columns and then the rows. -/
def quads : List (ℕ × ℕ × ℕ × ℕ) :=
  [(0, 4, 8, 12), (5, 9, 13, 1), (10, 14, 2, 6), (15, 3, 7, 11),
   (0, 1, 2, 3), (5, 6, 7, 4), (10, 11, 8, 9), (15, 12, 13, 14)]

def rounds (v : List UInt32) : List UInt32 := (List.replicate 10 quads).flatten.foldl quarter v

/-- The state: the constants on the diagonal, the key, and an input of 16 bytes. -/
def init (key : Bytes 32) (input : List UInt8) : List UInt32 :=
  [0x61707865] ++ words 4 (key.1.take 16) ++ [0x3320646e] ++ words 4 input ++ [0x79622d32] ++
    words 4 (key.1.drop 16) ++ [0x6b206574]

def bytesOf (v : List UInt32) : List UInt8 := v.flatMap fun x => Bytes.ofNat 4 x.toNat

/-- HSalsa20: a key from a key and an input of 16 bytes. -/
def hsalsa (key : Bytes 32) (input : List UInt8) : Bytes 32 :=
  let w := rounds (init key input)
  Bytes.ofList 32 (bytesOf ([0, 5, 10, 15, 6, 7, 8, 9].map fun i => w.getD i 0))

/-- One block of the key stream. -/
def block (key : Bytes 32) (nonce : List UInt8) (counter : ℕ) : List UInt8 :=
  let v := init key (nonce ++ Bytes.ofNat 8 counter)
  bytesOf (List.zipWith (· + ·) v (rounds v))

/-- The data is combined with the stream, from the 32nd byte of the stream on. -/
def stream (key : Bytes 32) (nonce : Bytes 24) (data : List UInt8) : List UInt8 :=
  let subkey := hsalsa key (nonce.1.take 16)
  data.zipIdx.map fun (b, i) =>
    b ^^^ (block subkey (nonce.1.drop 16) ((i + 32) / 64)).getD ((i + 32) % 64) 0

/-! ## The tag -/

def tag (key : Bytes 32) (nonce : Bytes 24) (ct : List UInt8) : List UInt8 :=
  let otk := block (hsalsa key (nonce.1.take 16)) (nonce.1.drop 16) 0
  let r := Bytes.toNat (otk.take 16) &&& 0x0ffffffc0ffffffc0ffffffc0fffffff
  let s := Bytes.toNat ((otk.drop 16).take 16)
  Bytes.ofNat 16 ((poly r ct.length 0 ct + s) % 2 ^ 128)

/-! ## The box -/

def encrypt (key : Bytes 32) (nonce : Bytes 24) (pt : List UInt8) : List UInt8 :=
  let ct := stream key nonce pt
  tag key nonce ct ++ ct

def decrypt (key : Bytes 32) (nonce : Bytes 24) (data : List UInt8) : Option (List UInt8) :=
  if data.length < 16 then none
  else
    let ct := data.drop 16
    if data.take 16 = tag key nonce ct then some (stream key nonce ct) else none

theorem length_stream (key : Bytes 32) (nonce : Bytes 24) (data : List UInt8) :
    (stream key nonce data).length = data.length := by
  rw [stream, List.length_map, List.length_zipIdx]

theorem length_tag (key : Bytes 32) (nonce : Bytes 24) (ct : List UInt8) :
    (tag key nonce ct).length = 16 := Bytes.length_ofNat 16 _

theorem length_encrypt (key : Bytes 32) (nonce : Bytes 24) (pt : List UInt8) :
    (encrypt key nonce pt).length = pt.length + 16 := by
  rw [encrypt, List.length_append, length_stream, length_tag, Nat.add_comm]

/-- The stream is its own inverse. -/
theorem stream_stream (key : Bytes 32) (nonce : Bytes 24) (data : List UInt8) :
    stream key nonce (stream key nonce data) = data := by
  apply List.ext_getElem
  · rw [length_stream, length_stream]
  · intro i hi hi'
    simp only [stream, List.getElem_map, List.getElem_zipIdx, Nat.zero_add]
    rw [UInt8.xor_assoc, UInt8.xor_self, UInt8.xor_zero]

/-- **What is put into the box comes out of it.** -/
theorem decrypt_encrypt (key : Bytes 32) (nonce : Bytes 24) (pt : List UInt8) :
    decrypt key nonce (encrypt key nonce pt) = some pt := by
  have hlen := length_encrypt key nonce pt
  have htag := length_tag key nonce (stream key nonce pt)
  have htake : (encrypt key nonce pt).take 16 = tag key nonce (stream key nonce pt) :=
    List.take_left' htag
  have hdrop : (encrypt key nonce pt).drop 16 = stream key nonce pt := List.drop_left' htag
  rw [decrypt, if_neg (by omega)]
  dsimp only
  rw [hdrop, if_pos htake, stream_stream]

end SalsaPoly
