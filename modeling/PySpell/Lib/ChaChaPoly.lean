/-
# ChaCha20-Poly1305

Authenticated encryption: the plaintext is combined with the key stream of ChaCha20,
and a Poly1305 tag of 16 bytes follows.  `decrypt_encrypt` is the round trip.
-/
import PySpell.Lib.Bytes

namespace ChaChaPoly

/-! ## The stream -/

def rotl (x : UInt32) (n : UInt32) : UInt32 := (x <<< n) ||| (x >>> (32 - n))

def quarter (v : List UInt32) : ℕ × ℕ × ℕ × ℕ → List UInt32
  | (a, b, c, d) =>
    let va := v.getD a 0 + v.getD b 0
    let vd := rotl (v.getD d 0 ^^^ va) 16
    let vc := v.getD c 0 + vd
    let vb := rotl (v.getD b 0 ^^^ vc) 12
    let va := va + vb
    let vd := rotl (vd ^^^ va) 8
    let vc := vc + vd
    let vb := rotl (vb ^^^ vc) 7
    (((v.set a va).set b vb).set c vc).set d vd

/-- The columns and then the diagonals. -/
def quads : List (ℕ × ℕ × ℕ × ℕ) :=
  [(0, 4, 8, 12), (1, 5, 9, 13), (2, 6, 10, 14), (3, 7, 11, 15),
   (0, 5, 10, 15), (1, 6, 11, 12), (2, 7, 8, 13), (3, 4, 9, 14)]

/-- The words of the bytes, each with its least byte first. -/
def words : ℕ → List UInt8 → List UInt32
  | 0, _ => []
  | n + 1, l => UInt32.ofNat (Bytes.toNat (l.take 4)) :: words n (l.drop 4)

/-- One block of the key stream. -/
def block (key : Bytes 32) (nonce : Bytes 12) (counter : ℕ) : List UInt8 :=
  let v := [0x61707865, 0x3320646e, 0x79622d32, 0x6b206574] ++ words 8 key ++
    [UInt32.ofNat counter] ++ words 3 nonce
  let w := (List.replicate 10 quads).flatten.foldl quarter v
  (List.zipWith (· + ·) v w).flatMap fun x => Bytes.ofNat 4 x.toNat

/-- The plaintext is combined with the stream, block by block. -/
def stream (key : Bytes 32) (nonce : Bytes 12) (data : List UInt8) : List UInt8 :=
  data.zipIdx.map fun (b, i) => b ^^^ (block key nonce (i / 64 + 1)).getD (i % 64) 0

/-! ## The tag -/

/-- Poly1305 over pieces of 16 bytes. -/
def poly (r : ℕ) : ℕ → ℕ → List UInt8 → ℕ
  | 0, acc, _ => acc
  | fuel + 1, acc, l =>
    if l = [] then acc
    else
      let piece := l.take 16
      poly r fuel ((acc + Bytes.toNat piece + 256 ^ piece.length) * r % (2 ^ 130 - 5)) (l.drop 16)

/-- Zeros up to a multiple of 16. -/
def pad16 (l : List UInt8) : List UInt8 := l ++ List.replicate ((16 - l.length % 16) % 16) 0

def tag (key : Bytes 32) (nonce : Bytes 12) (ct aad : List UInt8) : List UInt8 :=
  let otk := block key nonce 0
  let r := Bytes.toNat (otk.take 16) &&& 0x0ffffffc0ffffffc0ffffffc0fffffff
  let s := Bytes.toNat ((otk.drop 16).take 16)
  let data := pad16 aad ++ pad16 ct ++ Bytes.ofNat 8 aad.length ++ Bytes.ofNat 8 ct.length
  Bytes.ofNat 16 ((poly r data.length 0 data + s) % 2 ^ 128)

/-! ## Authenticated encryption -/

def encrypt (key : Bytes 32) (nonce : Bytes 12) (pt aad : List UInt8) : List UInt8 :=
  let ct := stream key nonce pt
  ct ++ tag key nonce ct aad

def decrypt (key : Bytes 32) (nonce : Bytes 12) (data aad : List UInt8) : Option (List UInt8) :=
  if data.length < 16 then none
  else
    let ct := data.take (data.length - 16)
    if data.drop (data.length - 16) = tag key nonce ct aad then some (stream key nonce ct) else none

theorem length_stream (key : Bytes 32) (nonce : Bytes 12) (data : List UInt8) :
    (stream key nonce data).length = data.length := by
  rw [stream, List.length_map, List.length_zipIdx]

theorem length_tag (key : Bytes 32) (nonce : Bytes 12) (ct aad : List UInt8) :
    (tag key nonce ct aad).length = 16 := Bytes.length_ofNat 16 _

theorem length_encrypt (key : Bytes 32) (nonce : Bytes 12) (pt aad : List UInt8) :
    (encrypt key nonce pt aad).length = pt.length + 16 := by
  rw [encrypt, List.length_append, length_stream, length_tag]

/-- The stream is its own inverse. -/
theorem stream_stream (key : Bytes 32) (nonce : Bytes 12) (data : List UInt8) :
    stream key nonce (stream key nonce data) = data := by
  apply List.ext_getElem
  · rw [length_stream, length_stream]
  · intro i hi hi'
    simp only [stream, List.getElem_map, List.getElem_zipIdx, Nat.zero_add]
    rw [UInt8.xor_assoc, UInt8.xor_self, UInt8.xor_zero]

/-- **What is encrypt is unsealed.** -/
theorem decrypt_encrypt (key : Bytes 32) (nonce : Bytes 12) (pt aad : List UInt8) :
    decrypt key nonce (encrypt key nonce pt aad) aad = some pt := by
  have hlen := length_encrypt key nonce pt aad
  have hct : (stream key nonce pt).length = (encrypt key nonce pt aad).length - 16 := by
    rw [length_stream, hlen]
    omega
  have htake : (encrypt key nonce pt aad).take (stream key nonce pt).length =
      stream key nonce pt := List.take_left
  have hdrop : (encrypt key nonce pt aad).drop (stream key nonce pt).length =
      tag key nonce (stream key nonce pt) aad := List.drop_left
  rw [decrypt, if_neg (by omega), ← hct]
  dsimp only
  rw [htake, if_pos hdrop, stream_stream]

/-- What is decrypted is shorter by the tag. -/
theorem length_of_decrypt {key : Bytes 32} {nonce : Bytes 12} {data aad pt : List UInt8}
    (h : decrypt key nonce data aad = some pt) : data.length = pt.length + 16 := by
  rw [decrypt] at h
  split at h
  · cases h
  · dsimp only at h
    split at h
    · rw [← Option.some_inj.mp h, length_stream, List.length_take]
      omega
    · cases h

end ChaChaPoly
