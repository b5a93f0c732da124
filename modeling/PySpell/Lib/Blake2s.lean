/-
# BLAKE2s

The hash, with an optional key, over 64-byte blocks of 32-bit words.
-/
import PySpell.Lib.Bytes

namespace Blake2s

def iv : List UInt32 :=
  [0x6A09E667, 0xBB67AE85, 0x3C6EF372, 0xA54FF53A, 0x510E527F, 0x9B05688C, 0x1F83D9AB, 0x5BE0CD19]

/-- The order of the message words in each round. -/
def sigma : List (List ℕ) :=
  [[0, 1, 2, 3, 4, 5, 6, 7, 8, 9, 10, 11, 12, 13, 14, 15],
   [14, 10, 4, 8, 9, 15, 13, 6, 1, 12, 0, 2, 11, 7, 5, 3],
   [11, 8, 12, 0, 5, 2, 15, 13, 10, 14, 3, 6, 7, 1, 9, 4],
   [7, 9, 3, 1, 13, 12, 11, 14, 2, 6, 5, 10, 4, 0, 15, 8],
   [9, 0, 5, 7, 2, 4, 10, 15, 14, 1, 11, 12, 6, 8, 3, 13],
   [2, 12, 6, 10, 0, 11, 8, 3, 4, 13, 7, 5, 15, 14, 1, 9],
   [12, 5, 1, 15, 14, 13, 4, 10, 0, 7, 6, 3, 9, 2, 8, 11],
   [13, 11, 7, 14, 12, 1, 3, 9, 5, 0, 15, 4, 8, 6, 2, 10],
   [6, 15, 14, 9, 11, 3, 0, 8, 12, 2, 13, 7, 1, 4, 10, 5],
   [10, 2, 8, 4, 7, 6, 1, 5, 15, 11, 9, 14, 3, 12, 13, 0]]

def rotr (x : UInt32) (n : UInt32) : UInt32 := (x >>> n) ||| (x <<< (32 - n))

/-- The mixing of four words with two words of the message. -/
def mix (v : List UInt32) (a b c d : ℕ) (x y : UInt32) : List UInt32 :=
  let va := v.getD a 0 + v.getD b 0 + x
  let vd := rotr (v.getD d 0 ^^^ va) 16
  let vc := v.getD c 0 + vd
  let vb := rotr (v.getD b 0 ^^^ vc) 12
  let va := va + vb + y
  let vd := rotr (vd ^^^ va) 8
  let vc := vc + vd
  let vb := rotr (vb ^^^ vc) 7
  (((v.set a va).set b vb).set c vc).set d vd

/-- The columns and then the diagonals. -/
def quads : List (ℕ × ℕ × ℕ × ℕ) :=
  [(0, 4, 8, 12), (1, 5, 9, 13), (2, 6, 10, 14), (3, 7, 11, 15),
   (0, 5, 10, 15), (1, 6, 11, 12), (2, 7, 8, 13), (3, 4, 9, 14)]

def round (m : List UInt32) (v : List UInt32) (order : List ℕ) : List UInt32 :=
  (quads.zipIdx).foldl (fun v ((a, b, c, d), i) =>
    mix v a b c d (m.getD (order.getD (2 * i) 0) 0) (m.getD (order.getD (2 * i + 1) 0) 0)) v

/-- The words of a block, each with its least byte first. -/
def words : ℕ → List UInt8 → List UInt32
  | 0, _ => []
  | n + 1, l => UInt32.ofNat (Bytes.toNat (l.take 4)) :: words n (l.drop 4)

/-- One block; `t` counts the bytes up to its end. -/
def compress (h : List UInt32) (block : List UInt8) (t : ℕ) (last : Bool) : List UInt32 :=
  let v := h ++ iv
  let v := v.set 12 (v.getD 12 0 ^^^ UInt32.ofNat t)
  let v := v.set 13 (v.getD 13 0 ^^^ UInt32.ofNat (t / 2 ^ 32))
  let v := if last then v.set 14 (v.getD 14 0 ^^^ 0xFFFFFFFF) else v
  let v := sigma.foldl (round (words 16 block)) v
  (List.range 8).map fun i => h.getD i 0 ^^^ v.getD i 0 ^^^ v.getD (i + 8) 0

/-- The blocks of the input, the last one filled up with zeros. -/
def blocks : ℕ → List UInt32 → ℕ → List UInt8 → List UInt32
  | 0, h, _, _ => h
  | fuel + 1, h, t, l =>
    if l.length ≤ 64 then compress h (l ++ List.replicate (64 - l.length) 0) (t + l.length) true
    else blocks fuel (compress h (l.take 64) (t + 64) false) (t + 64) (l.drop 64)

/-- The hash of so many bytes, with a key of at most 32 bytes. -/
def digest (size : ℕ) (key data : List UInt8) : Bytes size :=
  let first := iv.getD 0 0 ^^^ UInt32.ofNat (0x01010000 + key.length * 256 + size)
  let input := if key = [] then data else key ++ List.replicate (64 - key.length) 0 ++ data
  let h := blocks (input.length + 1) (iv.set 0 first) 0 input
  Bytes.ofList size (h.flatMap fun w => Bytes.ofNat 4 w.toNat)

/-- The hash of `abc`. -/
example : (digest 32 [] [0x61, 0x62, 0x63]).1.take 4 = [0x50, 0x8c, 0x5e, 0x8c] := by
  decide +kernel

end Blake2s
