/-
# WireGuard

`wg.rs`: the handshake in both roles, and transport records.  The primitives come from
other crates; here they are the parameter `Crypto`.  Random keys are arguments.
-/
import PySpell.Lib.X25519
import PySpell.Lib.Blake2s
import PySpell.Lib.ChaChaPoly
import PySpell.Lib.Text

open Text

/-! ## Primitives -/

/-- The primitives of the `blake2`, `chacha20poly1305` and `x25519_dalek` crates. -/
structure Crypto where
  /-- `Blake2s256`. -/
  blake2s : List UInt8 → Bytes 32
  /-- `Blake2sMac<U16>`. -/
  blake2sMac : List UInt8 → List UInt8 → Bytes 16
  /-- `StaticSecret::diffie_hellman`. -/
  dh : Bytes 32 → Bytes 32 → Bytes 32
  /-- `PublicKey::from`. -/
  pubkey : Bytes 32 → Bytes 32
  /-- `ChaCha20Poly1305::encrypt`, by key, nonce, message and associated data. -/
  encrypt : Bytes 32 → Bytes 12 → List UInt8 → List UInt8 → List UInt8
  /-- `ChaCha20Poly1305::decrypt`. -/
  decrypt : Bytes 32 → Bytes 12 → List UInt8 → List UInt8 → Option (List UInt8)
  /-- A tag of 16 bytes follows the ciphertext. -/
  length_encrypt : ∀ key nonce msg aad, (encrypt key nonce msg aad).length = msg.length + 16

namespace Crypto

variable (cr : Crypto)

/-- Diffie–Hellman commutes for two private keys. -/
def Commutes (a b : Bytes 32) : Prop := cr.dh a (cr.pubkey b) = cr.dh b (cr.pubkey a)

/-- Decryption undoes encryption. -/
def Opens : Prop :=
  ∀ key nonce msg aad, cr.decrypt key nonce (cr.encrypt key nonce msg aad) aad = some msg

/-- The primitives by their definitions. -/
def standard : Crypto where
  blake2s := Blake2s.digest 32 []
  blake2sMac := Blake2s.digest 16
  dh := X25519.dh
  pubkey := X25519.pubkey
  encrypt := ChaChaPoly.encrypt
  decrypt := ChaChaPoly.decrypt
  length_encrypt := ChaChaPoly.length_encrypt

/-- The algorithms of WireGuard open what they seal. -/
theorem standard_opens : standard.Opens := ChaChaPoly.decrypt_encrypt

end Crypto

namespace Wg

/-! ## Constants -/

def construction : List UInt8 := utf8 "Noise_IKpsk2_25519_ChaChaPoly_BLAKE2s"
def identifier : List UInt8 := utf8 "WireGuard v1 zx2c4 Jason@zx2c4.com"
def labelMac1 : List UInt8 := utf8 "mac1----"
def zeroPsk : Bytes 32 := Bytes.zeros 32

def msgInitiation : UInt8 := 1
def msgResponse : UInt8 := 2
def msgTransport : UInt8 := 4

def initLen : ℕ := 148
def respLen : ℕ := 92

/-- `Handshake`. -/
structure Handshake where
  chaining : Bytes 32
  hash : Bytes 32
  ephPriv : Bytes 32
  ourStaticPriv : Bytes 32
  ourIndex : UInt32

/-- `Tunnel`. -/
structure Tunnel where
  sendKey : Bytes 32
  recvKey : Bytes 32
  theirIndex : UInt32
  ourIndex : UInt32
  txCounter : UInt64

/-! ## Derived primitives -/

section

variable (cr : Crypto)

/-- `hash`: of the parts one after the other. -/
def hash (parts : List (List UInt8)) : Bytes 32 := cr.blake2s parts.flatten

/-- `hmac`. -/
def hmac (key data : List UInt8) : Bytes 32 :=
  let k := if 64 < key.length then Bytes.put (Bytes.zeros 64) 0 (hash cr [key])
    else Bytes.put (Bytes.zeros 64) 0 key
  let ipad := k.map (0x36 ^^^ ·)
  let opad := k.map (0x5c ^^^ ·)
  let inner := hash cr [ipad, data]
  hash cr [opad, inner]

/-- `kdf1`. -/
def kdf1 (key : Bytes 32) (input : List UInt8) : Bytes 32 :=
  let t0 := hmac cr key input
  hmac cr t0 [0x01]

/-- `kdf2`. -/
def kdf2 (key : Bytes 32) (input : List UInt8) : Bytes 32 × Bytes 32 :=
  let t0 := hmac cr key input
  let t1 := hmac cr t0 [0x01]
  let t2 := hmac cr t0 (t1.1 ++ [0x02])
  (t1, t2)

/-- `kdf3`. -/
def kdf3 (key : Bytes 32) (input : List UInt8) : Bytes 32 × Bytes 32 × Bytes 32 :=
  let t0 := hmac cr key input
  let t1 := hmac cr t0 [0x01]
  let t2 := hmac cr t0 (t1.1 ++ [0x02])
  let t3 := hmac cr t0 (t2.1 ++ [0x03])
  (t1, t2, t3)

end

/-- `le_nonce`: four zeros, and the counter with its least byte first. -/
def leNonce (counter : UInt64) : Bytes 12 :=
  ⟨[0, 0, 0, 0] ++ Bytes.ofNat 8 counter.toNat, by
    rw [List.length_append, Bytes.length_ofNat]
    rfl⟩

/-- `seal`. -/
def sealMsg (cr : Crypto) (key : Bytes 32) (counter : UInt64) (pt aad : List UInt8) : List UInt8 :=
  cr.encrypt key (leNonce counter) pt aad

/-- `open`. -/
def openMsg (cr : Crypto) (key : Bytes 32) (counter : UInt64) (ct aad : List UInt8) :
    Option (List UInt8) :=
  cr.decrypt key (leNonce counter) ct aad

/-- `u32::to_le_bytes`. -/
def leU32 (x : UInt32) : List UInt8 := Bytes.ofNat 4 x.toNat

/-- `u32::from_le_bytes` at an offset. -/
def u32At (l : List UInt8) (off : ℕ) : UInt32 := UInt32.ofNat (Bytes.toNat (Bytes.slice l off 4))

/-- The 32 bytes at an offset. -/
def key32At (l : List UInt8) (off : ℕ) (h : off + 32 ≤ l.length) : Bytes 32 :=
  ⟨Bytes.slice l off 32, Bytes.length_slice h⟩

/-! ## Initiation -/

variable (cr : Crypto)

/-- The handshake hash and the chaining key before the first message. -/
def start (responderPub : Bytes 32) : Bytes 32 × Bytes 32 :=
  let c := hash cr [construction]
  let h := hash cr [c, identifier]
  (c, hash cr [h, responderPub])

/-- The first 116 bytes of an initiation, and zeros. -/
def layoutInitiation (ourIndex : UInt32) (ephPub encStatic encTs : List UInt8) : List UInt8 :=
  let msg := Bytes.put (Bytes.zeros initLen) 0 [msgInitiation]
  let msg := Bytes.put msg 4 (leU32 ourIndex)
  let msg := Bytes.put msg 8 ephPub
  let msg := Bytes.put msg 40 encStatic
  Bytes.put msg 88 encTs

/-- `build_initiation`. -/
def buildInitiation (ourStaticPriv ourStaticPub peerStaticPub : Bytes 32) (timestamp : Bytes 12)
    (ourIndex : UInt32) (ephPriv : Bytes 32) : List UInt8 × Handshake :=
  let (c, h) := start cr peerStaticPub
  let ephPub := cr.pubkey ephPriv
  let c := kdf1 cr c ephPub
  let h := hash cr [h, ephPub]
  -- encrypted static
  let (c, k) := kdf2 cr c (cr.dh ephPriv peerStaticPub)
  let encStatic := sealMsg cr k 0 ourStaticPub h
  let h := hash cr [h, encStatic]
  -- encrypted timestamp
  let (c, k) := kdf2 cr c (cr.dh ourStaticPriv peerStaticPub)
  let encTs := sealMsg cr k 0 timestamp h
  let h := hash cr [h, encTs]
  let msg := layoutInitiation ourIndex ephPub encStatic encTs
  let mac1 := cr.blake2sMac (hash cr [labelMac1, peerStaticPub]) (Bytes.slice msg 0 116)
  (Bytes.put msg 116 mac1, ⟨c, h, ephPriv, ourStaticPriv, ourIndex⟩)

/-! ## Response -/

/-- The first 60 bytes of a response, and zeros. -/
def layoutResponse (ourIndex theirIndex : UInt32) (ephPub encEmpty : List UInt8) : List UInt8 :=
  let resp := Bytes.put (Bytes.zeros respLen) 0 [msgResponse]
  let resp := Bytes.put resp 4 (leU32 ourIndex)
  let resp := Bytes.put resp 8 (leU32 theirIndex)
  let resp := Bytes.put resp 12 ephPub
  Bytes.put resp 44 encEmpty

/-- `consume_initiation`: the response, the tunnel and the initiator's public key. -/
def consumeInitiation (ourStaticPriv ourStaticPub : Bytes 32) (init : List UInt8)
    (ourIndex : UInt32) (ephPriv : Bytes 32) : Except String (List UInt8 × Tunnel × Bytes 32) :=
  if hlen : init.length < initLen then .error s!"WG init too short ({init.length})"
  else if init.getD 0 0 ≠ msgInitiation then
    .error s!"not a WG initiation (type {(init.getD 0 0).toNat})"
  else
    let theirIndex := u32At init 4
    let eI := key32At init 8 (by unfold initLen at hlen; omega)
    let encStatic := Bytes.slice init 40 48
    let encTs := Bytes.slice init 88 28
    let (c, h) := start cr ourStaticPub
    let c := kdf1 cr c eI
    let h := hash cr [h, eI]
    let (c, k) := kdf2 cr c (cr.dh ourStaticPriv eI)
    match openMsg cr k 0 encStatic h with
    | none => .error "WG init static decrypt"
    | some sI =>
      if hs : sI.length ≠ 32 then .error "WG init static size"
      else
        let sI : Bytes 32 := ⟨sI, not_not.mp hs⟩
        let h := hash cr [h, encStatic]
        let (c, k) := kdf2 cr c (cr.dh ourStaticPriv sI)
        match openMsg cr k 0 encTs h with
        | none => .error "WG init timestamp decrypt"
        | some _ =>
          let h := hash cr [h, encTs]
          let ephPub := cr.pubkey ephPriv
          let c := kdf1 cr c ephPub
          let h := hash cr [h, ephPub]
          let c := kdf1 cr c (cr.dh ephPriv eI)
          let c := kdf1 cr c (cr.dh ephPriv sI)
          let (c, tau, k) := kdf3 cr c zeroPsk
          let h := hash cr [h, tau]
          let encEmpty := sealMsg cr k 0 [] h
          let resp := layoutResponse ourIndex theirIndex ephPub encEmpty
          let mac1 := cr.blake2sMac (hash cr [labelMac1, sI]) (Bytes.slice resp 0 60)
          -- the first transport key receives, the second sends
          let (recvKey, sendKey) := kdf2 cr c []
          .ok (Bytes.put resp 60 mac1, ⟨sendKey, recvKey, theirIndex, ourIndex, 0⟩, sI)

/-- `{:#x}`. -/
def hexOf (x : UInt32) : String := "0x" ++ String.ofList (Nat.toDigits 16 x.toNat)

/-- `consume_response`. -/
def Handshake.consumeResponse (hs : Handshake) (resp : List UInt8) : Except String Tunnel :=
  if hlen : resp.length < respLen then .error s!"WG response too short ({resp.length})"
  else if resp.getD 0 0 ≠ msgResponse then
    .error s!"not a WG response (type {(resp.getD 0 0).toNat})"
  else
    let theirIndex := u32At resp 4
    let recvIndex := u32At resp 8
    if recvIndex ≠ hs.ourIndex then
      .error s!"WG response receiver index {hexOf recvIndex} != ours {hexOf hs.ourIndex}"
    else
      let ephPubR := key32At resp 12 (by unfold respLen at hlen; omega)
      let encEmpty := Bytes.slice resp 44 16
      let c := kdf1 cr hs.chaining ephPubR
      let h := Wg.hash cr [hs.hash, ephPubR]
      let c := kdf1 cr c (cr.dh hs.ephPriv ephPubR)
      let c := kdf1 cr c (cr.dh hs.ourStaticPriv ephPubR)
      let (c, tau, k) := kdf3 cr c zeroPsk
      let h := Wg.hash cr [h, tau]
      match openMsg cr k 0 encEmpty h with
      | none => .error "WG response auth failed"
      | some pt =>
        if pt ≠ [] then .error "WG response payload not empty"
        else
          -- the first transport key sends, the second receives
          let (sendKey, recvKey) := kdf2 cr c []
          .ok ⟨sendKey, recvKey, theirIndex, hs.ourIndex, 0⟩

/-! ## Transport -/

/-- `u64::from_le_bytes` of the counter of a transport message. -/
def counterAt (pkt : List UInt8) : UInt64 := UInt64.ofNat (Bytes.toNat (Bytes.slice pkt 8 8))

/-- `decrypt_transport`. -/
def decryptTransport (recvKey : Bytes 32) (pkt : List UInt8) : Option (List UInt8) :=
  if pkt.length < 32 ∨ pkt.getD 0 0 ≠ msgTransport then none
  else openMsg cr recvKey (counterAt pkt) (pkt.drop 16) []

/-- The zeros of `encrypt`, up to a multiple of 16. -/
def pad16 (inner : List UInt8) : List UInt8 :=
  inner ++ List.replicate ((16 - inner.length % 16) % 16) 0

/-- `Tunnel::encrypt`. -/
def Tunnel.encrypt (t : Tunnel) (inner : List UInt8) : Tunnel × List UInt8 :=
  let ct := sealMsg cr t.sendKey t.txCounter (pad16 inner) []
  ({ t with txCounter := t.txCounter + 1 },
    [msgTransport, 0, 0, 0] ++ leU32 t.theirIndex ++ Bytes.ofNat 8 t.txCounter.toNat ++ ct)

/-- `Tunnel::keepalive`. -/
def Tunnel.keepalive (t : Tunnel) : Tunnel × List UInt8 := t.encrypt cr []

/-- `Tunnel::decrypt`. -/
def Tunnel.decrypt (t : Tunnel) (pkt : List UInt8) : Except String (List UInt8) :=
  if pkt.length < 32 then .error s!"WG transport too short ({pkt.length})"
  else if pkt.getD 0 0 ≠ msgTransport then .error "not a WG transport packet"
  else
    match openMsg cr t.recvKey (counterAt pkt) (pkt.drop 16) [] with
    | none => .error "WG transport auth failed"
    | some pt => .ok pt

end Wg
