/-
# Disco and STUN

`disco.rs`: the messages of path discovery, which share the UDP socket with WireGuard and
STUN, and the tests that tell the three apart.  The boxes come from the `crypto_box` crate;
here they are the parameter `SalsaBox`.
-/
import PySpell.TcpServer
import PySpell.Lib.Bytes

open Tcp Bytes

/-- `SocketAddr`. -/
inductive SocketAddr where
  | v4 (ip : Bytes 4) (port : UInt16)
  | v6 (ip : Bytes 16) (port : UInt16) (flowinfo scopeId : UInt32)
  deriving DecidableEq

/-- `SalsaBox`: by our private key, the other public key and the nonce. -/
structure SalsaBox where
  encrypt : Bytes 32 → Bytes 32 → Bytes 24 → List UInt8 → Option (List UInt8)
  decrypt : Bytes 32 → Bytes 32 → Bytes 24 → List UInt8 → Option (List UInt8)

namespace Disco

def magic : List UInt8 := [0x54, 0x53, 0xf0, 0x9f, 0x92, 0xac]

def ping : UInt8 := 0x01
def pong : UInt8 := 0x02
def callMeMaybe : UInt8 := 0x03

def discoVersion : UInt8 := 0x00

/-- Magic, the key of the sender and the nonce. -/
def hdr : ℕ := 6 + 32 + 24

/-- `is_disco`. -/
def isDisco (buf : List UInt8) : Bool := 6 ≤ buf.length && buf.take 6 = magic

theorem isDisco_cons {b : UInt8} (h : b ≠ 0x54) (rest : List UInt8) :
    isDisco (b :: rest) = false := by
  have hne : (b :: rest).take 6 ≠ magic := fun heq => h (List.cons.inj heq).1
  rw [isDisco, decide_eq_false hne, Bool.and_false]

/-- `Incoming`. -/
structure Incoming where
  senderDiscoPub : Bytes 32
  msgType : UInt8
  txid : List UInt8
  endpoints : List SocketAddr

/-- `addr_to_bytes`: an IPv4 address is mapped into IPv6. -/
def addrToBytes : SocketAddr → List UInt8
  | .v4 ip port => List.replicate 10 0 ++ [0xff, 0xff] ++ ip.1 ++ be16 port.toNat
  | .v6 ip port _ _ => ip.1 ++ be16 port.toNat

/-- `bytes_to_addr`. -/
def bytesToAddr (b : List UInt8) : Option SocketAddr :=
  if h : b.length < 18 then none
  else if b.take 12 = List.replicate 10 0 ++ [0xff, 0xff] then
    some (.v4 ⟨slice b 12 4, length_slice (by omega)⟩ (UInt16.ofNat (u16At b 16)))
  else none

/-- `pong_plaintext`. -/
def pongPlaintext (txid : List UInt8) (src : SocketAddr) : List UInt8 :=
  [pong, discoVersion] ++ txid ++ addrToBytes src

variable (box : SalsaBox)

/-- `seal`. -/
def sealMsg (myPriv myPub peerPub : Bytes 32) (nonce : Bytes 24) (pt : List UInt8) :
    Option (List UInt8) := do
  let ct ← box.encrypt myPriv peerPub nonce pt
  some (magic ++ myPub ++ nonce ++ ct)

/-- `open`. -/
def openMsg (myPriv : Bytes 32) (wire : List UInt8) : Option Incoming :=
  if h : wire.length < hdr + 16 ∨ wire.take 6 ≠ magic then none
  else do
    have hlen : 78 ≤ wire.length := by
      unfold hdr at h
      omega
    let sender : Bytes 32 := ⟨slice wire 6 32, length_slice (by omega)⟩
    let nonce : Bytes 24 := ⟨slice wire 38 24, length_slice (by omega)⟩
    let pt ← box.decrypt myPriv sender nonce (wire.drop 62)
    if pt.length < 14 then none
    else
      let msgType := pt.getD 0 0
      some
        { senderDiscoPub := sender
          msgType
          txid := slice pt 2 12
          endpoints :=
            if msgType = callMeMaybe then ((pt.drop 2).toChunks 18).filterMap bytesToAddr else [] }

end Disco

namespace Stun

def magicCookie : UInt32 := 0x2112A442

/-- `is_stun`. -/
def isStun (buf : List UInt8) : Bool := 8 ≤ buf.length && u32At buf 4 = magicCookie

end Stun
