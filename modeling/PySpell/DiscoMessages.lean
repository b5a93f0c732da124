/-
# Messages of path discovery

The plaintexts of `disco.rs`, sealed in a box and opened by the other side.  Pings and
pongs come back with their type and their transaction id, and a call-me-maybe with its
IPv4 endpoints in order, unless it has no endpoints: its two bytes are shorter than the 14
that every message has to have (`messages_open_iff`).

The box is assumed to be correct for the keys of the two sides (`SalsaBox.Correct`).
-/
import PySpell.Derp
import PySpell.Lib.SalsaPoly

open Tcp Bytes

/-! ## The box -/

/-- What a box for two pairs of keys does: one side seals every message, into a tag and as
many bytes, and the other side opens it. -/
structure SalsaBox.Correct (box : SalsaBox) (priv pub peerPriv peerPub : Bytes 32) : Prop where
  seals : ∀ nonce pt, ∃ ct, box.encrypt priv peerPub nonce pt = some ct
  length : ∀ nonce pt ct, box.encrypt priv peerPub nonce pt = some ct → ct.length = pt.length + 16
  opens : ∀ nonce pt ct, box.encrypt priv peerPub nonce pt = some ct →
    box.decrypt peerPriv pub nonce ct = some pt

namespace SalsaBox

/-- The key of the box for a private and a public key. -/
def sharedKey (priv pub : Bytes 32) : Bytes 32 :=
  SalsaPoly.hsalsa (X25519.dh priv pub) (List.replicate 16 0)

/-- The box by its definition: X25519 and XSalsa20-Poly1305. -/
def standard : SalsaBox where
  encrypt priv pub nonce pt := some (SalsaPoly.encrypt (sharedKey priv pub) nonce pt)
  decrypt priv pub nonce ct := SalsaPoly.decrypt (sharedKey priv pub) nonce ct

theorem standard_correct {a b : Bytes 32} (h : Crypto.standard.Commutes a b) :
    standard.Correct a (X25519.pubkey a) b (X25519.pubkey b) where
  seals nonce pt := ⟨_, rfl⟩
  length nonce pt ct hct := by
    rw [← Option.some_inj.mp hct, SalsaPoly.length_encrypt]
  opens nonce pt ct hct := by
    have hkey : sharedKey b (X25519.pubkey a) = sharedKey a (X25519.pubkey b) := by
      have hdh : X25519.dh a (X25519.pubkey b) = X25519.dh b (X25519.pubkey a) := h
      rw [sharedKey, sharedKey, hdh]
    have hct' : SalsaPoly.encrypt (sharedKey a (X25519.pubkey b)) nonce pt = ct :=
      Option.some_inj.mp hct
    have hopen : standard.decrypt b (X25519.pubkey a) nonce ct =
        SalsaPoly.decrypt (sharedKey b (X25519.pubkey a)) nonce ct := rfl
    rw [hopen, hkey, ← hct', SalsaPoly.decrypt_encrypt]

end SalsaBox

namespace Disco

/-! ## Plaintexts -/

/-- `ping_plaintext`. -/
def pingPlaintext (txid : Bytes 12) (nodePub : Bytes 32) : List UInt8 :=
  [ping, discoVersion] ++ txid.1 ++ nodePub.1

/-- The start of an IPv4 address that is mapped into IPv6. -/
def mappedPrefix : List UInt8 := List.replicate 10 0 ++ [0xff, 0xff]

/-- An endpoint as IPv4, if it is one or is mapped from one. -/
def ipv4Endpoint : SocketAddr → Option SocketAddr
  | .v4 ip port => some (.v4 ip port)
  | .v6 ip port _ _ =>
    if ip.1.take 12 = mappedPrefix then
      some (.v4 ⟨ip.1.drop 12, by rw [List.length_drop, ip.2]⟩ port)
    else none

theorem length_addrToBytes (addr : SocketAddr) : (addrToBytes addr).length = 18 := by
  cases addr with
  | v4 ip port => simp [addrToBytes, be16, ip.2]
  | v6 ip port flowinfo scopeId => simp [addrToBytes, be16, ip.2]

/-- The port behind an address of 16 bytes. -/
theorem port_of_addr {ip : List UInt8} (h : ip.length = 16) (port : UInt16) :
    UInt16.ofNat (u16At (ip ++ be16 port.toNat) 16) = port := by
  have hport : u16At (ip ++ be16 port.toNat) 16 = port.toNat := by
    rw [← h, ← Nat.add_zero ip.length, u16At_append]
    exact u16_of_be16 port.toNat_lt
  rw [hport, UInt16.ofNat_toNat]

theorem take_addr {head tail : List UInt8} (h : head.length = 12) : (head ++ tail).take 12 = head :=
  List.take_left' h

theorem slice_addr {head ip tail : List UInt8} (h : head.length = 12) (hip : ip.length = 4) :
    slice (head ++ ip ++ tail) 12 4 = ip := by
  rw [slice, List.append_assoc, List.drop_left' h, List.take_left' hip]

/-- **An endpoint is read back** as IPv4. -/
theorem bytesToAddr_addrToBytes (addr : SocketAddr) :
    bytesToAddr (addrToBytes addr) = ipv4Endpoint addr := by
  have hlen := length_addrToBytes addr
  have hmapped : mappedPrefix.length = 12 := rfl
  rw [bytesToAddr, dif_neg (by omega)]
  cases addr with
  | v4 ip port =>
    have hbytes : addrToBytes (.v4 ip port) = mappedPrefix ++ ip.1 ++ be16 port.toNat := rfl
    have hip16 : (mappedPrefix ++ ip.1).length = 16 := by rw [List.length_append, hmapped, ip.2]
    have hport := port_of_addr hip16 port
    have hip : slice (mappedPrefix ++ ip.1 ++ be16 port.toNat) 12 4 = ip.1 :=
      slice_addr hmapped ip.2
    rw [if_pos (by rw [hbytes, List.append_assoc, take_addr hmapped]; rfl), ipv4Endpoint]
    simp only [hbytes, hport, hip]
  | v6 ip port flowinfo scopeId =>
    have hbytes : addrToBytes (.v6 ip port flowinfo scopeId) = ip.1 ++ be16 port.toNat := rfl
    have hport := port_of_addr ip.2 port
    have htake : (ip.1 ++ be16 port.toNat).take 12 = ip.1.take 12 := by
      rw [List.take_append_of_le_length (by rw [ip.2]; decide)]
    have hip : slice (ip.1 ++ be16 port.toNat) 12 4 = ip.1.drop 12 := by
      rw [slice, List.drop_append_of_le_length (by rw [ip.2]; decide)]
      exact List.take_left' (by rw [List.length_drop, ip.2])
    simp only [ipv4Endpoint, hbytes, htake, hport, hip]
    rfl

/-! ## Opening -/

section Opening

variable {box : SalsaBox} {priv pub peerPriv peerPub : Bytes 32}

/-- What the other side opens of a message that was sealed. -/
def exchanged (box : SalsaBox) (priv pub peerPriv peerPub : Bytes 32) (nonce : Bytes 24)
    (pt : List UInt8) : Option Incoming :=
  (sealMsg box priv pub peerPub nonce pt).bind (openMsg box peerPriv)

/-- What is read from a plaintext. -/
def incoming (pub : Bytes 32) (pt : List UInt8) : Option Incoming :=
  if pt.length < 14 then none
  else some ⟨pub, pt.getD 0 0, slice pt 2 12,
    if pt.getD 0 0 = callMeMaybe then ((pt.drop 2).toChunks 18).filterMap bytesToAddr else []⟩

/-- **A sealed message is opened** and read, with the key of its sender. -/
theorem exchanged_eq (hbox : box.Correct priv pub peerPriv peerPub) (nonce : Bytes 24)
    (pt : List UInt8) :
    exchanged box priv pub peerPriv peerPub nonce pt = incoming pub pt := by
  obtain ⟨ct, hct⟩ := hbox.seals nonce pt
  have hctlen := hbox.length nonce pt ct hct
  have hmagic : magic.length = 6 := rfl
  obtain ⟨wire, hwire⟩ : ∃ wire, wire = magic ++ pub.1 ++ nonce.1 ++ ct := ⟨_, rfl⟩
  have hseal : sealMsg box priv pub peerPub nonce pt = some wire := by
    rw [sealMsg, hct, hwire]
    rfl
  have hlen : ¬ (wire.length < hdr + 16 ∨ wire.take 6 ≠ magic) := by
    rw [not_or, not_not]
    constructor
    · rw [hwire]
      simp only [List.length_append, hmagic, pub.2, nonce.2, hctlen, hdr]
      omega
    · rw [hwire, List.append_assoc, List.append_assoc]
      exact List.take_left' hmagic
  have hpub : slice wire 6 32 = pub.1 := by
    rw [hwire, slice, List.append_assoc, List.append_assoc, List.drop_left' hmagic,
      List.take_left' pub.2]
  have hnonce : slice wire 38 24 = nonce.1 := by
    rw [hwire, slice, List.append_assoc,
      List.drop_left' (by rw [List.length_append, hmagic, pub.2]), List.take_left' nonce.2]
  have hdrop : wire.drop 62 = ct := by
    rw [hwire]
    exact List.drop_left' (by simp only [List.length_append, hmagic, pub.2, nonce.2])
  rw [exchanged, hseal, Option.bind_some, openMsg, dif_neg hlen]
  simp only [hpub, hnonce, hdrop]
  rw [show box.decrypt peerPriv pub nonce ct = some pt from hbox.opens nonce pt ct hct]
  rfl

/-- A message with a transaction id. -/
theorem incoming_of_txid (pub : Bytes 32) {msgType : UInt8} (hne : msgType ≠ callMeMaybe)
    (txid : Bytes 12) (rest : List UInt8) :
    incoming pub ([msgType, discoVersion] ++ txid.1 ++ rest) = some ⟨pub, msgType, txid.1, []⟩ := by
  have htxid : slice ([msgType, discoVersion] ++ txid.1 ++ rest) 2 12 = txid.1 := by
    rw [slice, List.append_assoc]
    exact List.take_left' txid.2
  have htype : ([msgType, discoVersion] ++ txid.1 ++ rest).getD 0 0 = msgType := rfl
  have hlen : ¬ ([msgType, discoVersion] ++ txid.1 ++ rest).length < 14 := by
    simp only [List.length_append, List.length_cons, List.length_nil, txid.2]
    omega
  rw [incoming, if_neg hlen, htype, if_neg hne, htxid]

/-- A message with endpoints. -/
theorem incoming_callMeMaybe (pub : Bytes 32) {eps : List SocketAddr} (hne : eps ≠ []) :
    ∃ txid, incoming pub (callMeMaybePlaintext eps) =
      some ⟨pub, callMeMaybe, txid, eps.filterMap ipv4Endpoint⟩ := by
  have hchunks : (eps.flatMap addrToBytes).toChunks 18 = eps.map addrToBytes := by
    rw [List.flatMap_def]
    refine toChunks_flatten (by decide) fun c hc => ?_
    obtain ⟨addr, -, rfl⟩ := List.mem_map.mp hc
    exact length_addrToBytes addr
  have hread : (eps.map addrToBytes).filterMap bytesToAddr = eps.filterMap ipv4Endpoint := by
    rw [List.filterMap_map]
    exact List.filterMap_congr fun addr _ => bytesToAddr_addrToBytes addr
  have hlen : ¬ (callMeMaybePlaintext eps).length < 14 := by
    obtain ⟨addr, eps, rfl⟩ := List.exists_cons_of_ne_nil hne
    have haddr := length_addrToBytes addr
    simp only [callMeMaybePlaintext, List.flatMap_cons, List.length_append, List.length_cons, haddr]
    omega
  have htype : (callMeMaybePlaintext eps).getD 0 0 = callMeMaybe := rfl
  have hdrop : (callMeMaybePlaintext eps).drop 2 = eps.flatMap addrToBytes := rfl
  rw [incoming, if_neg hlen, htype, if_pos rfl, hdrop, hchunks, hread]
  exact ⟨_, rfl⟩

/-- **The messages of the two sides**: pings and pongs are opened with their type and
transaction id, and a call-me-maybe with its IPv4 endpoints in order exactly if it has an
endpoint. -/
theorem messages_open_iff (hbox : box.Correct priv pub peerPriv peerPub) (nonce : Bytes 24) :
    (∀ (txid : Bytes 12) (nodePub : Bytes 32), ∃ m,
      exchanged box priv pub peerPriv peerPub nonce (pingPlaintext txid nodePub) = some m ∧
        m.senderDiscoPub = pub ∧ m.msgType = ping ∧ m.txid = txid) ∧
    (∀ (txid : Bytes 12) (src : SocketAddr), ∃ m,
      exchanged box priv pub peerPriv peerPub nonce (pongPlaintext txid src) = some m ∧
        m.senderDiscoPub = pub ∧ m.msgType = pong ∧ m.txid = txid) ∧
    ∀ eps : List SocketAddr,
      (∃ m, exchanged box priv pub peerPriv peerPub nonce (callMeMaybePlaintext eps) = some m ∧
        m.senderDiscoPub = pub ∧ m.msgType = callMeMaybe ∧
        m.endpoints = eps.filterMap ipv4Endpoint) ↔ eps ≠ [] := by
  refine ⟨fun txid nodePub => ?_, fun txid src => ?_, fun eps => ?_⟩
  · rw [exchanged_eq hbox]
    exact ⟨_, incoming_of_txid pub (by decide) txid nodePub.1, rfl, rfl, rfl⟩
  · rw [exchanged_eq hbox]
    exact ⟨_, incoming_of_txid pub (by decide) txid (addrToBytes src), rfl, rfl, rfl⟩
  · rw [exchanged_eq hbox]
    constructor
    · rintro ⟨m, hm, -⟩ rfl
      cases hm
    · intro hne
      obtain ⟨txid, h⟩ := incoming_callMeMaybe pub hne
      exact ⟨_, h, rfl, rfl, rfl⟩

end Opening

open Wg (keyOf standard_commutes)

/-- One endpoint, sealed with X25519 and XSalsa20-Poly1305. -/
theorem messages_open_endpoint : ∃ m,
    exchanged SalsaBox.standard (keyOf 1) (X25519.pubkey (keyOf 1)) (keyOf 2)
        (X25519.pubkey (keyOf 2)) (zeros 24)
        (callMeMaybePlaintext [.v4 ⟨[192, 0, 2, 1], rfl⟩ 41641]) = some m ∧
      m.senderDiscoPub = X25519.pubkey (keyOf 1) ∧ m.msgType = callMeMaybe ∧
      m.endpoints = [.v4 ⟨[192, 0, 2, 1], rfl⟩ 41641] :=
  ((messages_open_iff (SalsaBox.standard_correct standard_commutes) (zeros 24)).2.2 _).mpr
    (List.cons_ne_nil _ _)

/-- **A call-me-maybe without endpoints** is sealed, and the other side refuses it. -/
theorem callMeMaybe_refused :
    (∃ wire, sealMsg SalsaBox.standard (keyOf 1) (X25519.pubkey (keyOf 1))
      (X25519.pubkey (keyOf 2)) (zeros 24) (callMeMaybePlaintext []) = some wire) ∧
    exchanged SalsaBox.standard (keyOf 1) (X25519.pubkey (keyOf 1)) (keyOf 2)
      (X25519.pubkey (keyOf 2)) (zeros 24) (callMeMaybePlaintext []) = none := by
  refine ⟨⟨_, rfl⟩, ?_⟩
  rw [exchanged_eq (SalsaBox.standard_correct standard_commutes)]
  rfl

end Disco
