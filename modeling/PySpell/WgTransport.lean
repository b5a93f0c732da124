/-
# Transport

Three facts about the records of a tunnel (`TransportSound`).  Every record of a tunnel
is sealed under the counter in its header, and no two records show the same one.  The
other end recovers what was sent, padded with zeros.  And the zeros do not matter to
those who read the packet: each of them takes the length from the header of the packet,
and reads nothing behind it.
-/
import PySpell.WgHandshake
import PySpell.Icmp
import Mathlib.Data.List.Nodup

open Tcp Bytes Icmp

namespace Wg

variable (cr : Crypto)

/-! ## What `encrypt` writes -/

/-- The header of a packet has 16 bytes, and the last eight of them are the counter. -/
theorem encrypt_eq (t : Tunnel) (inner : List UInt8) :
    ∃ head, head.length = 16 ∧ head.drop 8 = Bytes.ofNat 8 t.txCounter.toNat ∧
      head.head? = some msgTransport ∧
      (t.encrypt cr inner).2 = head ++ sealMsg cr t.sendKey t.txCounter (pad16 inner) [] := by
  have hidx : (leU32 t.theirIndex).length = 4 := length_ofNat 4 _
  have hctr : (Bytes.ofNat 8 t.txCounter.toNat).length = 8 := length_ofNat 8 _
  have hpre : ([msgTransport, 0, 0, 0] ++ leU32 t.theirIndex).length = 8 := by
    rw [List.length_append, hidx]
    rfl
  refine ⟨[msgTransport, 0, 0, 0] ++ leU32 t.theirIndex ++ Bytes.ofNat 8 t.txCounter.toNat,
    ?_, ?_, rfl, rfl⟩
  · rw [List.length_append, hpre, hctr]
  · exact List.drop_left' hpre

/-- The counter in the header is the one of the tunnel. -/
theorem counterAt_encrypt (t : Tunnel) (inner : List UInt8) :
    counterAt (t.encrypt cr inner).2 = t.txCounter := by
  obtain ⟨head, hlen, hctr, -, hpkt⟩ := encrypt_eq cr t inner
  have hbound := t.txCounter.toNat_lt
  have hslice : slice (head ++ sealMsg cr t.sendKey t.txCounter (pad16 inner) []) 8 8 =
      Bytes.ofNat 8 t.txCounter.toNat := by
    rw [slice, List.drop_append_of_le_length (by omega), hctr,
      List.take_left' (length_ofNat 8 _)]
  rw [hpkt, counterAt, hslice, toNat_ofNat (by omega)]
  exact UInt64.ofNat_toNat

/-- Behind the header is the padded packet, sealed under that counter. -/
theorem drop_encrypt (t : Tunnel) (inner : List UInt8) :
    (t.encrypt cr inner).2.drop 16 = sealMsg cr t.sendKey t.txCounter (pad16 inner) [] := by
  obtain ⟨head, hlen, -, -, hpkt⟩ := encrypt_eq cr t inner
  rw [hpkt, List.drop_left' hlen]

/-! ## Nonces -/

/-- The packets that a run of `encrypt` calls emits. -/
def Tunnel.packets (t : Tunnel) : List (List UInt8) → List (List UInt8)
  | [] => []
  | inner :: inners => (t.encrypt cr inner).2 :: (t.encrypt cr inner).1.packets inners

/-- The body of a packet is the padded one, sealed with the key and with the nonce that the
header of the packet shows. -/
def SealedUnder (key : Bytes 32) (inner pkt : List UInt8) : Prop :=
  pkt.drop 16 = sealMsg cr key (counterAt pkt) (pad16 inner) []

/-- The key and the nonce that a packet was sealed with. -/
def nonceOf (key : Bytes 32) (pkt : List UInt8) : Bytes 32 × Bytes 12 :=
  (key, leNonce (counterAt pkt))

/-- The nonce determines the counter. -/
theorem leNonce_inj {a b : UInt64} (h : leNonce a = leNonce b) : a = b := by
  have hval := congrArg Subtype.val h
  have hbytes : Bytes.ofNat 8 a.toNat = Bytes.ofNat 8 b.toNat := List.append_cancel_left hval
  have ha := a.toNat_lt
  have hb := b.toNat_lt
  have hnat := congrArg Bytes.toNat hbytes
  rw [toNat_ofNat (by omega), toNat_ofNat (by omega)] at hnat
  exact UInt64.toNat_inj.mp hnat

/-- **Each packet of a run is sealed under the counter that it carries**, with the key of
the tunnel. -/
theorem sealedUnder_packets (inners : List (List UInt8)) :
    ∀ t : Tunnel, List.Forall₂ (SealedUnder cr t.sendKey) inners (t.packets cr inners) := by
  induction inners with
  | nil => exact fun _ => .nil
  | cons inner inners ih =>
    intro t
    refine .cons ?_ (ih (t.encrypt cr inner).1)
    rw [SealedUnder, counterAt_encrypt]
    exact drop_encrypt cr t inner

/-- The counters of a run: the one it starts with, and those after it. -/
theorem counters_packets {inners : List (List UInt8)} :
    ∀ {t : Tunnel}, t.txCounter.toNat + inners.length ≤ 2 ^ 64 →
      (t.packets cr inners).map (fun pkt => (counterAt pkt).toNat) =
        List.range' t.txCounter.toNat inners.length := by
  induction inners with
  | nil => exact fun _ => rfl
  | cons inner inners ih =>
    intro t hlen
    rw [List.length_cons] at hlen
    rw [Tunnel.packets, List.map_cons, counterAt_encrypt, List.length_cons, List.range'_succ]
    congr 1
    cases inners with
    | nil => rfl
    | cons inner' inners' =>
      have hone : (1 : UInt64).toNat = 1 := rfl
      have hnext : (t.encrypt cr inner).1.txCounter.toNat = t.txCounter.toNat + 1 := by
        change (t.txCounter + 1).toNat = _
        rw [UInt64.toNat_add, hone]
        rw [List.length_cons] at hlen
        omega
      rw [ih (by rw [hnext]; omega), hnext]

/-- **No nonce is used twice** in a run of at most `2^64` packets. -/
theorem nodup_nonces {inners : List (List UInt8)} {t : Tunnel}
    (hlen : t.txCounter.toNat + inners.length ≤ 2 ^ 64) (key : Bytes 32) :
    ((t.packets cr inners).map (nonceOf key)).Nodup := by
  have hcounters : ((t.packets cr inners).map counterAt).Nodup := by
    apply List.Nodup.of_map UInt64.toNat
    rw [List.map_map]
    exact (counters_packets cr hlen).symm ▸ List.nodup_range'
  have hnonces : (t.packets cr inners).map (nonceOf key) =
      ((t.packets cr inners).map counterAt).map fun n => (key, leNonce n) := by
    rw [List.map_map]
    rfl
  rw [hnonces]
  exact hcounters.map fun _ _ h => leNonce_inj (Prod.mk.inj h).2

/-! ## Round trip -/

/-- The zeros go up to a multiple of 16. -/
theorem length_pad16 (inner : List UInt8) : (pad16 inner).length % 16 = 0 := by
  rw [pad16, List.length_append, List.length_replicate]
  omega

/-- `decrypt` and `decrypt_transport` agree on every packet. -/
theorem decryptTransport_eq (t : Tunnel) (pkt : List UInt8) :
    decryptTransport cr t.recvKey pkt = (t.decrypt cr pkt).toOption := by
  unfold decryptTransport Tunnel.decrypt
  by_cases hlen : pkt.length < 32
  · rw [if_pos (Or.inl hlen), if_pos hlen]
    rfl
  by_cases htype : pkt.getD 0 0 ≠ msgTransport
  · rw [if_pos (Or.inr htype), if_neg hlen, if_pos htype]
    rfl
  · rw [if_neg (by rintro (h | h) <;> contradiction), if_neg hlen, if_neg htype]
    cases openMsg cr t.recvKey (counterAt pkt) (pkt.drop 16) [] with
    | none => rfl
    | some pt => rfl

/-- A sealed packet has sixteen bytes of header and sixteen of tag. -/
theorem length_encrypt (t : Tunnel) (inner : List UInt8) :
    (t.encrypt cr inner).2.length = (pad16 inner).length + 32 := by
  have hpkt : (t.encrypt cr inner).2 = [msgTransport, 0, 0, 0] ++ leU32 t.theirIndex ++
      Bytes.ofNat 8 t.txCounter.toNat ++ sealMsg cr t.sendKey t.txCounter (pad16 inner) [] := rfl
  have hidx : (leU32 t.theirIndex).length = 4 := length_ofNat 4 _
  rw [hpkt, List.length_append, List.length_append, List.length_append, length_sealMsg,
    length_ofNat, hidx]
  simp only [List.length_cons, List.length_nil]
  omega

/-- A packet names the tunnel of the receiver. -/
theorem u32At_encrypt (t : Tunnel) (inner : List UInt8) :
    u32At (t.encrypt cr inner).2 4 = t.theirIndex := by
  have hidx : (leU32 t.theirIndex).length = 4 := length_ofNat 4 _
  apply u32At_of_slice
  rw [← hidx]
  change ((leU32 t.theirIndex ++ _ ++ _).drop 0).take _ = _
  rw [List.drop_zero, List.append_assoc, List.take_left]

/-- **The other end recovers the padded packet.** -/
theorem decrypt_encrypt (hopen : cr.Opens) {a b : Tunnel} (hkey : a.sendKey = b.recvKey)
    (inner : List UInt8) : b.decrypt cr (a.encrypt cr inner).2 = .ok (pad16 inner) := by
  obtain ⟨head, hlen, -, hhead, hpkt⟩ := encrypt_eq cr a inner
  have htype : (a.encrypt cr inner).2.getD 0 0 = msgTransport := by
    rw [hpkt, List.getD_eq_getElem?_getD, List.getElem?_append_left (by omega),
      ← List.head?_eq_getElem?, hhead]
    rfl
  unfold Tunnel.decrypt
  rw [htype, if_neg (by rw [length_encrypt]; omega), if_neg (not_not.mpr rfl), drop_encrypt,
    counterAt_encrypt, ← hkey, openMsg_sealMsg cr hopen]

/-! ## Padding -/

/-- The length in the header of an IP packet is the length of the packet. -/
def HeaderMatches (inner : List UInt8) : Prop :=
  (version inner = 4 ∧ u16At inner 2 = inner.length) ∨
    (version inner = 6 ∧ 40 + u16At inner 4 = inner.length)

/-- A byte behind the end reads as zero, with the padding and without. -/
theorem getD_pad16 (inner : List UInt8) (i : ℕ) : (pad16 inner).getD i 0 = inner.getD i 0 := by
  rw [pad16, List.getD_eq_getElem?_getD, List.getD_eq_getElem?_getD]
  by_cases h : i < inner.length
  · rw [List.getElem?_append_left h]
  · rw [List.getElem?_append_right (by omega), List.getElem?_eq_none (l := inner) (by omega),
      List.getElem?_replicate]
    split
    · rfl
    · rfl

/-- Zeros behind a packet change no field of it: beyond the end a field reads as zero anyway. -/
theorem u16At_pad16 (inner : List UInt8) (i : ℕ) : u16At (pad16 inner) i = u16At inner i := by
  rw [u16At, u16At, getD_pad16, getD_pad16]

/-- The version is read from the first byte. -/
theorem version_pad16 (inner : List UInt8) : version (pad16 inner) = version inner := by
  rw [version, version, getD_pad16]

/-- Addresses are read alike. -/
theorem ipAt_pad16 (inner : List UInt8) (i : ℕ) : ipAt (pad16 inner) i = ipAt inner i := by
  rw [ipAt, ipAt, getD_pad16, getD_pad16, getD_pad16, getD_pad16]

/-- The bytes of the packet itself stay in front. -/
theorem take_pad16 {inner : List UInt8} {n : ℕ} (h : n ≤ inner.length) :
    (pad16 inner).take n = inner.take n := List.take_append_of_le_length h

/-- Padding only adds bytes. -/
theorem length_le_pad16 (inner : List UInt8) : inner.length ≤ (pad16 inner).length := by
  rw [pad16, List.length_append]
  omega

/-- **The TCP server reads the same packet.** -/
theorem parsePacket_pad16 {inner : List UInt8} (h : HeaderMatches inner) :
    parsePacket (pad16 inner) = parsePacket inner := by
  have hle := length_le_pad16 inner
  unfold parsePacket
  rw [getD_pad16, getD_pad16, u16At_pad16]
  rcases h with ⟨hv, htotal⟩ | ⟨hv, -⟩
  · change (inner.getD 0 0).toNat / 16 = 4 at hv
    by_cases hshort : inner.length < 20
    · -- too short for a header, also with the padding
      rw [if_pos (Or.inl hshort)]
      split
      · rfl
      · dsimp only
        rw [if_pos (by omega)]
    · by_cases hproto : inner.getD 9 0 ≠ protoTcp
      · rw [if_pos (Or.inr (Or.inr hproto)), if_pos (Or.inr (Or.inr hproto))]
      · rw [not_not] at hproto
        have hhead : ∀ n, 20 ≤ n → ¬ (n < 20 ∨ (inner.getD 0 0).toNat / 16 ≠ 4 ∨
            inner.getD 9 0 ≠ protoTcp) := by
          rintro n hn (h | h | h)
          · omega
          · exact h hv
          · exact h hproto
        rw [if_neg (hhead _ (by omega)), if_neg (hhead _ (by omega))]
        dsimp only
        by_cases hihl : (inner.getD 0 0).toNat % 16 * 4 < 20 ∨
            u16At inner 2 < (inner.getD 0 0).toNat % 16 * 4 + 20
        · rw [if_pos (hihl.imp_right Or.inl), if_pos (hihl.imp_right Or.inl)]
        · have hlens : ∀ n, inner.length ≤ n → ¬ ((inner.getD 0 0).toNat % 16 * 4 < 20 ∨
              u16At inner 2 < (inner.getD 0 0).toNat % 16 * 4 + 20 ∨ n < u16At inner 2) := by
            intro n hn
            omega
          rw [if_neg (hlens _ hle), if_neg (hlens _ le_rfl), take_pad16 htotal.le, ipAt_pad16,
            ipAt_pad16]
  · have hne : (inner.getD 0 0).toNat / 16 ≠ 4 := by
      change (inner.getD 0 0).toNat / 16 = 6 at hv
      omega
    rw [if_pos (Or.inr (Or.inl hne)), if_pos (Or.inr (Or.inl hne))]

/-- **The server takes a padded packet as it is**, because its headers say how long it is. -/
theorem process_pad16 {inner : List UInt8} (h : HeaderMatches inner) (s : TcpServer) (now : ℕ)
    (iss : UInt32) (blast : Bool) :
    s.process (pad16 inner) now iss blast = s.process inner now iss blast := by
  have hreceive : s.receive (pad16 inner) now iss = s.receive inner now iss := by
    unfold TcpServer.receive
    rw [parsePacket_pad16 h]
  unfold TcpServer.process
  rw [hreceive]

/-- So does the answer to an echo request: it is as long as the header says. -/
theorem echoReply_pad16 {inner : List UInt8} (hv : version inner = 4)
    (htotal : u16At inner 2 = inner.length) : echoReply (pad16 inner) = echoReply inner := by
  have hle := length_le_pad16 inner
  unfold echoReply
  rw [version_pad16, getD_pad16, getD_pad16, u16At_pad16]
  by_cases hshort : inner.length < 20
  · rw [if_pos (Or.inl hshort)]
    split
    · rfl
    · dsimp only
      rw [if_pos (by omega)]
  · have hhead : ∀ n, 20 ≤ n → ¬ (n < 20 ∨ version inner ≠ 4) := by
      rintro n hn (h | h)
      · omega
      · exact h hv
    rw [if_neg (hhead _ (by omega)), if_neg (hhead _ (by omega))]
    dsimp only
    by_cases hihl : (inner.getD 0 0).toNat % 16 * 4 < 20 ∨
        u16At inner 2 < (inner.getD 0 0).toNat % 16 * 4
    · rw [if_pos (hihl.imp_right Or.inl), if_pos (hihl.imp_right Or.inl)]
    · have hlens : ∀ n, inner.length ≤ n → ¬ ((inner.getD 0 0).toNat % 16 * 4 < 20 ∨
          u16At inner 2 < (inner.getD 0 0).toNat % 16 * 4 ∨ n < u16At inner 2) := by
        intro n hn
        omega
      rw [if_neg (hlens _ hle), if_neg (hlens _ le_rfl), take_pad16 htotal.le]

/-- And the one over IPv6. -/
theorem echoReplyV6_pad16 {inner : List UInt8} (htotal : 40 + u16At inner 4 = inner.length) :
    echoReplyV6 (pad16 inner) = echoReplyV6 inner := by
  have hle := length_le_pad16 inner
  unfold echoReplyV6
  rw [version_pad16, getD_pad16, getD_pad16, u16At_pad16]
  by_cases hv : version inner ≠ 6 ∨ inner.getD 6 0 ≠ nextHdrIcmpv6
  · rw [if_pos (Or.inr hv), if_pos (Or.inr hv)]
  · have hhead : ∀ n, 40 ≤ n →
        ¬ (n < 40 ∨ version inner ≠ 6 ∨ inner.getD 6 0 ≠ nextHdrIcmpv6) := by
      rintro n hn (h | h)
      · omega
      · exact hv h
    rw [if_neg (hhead _ (by omega)), if_neg (hhead _ (by omega))]
    dsimp only
    by_cases hlen : u16At inner 4 < 8
    · rw [if_pos (Or.inl hlen), if_pos (Or.inl hlen)]
    · have hlens : ∀ n, inner.length ≤ n → ¬ (u16At inner 4 < 8 ∨ n < 40 + u16At inner 4) := by
        intro n hn
        omega
      rw [if_neg (hlens _ hle), if_neg (hlens _ le_rfl), take_pad16 htotal.le]

/-- **The echo answers the same.** -/
theorem echoReplyAny_pad16 {inner : List UInt8} (h : HeaderMatches inner) :
    echoReplyAny (pad16 inner) = echoReplyAny inner := by
  cases inner with
  | nil => rfl
  | cons b rest =>
    change (if version (pad16 (b :: rest)) = 4 then echoReply (pad16 (b :: rest))
      else if version (pad16 (b :: rest)) = 6 then echoReplyV6 (pad16 (b :: rest)) else none) =
      (if version (b :: rest) = 4 then echoReply (b :: rest)
      else if version (b :: rest) = 6 then echoReplyV6 (b :: rest) else none)
    rw [version_pad16]
    rcases h with ⟨hv, htotal⟩ | ⟨hv, htotal⟩
    · rw [if_pos hv, if_pos hv, echoReply_pad16 hv htotal]
    · rw [if_neg (by omega), if_pos hv, if_neg (by omega), if_pos hv, echoReplyV6_pad16 htotal]

/-! ## The three facts -/

/-- What the transport promises. -/
structure TransportSound : Prop where
  /-- Of fewer than `2^64` packets of a tunnel whose counter starts at zero each is sealed
  with the key of the tunnel and the nonce that it carries, and no two with the same. -/
  nonces : ∀ (t : Tunnel) (inners : List (List UInt8)), t.txCounter = 0 →
    inners.length < 2 ^ 64 →
    List.Forall₂ (SealedUnder cr t.sendKey) inners (t.packets cr inners) ∧
      ((t.packets cr inners).map (nonceOf t.sendKey)).Nodup
  /-- The other end recovers the packet, with zeros up to a multiple of 16. -/
  recovers : ∀ (a b : Tunnel) (inner : List UInt8), a.sendKey = b.recvKey →
    b.decrypt cr (a.encrypt cr inner).2 = .ok (pad16 inner) ∧
      decryptTransport cr b.recvKey (a.encrypt cr inner).2 = some (pad16 inner)
  padding : ∀ inner, (pad16 inner).length % 16 = 0 ∧
    ∃ k < 16, pad16 inner = inner ++ List.replicate k 0
  agree : ∀ (t : Tunnel) (pkt : List UInt8),
    decryptTransport cr t.recvKey pkt = (t.decrypt cr pkt).toOption
  /-- The zeros do not matter to the readers of the packet. -/
  invisible : ∀ inner, HeaderMatches inner →
    (∀ (s : TcpServer) (now : ℕ) (iss : UInt32) (blast : Bool),
      s.process (pad16 inner) now iss blast = s.process inner now iss blast) ∧
    echoReplyAny (pad16 inner) = echoReplyAny inner

/-- **The transport keeps its promises**, when decryption undoes encryption. -/
theorem transport_sound (hopen : cr.Opens) : TransportSound cr where
  nonces := by
    intro t inners hzero hlen
    refine ⟨sealedUnder_packets cr inners t, nodup_nonces cr ?_ t.sendKey⟩
    rw [hzero]
    change 0 + inners.length ≤ 2 ^ 64
    omega
  recovers := by
    intro a b inner hkey
    have hdecrypt := decrypt_encrypt cr hopen hkey inner
    refine ⟨hdecrypt, ?_⟩
    rw [decryptTransport_eq, hdecrypt]
    rfl
  padding := fun inner => ⟨length_pad16 inner, _, by omega, rfl⟩
  agree := decryptTransport_eq cr
  invisible := fun inner h => ⟨process_pad16 h, echoReplyAny_pad16 h⟩

/-- The transport over ChaCha20-Poly1305. -/
theorem transport_sound_standard : TransportSound Crypto.standard :=
  transport_sound Crypto.standard Crypto.standard_opens

end Wg
