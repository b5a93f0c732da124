/-
# Which protocol a datagram belongs to

WireGuard, disco and STUN share one socket, and `handle_packet` tells them apart by their
first bytes: the magic of disco at the start, the magic cookie of STUN at the fifth byte,
and then the type of a WireGuard message (`route`, `handlePacket_eq`).  In a WireGuard
message the fifth byte starts a session index, which is random.  Every message that was
built for an index reaches the handler of its type, unless the bytes of the index are the
magic cookie (`routed_iff`).
-/
import PySpell.DualCore
import PySpell.WgHandshake

open Tcp Bytes

namespace DataPlane

open DualCore (stunIndex)

/-- The branches of `handle_packet`. -/
inductive Route where
  | disco | stun | initiation | response | transport | dropped
  deriving DecidableEq, Repr

/-- The branch that a datagram takes. -/
def route (pkt : List UInt8) : Route :=
  if Disco.isDisco pkt then .disco
  else if Stun.isStun pkt then .stun
  else if pkt.head? = some Wg.msgInitiation then .initiation
  else if pkt.head? = some Wg.msgResponse then .response
  else if pkt.head? = some Wg.msgTransport then .transport
  else .dropped

/-- What a branch does with a datagram. -/
def State.handleRoute (b : Build) (id : Identity) (targets : List Target) (s : State)
    (tick : UInt32) (pkt : List UInt8) (src : SocketAddr) (d : Draw) :
    Route → State × List Effect
  | .disco => s.handleDisco b id targets tick pkt src d
  | .stun => (s, [])
  | .initiation => s.handleWgInit b id pkt src d
  | .response => s.handleWgResponse b pkt src
  | .transport => s.handleWgTransport b id pkt src d
  | .dropped => (s, [])

/-- `handle_packet` goes by the route. -/
theorem State.handlePacket_eq (b : Build) (id : Identity) (targets : List Target) (s : State)
    (tick : UInt32) (pkt : List UInt8) (src : SocketAddr) (d : Draw) :
    s.handlePacket b id targets tick pkt src d =
      s.handleRoute b id targets tick pkt src d (route pkt) := by
  unfold State.handlePacket route
  split_ifs <;> rfl

/-! ## Messages of a session -/

/-- A message that is built for a session index, and the branch it is for. -/
inductive Built (cr : Crypto) (index : UInt32) : Route → List UInt8 → Prop
  /-- `build_initiation`. -/
  | initiation (priv pub peer : Bytes 32) (timestamp : Bytes 12) (eph : Bytes 32) :
      Built cr index .initiation (Wg.buildInitiation cr priv pub peer timestamp index eph).1
  /-- `consume_initiation`. -/
  | response {priv pub : Bytes 32} {init : List UInt8} {eph : Bytes 32} {resp : List UInt8}
      {tun : Wg.Tunnel} {peer : Bytes 32}
      (h : Wg.consumeInitiation cr priv pub init index eph = .ok (resp, tun, peer)) :
      Built cr index .response resp
  /-- `Tunnel::encrypt`, for the index of the receiver. -/
  | transport {t : Wg.Tunnel} (h : t.theirIndex = index) (inner : List UInt8) :
      Built cr index .transport (t.encrypt cr inner).2

/-- The bytes of a session index, in one order and in the other. -/
theorem magicCookie_iff {l : List UInt8} (h : 8 ≤ l.length) :
    Tcp.u32At l 4 = Stun.magicCookie ↔ Wg.u32At l 4 = stunIndex := by
  obtain ⟨b0, b1, b2, b3, hslice⟩ : ∃ b0 b1 b2 b3, slice l 4 4 = [b0, b1, b2, b3] :=
    List.length_eq_four.mp (length_slice h)
  have hget : ∀ i < 4, l.getD (4 + i) 0 = (slice l 4 4).getD i 0 := by
    intro i hi
    rw [slice, List.getD_eq_getElem?_getD, List.getD_eq_getElem?_getD,
      List.getElem?_take_of_lt hi, List.getElem?_drop]
  have hbe : Tcp.u32At l 4 = UInt32.ofNat ((b0.toNat * 256 + b1.toNat) * 65536 +
      (b2.toNat * 256 + b3.toNat)) := by
    rw [Tcp.u32At, u16At, u16At, hget 0 (by decide), hget 1 (by decide), hget 2 (by decide),
      hget 3 (by decide), hslice]
    rfl
  have hle : Wg.u32At l 4 = UInt32.ofNat (b0.toNat + 256 * (b1.toNat + 256 * (b2.toNat +
      256 * (b3.toNat + 256 * 0)))) := by
    rw [Wg.u32At, hslice]
    rfl
  have h0 := b0.toNat_lt
  have h1 := b1.toNat_lt
  have h2 := b2.toNat_lt
  have h3 := b3.toNat_lt
  have hcookie : Stun.magicCookie.toNat = 0x2112A442 := rfl
  have hindex : stunIndex.toNat = 0x42A41221 := rfl
  rw [hbe, hle, ← UInt32.toNat_inj, ← UInt32.toNat_inj, UInt32.toNat_ofNat', UInt32.toNat_ofNat',
    hcookie, hindex]
  omega

/-- The first byte of a message for each handler. -/
def Route.msgType : Route → Option UInt8
  | .initiation => some Wg.msgInitiation
  | .response => some Wg.msgResponse
  | .transport => some Wg.msgTransport
  | _ => none

/-- A message starts with its type, and its session index follows. -/
structure Headed (index : UInt32) (r : Route) (pkt : List UInt8) : Prop where
  length : 8 ≤ pkt.length
  type : pkt.head? = r.msgType
  index : Wg.u32At pkt 4 = index

theorem head_of_getD {pkt : List UInt8} {b : UInt8} (hlen : 0 < pkt.length)
    (h : pkt.getD 0 0 = b) : pkt.head? = some b := by
  cases pkt with
  | nil => cases hlen
  | cons a rest => exact congrArg some h

/-- The response to an initiation, by its fields. -/
theorem response_of_consume {cr : Crypto} {priv pub eph : Bytes 32} {init resp : List UInt8}
    {index : UInt32} {tun : Wg.Tunnel} {peer : Bytes 32}
    (h : Wg.consumeInitiation cr priv pub init index eph = .ok (resp, tun, peer)) :
    ∃ (theirIndex : UInt32) (ephPub encEmpty : List UInt8) (mac : Bytes 16),
      ephPub.length = 32 ∧ encEmpty.length = 16 ∧
      resp = put (Wg.layoutResponse index theirIndex ephPub encEmpty) 60 mac := by
  unfold Wg.consumeInitiation at h
  split at h
  · cases h
  split at h
  · cases h
  dsimp only at h
  split at h
  · cases h
  split at h
  · cases h
  split at h
  · cases h
  obtain ⟨rfl, -, -⟩ := Prod.mk.inj (Except.ok.inj h)
  refine ⟨_, _, _, _, (cr.pubkey eph).2, ?_, rfl⟩
  rw [Wg.length_sealMsg]
  rfl

/-- **Every message of a session is headed.** -/
theorem Built.headed {cr : Crypto} {index : UInt32} {r : Route} {pkt : List UInt8}
    (h : Built cr index r pkt) : r.msgType.isSome ∧ Headed index r pkt := by
  cases h with
  | initiation priv pub peer timestamp eph =>
    obtain ⟨encStatic, encTs, mac, hstatic, hts, hmsg⟩ : ∃ (encStatic encTs : List UInt8)
        (mac : Bytes 16), encStatic.length = 48 ∧ encTs.length = 28 ∧
        (Wg.buildInitiation cr priv pub peer timestamp index eph).1 =
          put (Wg.layoutInitiation index (cr.pubkey eph) encStatic encTs) 116 mac := by
      refine ⟨_, _, _, ?_, ?_, rfl⟩
      · rw [Wg.length_sealMsg, pub.2]
      · rw [Wg.length_sealMsg, timestamp.2]
    obtain ⟨hlen, htype, hindex, -⟩ :=
      Wg.initiation_fields index (cr.pubkey eph).2 hstatic hts mac
    rw [hmsg]
    have hpos : 8 ≤ Wg.initLen := by decide
    exact ⟨rfl, hlen ▸ hpos, head_of_getD (by omega) htype, hindex⟩
  | response h =>
    obtain ⟨theirIndex, ephPub, encEmpty, mac, heph, hempty, hmsg⟩ := response_of_consume h
    obtain ⟨hlen, htype, hindex, -⟩ := Wg.response_fields index theirIndex heph hempty mac
    rw [hmsg]
    have hpos : 8 ≤ Wg.respLen := by decide
    exact ⟨rfl, hlen ▸ hpos, head_of_getD (by omega) htype, hindex⟩
  | @transport t h inner =>
    have hlen := Wg.length_encrypt cr t inner
    exact ⟨rfl, by omega, rfl, by rw [Wg.u32At_encrypt, h]⟩

/-- A headed message takes its branch, unless its index looks like STUN. -/
theorem route_of_headed {index : UInt32} {r : Route} {pkt : List UInt8} (hr : r.msgType.isSome)
    (h : Headed index r pkt) : route pkt = if index = stunIndex then .stun else r := by
  have hdisco : Disco.isDisco pkt = false := by
    have htype := h.type
    cases pkt with
    | nil => rfl
    | cons a rest =>
      refine Disco.isDisco_cons (fun ha => ?_) rest
      subst ha
      cases r with
      | initiation => exact absurd (Option.some_inj.mp htype) (by decide)
      | response => exact absurd (Option.some_inj.mp htype) (by decide)
      | transport => exact absurd (Option.some_inj.mp htype) (by decide)
      | _ => cases hr
  have hstun : Stun.isStun pkt = decide (index = stunIndex) := by
    rw [Stun.isStun, decide_eq_true h.length, Bool.true_and, decide_eq_decide,
      magicCookie_iff h.length, h.index]
  rw [route, hdisco, hstun, if_neg Bool.false_ne_true]
  by_cases hindex : index = stunIndex
  · rw [if_pos (decide_eq_true hindex), if_pos hindex]
  · rw [if_neg (by simpa using hindex), if_neg hindex, h.type]
    cases r with
    | initiation => rfl
    | response => rfl
    | transport => rfl
    | disco => cases hr
    | stun => cases hr
    | dropped => cases hr

/-! ## Routing -/

/-- A packet for an index, of a tunnel without a handshake. -/
def keepaliveFor (cr : Crypto) (index : UInt32) : List UInt8 :=
  (Wg.Tunnel.encrypt cr ⟨zeros 32, zeros 32, index, 0, 0⟩ []).2

theorem built_keepaliveFor (cr : Crypto) (index : UInt32) :
    Built cr index .transport (keepaliveFor cr index) :=
  .transport (t := ⟨zeros 32, zeros 32, index, 0, 0⟩) rfl []

/-- **Every message that is built for an index reaches the handler of its type** exactly if
the bytes of the index are not the magic cookie of STUN. -/
theorem routed_iff (b : Build) (id : Identity) (index : UInt32) :
    (∀ r pkt, Built b.cr index r pkt → route pkt = r ∧
      ∀ (targets : List Target) (s : State) (tick : UInt32) (src : SocketAddr) (d : Draw),
        s.handlePacket b id targets tick pkt src d =
          s.handleRoute b id targets tick pkt src d r) ↔ index ≠ stunIndex := by
  constructor
  · rintro hrouted rfl
    have hbuilt := built_keepaliveFor b.cr stunIndex
    obtain ⟨hr, hhead⟩ := hbuilt.headed
    have hroute := (hrouted _ _ hbuilt).1
    rw [route_of_headed hr hhead, if_pos rfl] at hroute
    cases hroute
  · intro hne r pkt hbuilt
    obtain ⟨hr, hhead⟩ := hbuilt.headed
    have hroute : route pkt = r := by rw [route_of_headed hr hhead, if_neg hne]
    refine ⟨hroute, fun targets s tick src d => ?_⟩
    rw [s.handlePacket_eq, hroute]

/-- A keepalive for the index `0x42A41221` is taken for STUN and dropped, in every state. -/
theorem keepalive_taken_for_stun :
    Built Crypto.standard stunIndex .transport (keepaliveFor Crypto.standard stunIndex) ∧
      route (keepaliveFor Crypto.standard stunIndex) = .stun ∧
      ∀ (b : Build) (id : Identity) (targets : List Target) (s : State) (tick : UInt32)
        (src : SocketAddr) (d : Draw),
        s.handlePacket b id targets tick (keepaliveFor Crypto.standard stunIndex) src d =
          (s, []) := by
  have hbuilt := built_keepaliveFor Crypto.standard stunIndex
  obtain ⟨hr, hhead⟩ := hbuilt.headed
  have hroute : route (keepaliveFor Crypto.standard stunIndex) = .stun := by
    rw [route_of_headed hr hhead, if_pos rfl]
  refine ⟨hbuilt, hroute, fun b id targets s tick src d => ?_⟩
  rw [s.handlePacket_eq, hroute]
  rfl

end DataPlane
