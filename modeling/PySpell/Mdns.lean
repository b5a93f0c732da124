/-
# The mDNS bridge between two networks

`mdns.rs` and its part of `dataplane.rs`.  On each of two networks a reflector captures what
the hosts multicast, the data plane forwards it through the tunnel to the partner, and the
reflector of the partner multicasts it again.  What a reflector captured or injected lately
is not forwarded (`remember`, `Station.capture`).

A forwarded payload leaves one data plane in a datagram (`State.sealed_mdnsDrain`), and the
other data plane hands it to its reflector (`State.handlePacket_sealed`).  `bridge_safe` is
about every run of the two stations: nothing is lost, repeated or made up on the way but what
the network between them loses or repeats, and no payload is forwarded that is one of the last
64 by its hash.  The reflector is a thread of its own, so its turns and those of the data
plane come in any order; that the socket cannot be bound is left out.
-/
import PySpell.DataPlaneSteps
import PySpell.Lib.Recent
import PySpell.Lib.Runs
import Mathlib.Data.List.Perm.Basic

open Tcp Bytes

/-! ## The path of a payload -/

namespace DataPlane

/-- A forwarded payload, in the tunnel. -/
def mdnsPacket (ourIp partnerIp : Ip) (payload : List UInt8) : List UInt8 :=
  Outbound.udpDatagram ourIp partnerIp fwdPort fwdPort payload

/-- The header of a packet, and what it carries. -/
theorem ipv4Packet_header (src dst : Ip) (proto : UInt8) (l4 : List UInt8) :
    ∃ header : List UInt8, header.length = 20 ∧
      Outbound.ipv4Packet src dst proto l4 = header ++ l4 ∧ header.getD 0 0 = 0x45 ∧
      header.getD 9 0 = proto ∧ (20 + l4.length < 65536 → u16At header 2 = 20 + l4.length) ∧
      u32At header 12 = u32At src.bytes 0 := by
  obtain ⟨sum, hsum⟩ : ∃ sum, Outbound.ipv4Packet src dst proto l4 =
      ([0x45, 0] ++ be16 (20 + l4.length) ++ [0, 0, 0x40, 0, 64, proto] ++ be16 sum ++ src.bytes ++
        dst.bytes) ++ l4 := ⟨_, rfl⟩
  exact ⟨_, rfl, hsum, rfl, rfl, u16_of_be16, rfl⟩

/-- The parts of a forwarded payload's packet. -/
theorem mdnsPacket_header (ourIp partnerIp : Ip) (payload : List UInt8) :
    ∃ header udp : List UInt8, header.length = 20 ∧ udp.length = 8 + payload.length ∧
      mdnsPacket ourIp partnerIp payload = header ++ udp ∧ header.getD 0 0 = 0x45 ∧
      header.getD 9 0 = Outbound.protoUdp ∧
      (28 + payload.length < 65536 → u16At header 2 = 28 + payload.length) ∧
      u32At header 12 = u32At ourIp.bytes 0 ∧ u16At udp 2 = fwdPort ∧ udp.drop 8 = payload := by
  obtain ⟨sum, hsum⟩ : ∃ sum, mdnsPacket ourIp partnerIp payload =
      Outbound.ipv4Packet ourIp partnerIp Outbound.protoUdp (be16 fwdPort ++ be16 fwdPort ++
        be16 (8 + payload.length) ++ be16 sum ++ payload) := by
    unfold mdnsPacket Outbound.udpDatagram
    exact ⟨_, rfl⟩
  obtain ⟨header, hlen, hpkt, hversion, hproto, htotal, hsrc⟩ := ipv4Packet_header ourIp partnerIp
    Outbound.protoUdp (be16 fwdPort ++ be16 fwdPort ++ be16 (8 + payload.length) ++ be16 sum ++
      payload)
  have hudp : (be16 fwdPort ++ be16 fwdPort ++ be16 (8 + payload.length) ++ be16 sum ++
      payload).length = 8 + payload.length := by
    rw [List.length_append]
    rfl
  rw [hudp, ← Nat.add_assoc] at htotal
  exact ⟨header, _, hlen, hudp, hsum.trans hpkt, hversion, hproto, htotal, hsrc,
    u16_of_be16 (n := fwdPort) (by decide), rfl⟩

/-- The header of a forwarded packet, byte by byte. -/
theorem getD_mdnsPacket (ourIp partnerIp : Ip) (payload : List UInt8) {header udp : List UInt8}
    (hpkt : mdnsPacket ourIp partnerIp payload = header ++ udp) {i : ℕ} (hi : i < header.length) :
    (mdnsPacket ourIp partnerIp payload).getD i 0 = header.getD i 0 := by
  rw [hpkt, List.getD_eq_getElem?_getD, List.getElem?_append_left hi, List.getD_eq_getElem?_getD]

/-- **The port is read back, and the payload**, behind the padding of the tunnel. -/
theorem udpPayloadToPort_mdnsPacket (ourIp partnerIp : Ip) {payload : List UInt8}
    (hshort : 28 + payload.length < 65536) :
    State.udpPayloadToPort (Wg.pad16 (mdnsPacket ourIp partnerIp payload)) fwdPort =
      some payload := by
  obtain ⟨header, udp, hheader, hudp, hpkt, hversion, hproto, htotal, -, hport, hpayload⟩ :=
    mdnsPacket_header ourIp partnerIp payload
  have hlength : (mdnsPacket ourIp partnerIp payload).length = 28 + payload.length := by
    rw [hpkt, List.length_append, hheader, hudp]
    omega
  have hget : ∀ i < 20, (mdnsPacket ourIp partnerIp payload).getD i 0 = header.getD i 0 :=
    fun i hi => getD_mdnsPacket ourIp partnerIp payload hpkt (hheader.symm ▸ hi)
  have htotal' : u16At (mdnsPacket ourIp partnerIp payload) 2 = 28 + payload.length := by
    rw [u16At, hget 2 (by decide), hget 3 (by decide)]
    exact htotal hshort
  have hle := Wg.length_le_pad16 (mdnsPacket ourIp partnerIp payload)
  have hfour : Icmp.version (mdnsPacket ourIp partnerIp payload) = 4 := by
    rw [Icmp.version, hget 0 (by decide), hversion]
    rfl
  have hudpPart : (mdnsPacket ourIp partnerIp payload).drop 20 = udp := by
    rw [hpkt, ← hheader, List.drop_left]
  unfold State.udpPayloadToPort
  rw [Wg.version_pad16, Wg.getD_pad16, Wg.getD_pad16, Wg.u16At_pad16, hget 9 (by decide), hproto,
    hget 0 (by decide), hversion, htotal']
  dsimp only
  rw [if_neg (by rw [hfour]; simp; omega),
    show (0x45 : UInt8).toNat % 16 * 4 = 20 from rfl, if_neg (by omega),
    Wg.take_pad16 hlength.ge, List.take_of_length_le hlength.le, hudpPart, hport, if_neg (by simp),
    hpayload]

/-- The filter looks at the address of the sender. -/
theorem srcAllowed_mdnsPacket (allowed : Option (List NetMap.Cidr)) (ourIp partnerIp : Ip)
    (payload : List UInt8)
    (hallowed : ∀ cidrs, allowed = some cidrs → cidrMatch cidrs (u32At ourIp.bytes 0) = true) :
    srcAllowed allowed (Wg.pad16 (mdnsPacket ourIp partnerIp payload)) = true := by
  obtain ⟨header, udp, hheader, -, hpkt, -, -, -, hsrc, -, -⟩ :=
    mdnsPacket_header ourIp partnerIp payload
  have hget : ∀ i < 20, (Wg.pad16 (mdnsPacket ourIp partnerIp payload)).getD i 0 =
      header.getD i 0 := by
    intro i hi
    rw [Wg.getD_pad16, getD_mdnsPacket ourIp partnerIp payload hpkt (hheader.symm ▸ hi)]
  cases allowed with
  | none => rfl
  | some cidrs =>
    rw [srcAllowed]
    split_ifs
    · rfl
    · have hword : u32At (Wg.pad16 (mdnsPacket ourIp partnerIp payload)) 12 = u32At header 12 := by
        unfold u32At
        simp only [u16At, hget 12 (by decide), hget 13 (by decide), hget 14 (by decide),
          hget 15 (by decide)]
      rw [hword, hsrc]
      exact hallowed cidrs rfl

/-! ## The way from one data plane to the other -/

/-- What a tunnel is known by to its ends. -/
def TunnelEntry.ends (e : TunnelEntry) : Bytes 32 × Bytes 32 × UInt32 × Bytes 32 :=
  (e.tun.sendKey, e.tun.recvKey, e.tun.theirIndex, e.peerNode)

/-- The packet of a `send`. -/
def Effect.datagram : Effect → Option (List UInt8)
  | .send pkt _ => some pkt
  | _ => none

/-- The payload for the reflector. -/
def Effect.forReflector : Effect → Option (List UInt8)
  | .reinject payload => some payload
  | _ => none

/-! ### Tunnels that last -/

namespace State

/-- The tunnels still have their ends. -/
structure Lasts (s s' : State) : Prop where
  reinject : s'.mdnsReinject = s.mdnsReinject
  partner : s'.mdnsPartner = s.mdnsPartner
  tunnelTo : ∀ node, (s'.tunnelTo node).map (fun e => (e.1, e.2.ends)) =
    (s.tunnelTo node).map fun e => (e.1, e.2.ends)
  lookup : ∀ i, (s'.tunnels.lookup i).map TunnelEntry.ends =
    (s.tunnels.lookup i).map TunnelEntry.ends

/-- A tunnel lasts while nothing happens. -/
theorem Lasts.refl (s : State) : Lasts s s := ⟨rfl, rfl, fun _ => rfl, fun _ => rfl⟩

/-- And from step to step. -/
theorem Lasts.trans {s t u : State} (h : Lasts s t) (h' : Lasts t u) : Lasts s u :=
  ⟨h'.reinject.trans h.reinject, h'.partner.trans h.partner,
    fun node => (h'.tunnelTo node).trans (h.tunnelTo node),
    fun i => (h'.lookup i).trans (h.lookup i)⟩

/-- The first tunnel to a node, after a change of one tunnel. -/
theorem tunnelTo_modify (s : State) (i : UInt32) {f : TunnelEntry → TunnelEntry}
    (hf : ∀ e, (f e).peerNode = e.peerNode) (node : Bytes 32) :
    ({ s with tunnels := s.tunnels.modify i f } : State).tunnelTo node =
      (s.tunnelTo node).map fun e => (e.1, if e.1 = i then f e.2 else e.2) := by
  have hentries : (s.tunnels.modify i f).entries = s.tunnels.entries.map fun e =>
      ⟨e.1, if e.1 = i then f e.2 else e.2⟩ :=
    congrFun List.filterMap_eq_map s.tunnels.entries
  have hnode : ((fun e : Σ _ : UInt32, TunnelEntry => decide (e.2.peerNode = node)) ∘
      fun e : Σ _ : UInt32, TunnelEntry => ⟨e.1, if e.1 = i then f e.2 else e.2⟩) =
      fun e => decide (e.2.peerNode = node) := by
    funext e
    show decide ((if e.1 = i then f e.2 else e.2).peerNode = node) = _
    split_ifs
    · rw [hf e.2]
    · rfl
  unfold tunnelTo
  dsimp only
  rw [hentries, List.find?_map, hnode, Option.map_map, Option.map_map]
  rfl

/-- A tunnel whose ends stay lasts, whatever else becomes of it. -/
theorem lasts_modify (s : State) (i : UInt32) {f : TunnelEntry → TunnelEntry}
    (hf : ∀ e, (f e).ends = e.ends) : Lasts s { s with tunnels := s.tunnels.modify i f } := by
  have hpeer (e : TunnelEntry) : (f e).peerNode = e.peerNode := congrArg (fun p => p.2.2.2) (hf e)
  refine ⟨rfl, rfl, fun node => ?_, fun j => ?_⟩
  · rw [s.tunnelTo_modify i hpeer, Option.map_map]
    congr 1
    funext e
    show (e.1, (if e.1 = i then f e.2 else e.2).ends) = (e.1, e.2.ends)
    split_ifs
    · rw [hf]
    · rfl
  · show ((s.tunnels.modify i f).lookup j).map TunnelEntry.ends = _
    by_cases hj : j = i
    · rw [hj, Table.lookup_modify_self, Option.map_map]
      congr 1
      funext e
      exact hf e
    · rw [Table.lookup_modify_ne hj]

end State

/-- The way of forwarded payloads from one data plane to another: the tunnel between them,
by the key and the index of its far end, and the addresses in it. -/
structure Way where
  key : Bytes 32
  index : UInt32
  ourIp : Ip
  partnerIp : Ip

/-! ### The two ways -/

namespace Way

variable (w : Way)

/-! ### What a way needs -/

/-- No packet on the way is taken for STUN or stopped by the filter. -/
structure Clear (id : Identity) : Prop where
  stun : Tcp.u32At (Wg.leU32 w.index) 0 ≠ Stun.magicCookie
  allowed : ∀ cidrs, id.allowedSrcs = some cidrs → cidrMatch cidrs (u32At w.ourIp.bytes 0) = true

/-- The near end is in the data plane `s`. -/
def From (s : State) : Prop :=
  ∃ i e, s.tunnelTo s.mdnsPartner = some (i, e) ∧ e.tun.sendKey = w.key ∧
    e.tun.theirIndex = w.index

/-- The far end is in the data plane `s`. -/
def To (s : State) : Prop :=
  s.mdnsReinject = true ∧ ∃ e, s.tunnels.lookup w.index = some e ∧ e.tun.recvKey = w.key ∧
    e.peerNode = s.mdnsPartner

/-- A datagram with a payload. -/
def Sealed (cr : Crypto) (pkt payload : List UInt8) : Prop :=
  ∃ t : Wg.Tunnel, t.sendKey = w.key ∧ t.theirIndex = w.index ∧
    pkt = (t.encrypt cr (mdnsPacket w.ourIp w.partnerIp payload)).2

variable {w}

/-- The near end stays in a data plane whose tunnels last. -/
theorem From.lasts {s s' : State} (h : w.From s) (hs : s.Lasts s') : w.From s' := by
  obtain ⟨i, e, he, hkey, hindex⟩ := h
  have hends := hs.tunnelTo s.mdnsPartner
  rw [he] at hends
  obtain ⟨⟨i', e'⟩, he', heq⟩ := Option.map_eq_some_iff.mp hends
  refine ⟨i', e', by rw [hs.partner, he'], ?_, ?_⟩
  · exact (congrArg (fun p => p.2.1) heq).trans hkey
  · exact (congrArg (fun p => p.2.2.2.1) heq).trans hindex

/-- So does the far end. -/
theorem To.lasts {s s' : State} (h : w.To s) (hs : s.Lasts s') : w.To s' := by
  obtain ⟨hreinject, e, he, hkey, hpeer⟩ := h
  have hends := hs.lookup w.index
  rw [he] at hends
  obtain ⟨e', he', heq⟩ := Option.map_eq_some_iff.mp hends
  refine ⟨hs.reinject.trans hreinject, e', he', ?_, ?_⟩
  · exact (congrArg (fun p => p.2.1) heq).trans hkey
  · rw [hs.partner]
    exact (congrArg (fun p => p.2.2.2) heq).trans hpeer

end Way

namespace State

/-- The tunnel to a node is in the table, at its index. -/
theorem lookup_of_tunnelTo {s : State} {node : Bytes 32} {i : UInt32} {e : TunnelEntry}
    (h : s.tunnelTo node = some (i, e)) : s.tunnels.lookup i = some e := by
  obtain ⟨entry, hfind, heq⟩ := Option.map_eq_some_iff.mp h
  obtain ⟨rfl, rfl⟩ := Prod.mk.inj heq
  exact Table.mem_entries.mp (List.mem_of_find?_eq_some hfind)

/-- Sending through a tunnel counts up in it; its ends stay. -/
theorem lasts_sendAll (cr : Crypto) (s : State) (idx : UInt32) (inner : List UInt8)
    (addr : SocketAddr) : s.Lasts (s.sendAll cr idx [inner] addr).1 := by
  unfold sendAll
  cases s.tunnels.lookup idx with
  | none => exact .refl s
  | some e => exact s.lasts_modify idx fun _ => rfl

/-- So forwarding any number of payloads keeps the tunnels. -/
theorem lasts_mdnsDrain (b : Build) (ourIp partnerIp : Ip) (payloads : List (List UInt8)) :
    ∀ s : State, s.Lasts (s.mdnsDrain b ourIp partnerIp payloads).1 := by
  induction payloads with
  | nil => exact fun s => .refl s
  | cons payload rest ih =>
    intro s
    rw [mdnsDrain]
    cases s.tunnelTo s.mdnsPartner with
    | none => exact ih s
    | some e => exact (s.lasts_sendAll b.cr e.1 _ e.2.addr).trans (ih _)

/-- **The near end of a way**: one datagram for each payload. -/
theorem sealed_mdnsDrain (b : Build) {w : Way} (payloads : List (List UInt8)) :
    ∀ {s : State}, w.From s → List.Forall₂ (w.Sealed b.cr)
      ((s.mdnsDrain b w.ourIp w.partnerIp payloads).2.filterMap Effect.datagram) payloads := by
  induction payloads with
  | nil => exact fun _ => .nil
  | cons payload rest ih =>
    intro s hs
    obtain ⟨i, e, he, hkey, hindex⟩ := hs
    have hsent : s.sendAll b.cr i [mdnsPacket w.ourIp w.partnerIp payload] e.addr =
        ({ s with tunnels := s.tunnels.modify i fun e =>
            (e.sendAll b.cr [mdnsPacket w.ourIp w.partnerIp payload] e.addr).1 },
          [.send (e.tun.encrypt b.cr (mdnsPacket w.ourIp w.partnerIp payload)).2 e.addr]) := by
      rw [sendAll, lookup_of_tunnelTo he]
      rfl
    have hrest : w.From (s.sendAll b.cr i [mdnsPacket w.ourIp w.partnerIp payload] e.addr).1 :=
      Way.From.lasts ⟨i, e, he, hkey, hindex⟩ (s.lasts_sendAll b.cr i _ e.addr)
    rw [mdnsDrain, he]
    dsimp only
    rw [List.filterMap_append]
    have hout : (s.sendAll b.cr i [mdnsPacket w.ourIp w.partnerIp payload] e.addr).2.filterMap
        Effect.datagram = [(e.tun.encrypt b.cr (mdnsPacket w.ourIp w.partnerIp payload)).2] := by
      rw [hsent]
      rfl
    rw [show Outbound.udpDatagram w.ourIp w.partnerIp fwdPort fwdPort payload =
      mdnsPacket w.ourIp w.partnerIp payload from rfl, hout]
    exact .cons ⟨e.tun, hkey, hindex, rfl⟩ (ih hrest)

/-- **The far end of a way**: the payload goes to the reflector, whoever sent the datagram,
and whenever. -/
theorem handlePacket_sealed {b : Build} {id : Identity} {w : Way} (hopen : b.cr.Opens)
    (hmdns : b.features.mdnsForward = true) (hbridge : b.features.lwipBridge = false)
    (hclear : w.Clear id) {s : State} (hs : w.To s) {pkt payload : List UInt8}
    (hsealed : w.Sealed b.cr pkt payload) (hshort : payload.length ≤ 1500)
    (targets : List Target) (tick : UInt32) (src : SocketAddr) (d : Draw) :
    s.Lasts (s.handlePacket b id targets tick pkt src d).1 ∧
      (s.handlePacket b id targets tick pkt src d).2 = [.reinject payload] := by
  obtain ⟨hreinject, e, he, hkey, hpeer⟩ := hs
  obtain ⟨t, htkey, htindex, rfl⟩ := hsealed
  have hne : Wg.pad16 (mdnsPacket w.ourIp w.partnerIp payload) ≠ [] := by
    obtain ⟨header, udp, hheader, -, hpkt, -⟩ := mdnsPacket_header w.ourIp w.partnerIp payload
    have hle := Wg.length_le_pad16 (mdnsPacket w.ourIp w.partnerIp payload)
    rw [hpkt, List.length_append] at hle
    refine List.ne_nil_of_length_pos ?_
    rw [hpkt]
    omega
  obtain ⟨s', hs'⟩ : ∃ s', s' = { s with
      tunnels := s.tunnels.modify w.index fun e => { e with addr := src } } := ⟨_, rfl⟩
  have hlookup : (s'.tunnels.lookup w.index).map TunnelEntry.peerNode = some s'.mdnsPartner := by
    rw [hs', Table.lookup_modify_self, he]
    exact congrArg some hpeer
  have hin : s'.mdnsIn b w.index (Wg.pad16 (mdnsPacket w.ourIp w.partnerIp payload)) =
      some [.reinject payload] := by
    have hreinject' : s'.mdnsReinject = true := by rw [hs', hreinject]
    rw [mdnsIn, if_pos ⟨hmdns, hlookup⟩, udpPayloadToPort_mdnsPacket _ _ (by omega),
      hreinject', Option.map_some, if_pos rfl]
  rw [handlePacket_encrypt id hopen he (htkey.trans hkey.symm) htindex hclear.stun, handleDecrypted,
    he]
  dsimp only
  rw [if_neg hne, srcAllowed_mdnsPacket _ _ _ _ hclear.allowed, Bool.not_true,
    if_neg Bool.false_ne_true, ← hs', dispatch, hbridge, if_neg Bool.false_ne_true, hin]
  refine ⟨?_, rfl⟩
  rw [hs']
  exact s.lasts_modify w.index fun _ => rfl

end State

end DataPlane

namespace Mdns

open DataPlane Runs

/-! ## The reflector -/

def dedupMax : ℕ := 64

/-- The length of the buffer of `run`; the rest of a datagram is dropped. -/
def bufLen : ℕ := 1500

/-- `hash`: FNV-1a. -/
def hash (data : List UInt8) : UInt64 :=
  data.foldl (fun h b => (h ^^^ b.toUInt64) * 0x100000001b3) 0xcbf29ce484222325

/-- `remember`. -/
def remember (seen : List UInt64) (h : UInt64) : List UInt64 :=
  (if dedupMax ≤ seen.length then seen.tail else seen) ++ [h]

/-- What was done with a payload: it was multicast, or captured and forwarded. -/
inductive Entry where
  | injected (payload : List UInt8)
  | captured (payload : List UInt8)

def Entry.payload : Entry → List UInt8
  | .injected payload => payload
  | .captured payload => payload

def Entry.injected? : Entry → Option (List UInt8)
  | .injected payload => some payload
  | .captured _ => none

def Entry.captured? : Entry → Option (List UInt8)
  | .injected _ => none
  | .captured payload => some payload

/-- The device on one network: the reflector, its channels to the data plane and from it, and
the data plane.  `log` is what the reflector has done, from the start. -/
structure Station where
  lanIp : Ip
  /-- The reflector waits for a datagram; else it multicasts what the partner sent. -/
  listening : Bool
  seen : List UInt64
  fwd : List (List UInt8)
  reinject : List (List UInt8)
  plane : State
  log : List Entry

namespace Station

/-- A datagram that the reflector hears. -/
def capture (s : Station) (data : List UInt8) (src : Ip) : Station :=
  let pkt := data.take bufLen
  if src = s.lanIp then s
  else if hash pkt ∈ s.seen then s
  else
    { s with
      seen := remember s.seen (hash pkt)
      fwd := s.fwd ++ [pkt]
      log := s.log ++ [.captured pkt] }

/-- The loop of `run`, a payload or a datagram at a time; nothing is heard when the socket
times out. -/
def turn (s : Station) (heard : Option (List UInt8 × Ip)) : Station :=
  if s.listening then
    let s := { s with listening := false }
    heard.elim s fun h => s.capture h.1 h.2
  else
    match s.reinject with
    | [] => { s with listening := true }
    | payload :: rest =>
      { s with
        seen := remember s.seen (hash payload)
        reinject := rest
        log := s.log ++ [.injected payload] }

def injected (s : Station) : List (List UInt8) := s.log.filterMap Entry.injected?

def captured (s : Station) : List (List UInt8) := s.log.filterMap Entry.captured?

/-- What a turn of the loop can do. -/
inductive Turned (s : Station) (heard : Option (List UInt8 × Ip)) : Station → Prop
  | idle (listening : Bool) : Turned s heard { s with listening }
  | injected {payload : List UInt8} {rest : List (List UInt8)} (hreinject : s.reinject = payload :: rest) :
    Turned s heard
      { s with
        seen := remember s.seen (hash payload)
        reinject := rest
        log := s.log ++ [.injected payload] }
  | captured {data : List UInt8} {src : Ip} (hheard : heard = some (data, src))
      (hsrc : src ≠ s.lanIp) (hseen : hash (data.take bufLen) ∉ s.seen) :
    Turned s heard
      { s with
        listening := false
        seen := remember s.seen (hash (data.take bufLen))
        fwd := s.fwd ++ [data.take bufLen]
        log := s.log ++ [.captured (data.take bufLen)] }

/-- **What a turn of the reflector can be**: it captures a payload or drops it, injects one, or
has nothing to do. -/
theorem turned (s : Station) (heard : Option (List UInt8 × Ip)) : Turned s heard (s.turn heard) := by
  unfold turn
  split
  · cases heard with
    | none => exact .idle false
    | some h =>
      obtain ⟨data, src⟩ := h
      show Turned s _ (capture _ data src)
      unfold capture
      dsimp only
      split_ifs with hsrc hseen
      · exact .idle false
      · exact .idle false
      · exact .captured rfl hsrc hseen
  · split
    · exact .idle true
    · next hreinject => exact .injected hreinject

/-- No turn changes the address of the station. -/
theorem Turned.ip {s s' : Station} {heard : Option (List UInt8 × Ip)} (h : s.Turned heard s') :
    s'.lanIp = s.lanIp := by
  cases h with
  | idle => rfl
  | injected => rfl
  | captured => rfl

/-! ### What is seen -/

/-- The reflector remembers the hashes of its last payloads, and forwards nothing that it
remembers. -/
structure Window (s : Station) : Prop where
  seen : Recent.Keeps dedupMax (fun _ => False) (s.log.map fun e => hash e.payload) s.seen
  len : s.seen.length ≤ dedupMax
  fresh : ∀ pre payload post, s.log = pre ++ .captured payload :: post →
    hash payload ∉ (pre.map fun e => hash e.payload).rtake dedupMax

/-- The window is the end of all that was remembered. -/
theorem remember_eq {seen : List UInt64} (hlen : seen.length ≤ dedupMax) (h : UInt64) :
    remember seen h = (seen ++ [h]).rtake dedupMax :=
  Recent.room_append_eq (by decide) hlen h

/-- A payload is remembered. -/
theorem Window.remembers {s : Station} (h : s.Window) (e : Entry)
    (hfresh : ∀ payload, e = .captured payload → hash payload ∉ s.seen) {s' : Station}
    (hseen : s'.seen = remember s.seen (hash e.payload)) (hlog : s'.log = s.log ++ [e]) :
    s'.Window := by
  rw [remember_eq h.len] at hseen
  refine ⟨?_, ?_, fun pre payload post heq => ?_⟩
  · rw [hseen, hlog, List.map_append]
    exact (h.seen.push _).rtake
  · rw [hseen]
    exact Recent.length_rtake_le _ _
  · rw [hlog] at heq
    rcases List.eq_nil_or_concat' post with rfl | ⟨post', last, rfl⟩
    · obtain ⟨rfl, hlast⟩ := List.append_inj' heq rfl
      rw [← h.seen.eq_rtake h.len]
      exact hfresh payload (List.singleton_inj.mp hlast)
    · rw [← List.cons_append, ← List.append_assoc] at heq
      exact h.fresh pre payload post' (List.append_inj' heq rfl).1

/-- **A turn keeps the window**: its hashes are those of the last payloads, and what was captured
was not among them then. -/
theorem Window.turned {s s' : Station} (h : s.Window) {heard : Option (List UInt8 × Ip)}
    (hturn : s.Turned heard s') : s'.Window := by
  cases hturn with
  | idle => exact ⟨h.seen, h.len, h.fresh⟩
  | injected => exact h.remembers (.injected _) (fun _ heq => by cases heq) rfl rfl
  | captured _ _ hseen =>
    refine h.remembers (.captured _) (fun payload heq => ?_) rfl rfl
    cases heq
    exact hseen

end Station

/-! ## The two stations -/

inductive Lan where
  | near
  | far
  deriving DecidableEq

def Lan.other : Lan → Lan
  | .near => .far
  | .far => .near

/-- There are two networks only. -/
@[simp] theorem Lan.other_other (x : Lan) : x.other.other = x := by
  cases x <;> rfl

/-- A network is not its own partner. -/
theorem Lan.other_ne (x : Lan) : x.other ≠ x := by
  cases x <;> decide

/-- Every network is this one or the other. -/
theorem Lan.eq_or (x y : Lan) : y = x ∨ y = x.other := by
  cases x <;> cases y <;> decide

/-- The datagrams that a station has sent: those on the way, those that were lost, and those
that came and will come again. -/
structure Net where
  air : List (List UInt8)
  lost : List (List UInt8)
  repeated : List (List UInt8)

structure Bridge where
  station : Lan → Station
  net : Lan → Net

/-- What the stations are built with, and the ways between their data planes. -/
structure Setup where
  b : Build
  id : Lan → Identity
  targets : Lan → List Target
  way : Lan → Way

inductive Event where
  /-- The reflector of a station takes a turn. -/
  | turn (x : Lan) (heard : Option (List UInt8 × Ip))
  /-- The data plane forwards what was captured. -/
  | drain (x : Lan)
  /-- A datagram of station `x` comes to its partner, for the last time or not. -/
  | arrive (x : Lan) (i : ℕ) (again : Bool) (tick : UInt32) (src : SocketAddr) (d : Draw)
  | lose (x : Lan) (i : ℕ)

namespace Station

/-- `mdns_drain` in the data plane. -/
def drain (s : Station) (b : Build) (w : Way) : Station × List (List UInt8) :=
  let (plane, out) := s.plane.mdnsDrain b w.ourIp w.partnerIp s.fwd
  ({ s with plane, fwd := [] }, out.filterMap Effect.datagram)

/-- `handle_packet` in the data plane. -/
def receive (s : Station) (b : Build) (id : Identity) (targets : List Target) (tick : UInt32)
    (pkt : List UInt8) (src : SocketAddr) (d : Draw) : Station :=
  let (plane, out) := s.plane.handlePacket b id targets tick pkt src d
  { s with plane, reinject := s.reinject ++ out.filterMap Effect.forReflector }

end Station

namespace Net

/-- Datagram `i` on the way arrives. -/
def arrive (n : Net) (i : ℕ) (again : Bool) (pkt : List UInt8) : Net :=
  if again then { n with repeated := n.repeated ++ [pkt] } else { n with air := n.air.eraseIdx i }

def lose (n : Net) (i : ℕ) (pkt : List UInt8) : Net :=
  { n with air := n.air.eraseIdx i, lost := n.lost ++ [pkt] }

end Net

namespace Bridge

def start (lanIp : Lan → Ip) (plane : Lan → State) : Bridge :=
  ⟨fun x => ⟨lanIp x, false, [], [], [], plane x, []⟩, fun _ => ⟨[], [], []⟩⟩

def step (s : Setup) (y : Bridge) : Event → Option Bridge
  | .turn x heard =>
    some { y with station := Function.update y.station x ((y.station x).turn heard) }
  | .drain x =>
    let (station, pkts) := (y.station x).drain s.b (s.way x)
    some
      { station := Function.update y.station x station
        net := Function.update y.net x { y.net x with air := (y.net x).air ++ pkts } }
  | .arrive x i again tick src d =>
    (y.net x).air[i]?.map fun pkt =>
      { station := Function.update y.station x.other
          ((y.station x.other).receive s.b (s.id x.other) (s.targets x.other) tick pkt src d)
        net := Function.update y.net x ((y.net x).arrive i again pkt) }
  | .lose x i =>
    (y.net x).air[i]?.map fun pkt =>
      { y with net := Function.update y.net x ((y.net x).lose i pkt) }

end Bridge

/-! ## What becomes of a payload -/

/-- The payloads that station `a` has captured and those that were repeated are, in some order,
those that its partner `z` has multicast, those on their way, and those that were lost. -/
def Conserved (cr : Crypto) (w : Way) (a : Station) (n : Net) (z : Station) : Prop :=
  ∃ flight lost repeated : List (List UInt8),
    List.Forall₂ (w.Sealed cr) n.air flight ∧ List.Forall₂ (w.Sealed cr) n.lost lost ∧
      List.Forall₂ (w.Sealed cr) n.repeated repeated ∧ repeated ⊆ a.captured ∧
      (z.injected ++ z.reinject ++ flight ++ lost ++ a.fwd).Perm (a.captured ++ repeated)

/-- The way from station `a` to its partner `z`. -/
structure Flow (cr : Crypto) (w : Way) (heard : List UInt8 → Prop) (a : Station) (n : Net)
    (z : Station) : Prop where
  near : w.From a.plane
  far : w.To z.plane
  heard : ∀ payload ∈ a.captured, heard payload
  conserved : Conserved cr w a n z

/-- A payload is taken out of the flight. -/
theorem exists_payload {R : List UInt8 → List UInt8 → Prop} {air flight : List (List UInt8)}
    (h : List.Forall₂ R air flight) {i : ℕ} {pkt : List UInt8} (hi : air[i]? = some pkt) :
    ∃ payload rest, R pkt payload ∧ List.Forall₂ R (air.eraseIdx i) rest ∧
      flight.Perm (payload :: rest) := by
  obtain ⟨hlt, rfl⟩ := List.getElem?_eq_some_iff.mp hi
  obtain ⟨flight', hR, hperm⟩ := List.perm_comp_forall₂ (List.getElem_cons_eraseIdx_perm hlt) h
  cases hR with
  | cons hhead hrest => exact ⟨_, _, hhead, hrest, hperm.symm⟩

namespace Flow

variable {cr : Crypto} {w : Way} {heard : List UInt8 → Prop} {a z : Station} {n : Net}

/-- A flow depends on the near station by its tunnel, its log and what it forwards. -/
theorem congr_near (h : Flow cr w heard a n z) {a' : Station} (hplane : a.plane.Lasts a'.plane)
    (hlog : a'.log = a.log) (hfwd : a'.fwd = a.fwd) : Flow cr w heard a' n z := by
  have hcaptured : a'.captured = a.captured := by rw [Station.captured, hlog, Station.captured]
  refine ⟨h.near.lasts hplane, h.far, ?_, ?_⟩
  · rw [hcaptured]
    exact h.heard
  · rw [Conserved, hcaptured, hfwd]
    exact h.conserved

/-- And on the far one by its tunnel, its log and what it is to multicast. -/
theorem congr_far (h : Flow cr w heard a n z) {z' : Station} (hplane : z.plane.Lasts z'.plane)
    (hlog : z'.log = z.log) (hreinject : z'.reinject = z.reinject) : Flow cr w heard a n z' := by
  have hinjected : z'.injected = z.injected := by rw [Station.injected, hlog, Station.injected]
  refine ⟨h.near, h.far.lasts hplane, h.heard, ?_⟩
  rw [Conserved, hinjected, hreinject]
  exact h.conserved

/-! ### Turns of a station -/

/-- A turn of the reflector that captures. -/
theorem turned_near (h : Flow cr w heard a n z) {event : Option (List UInt8 × Ip)} {a' : Station}
    (hturn : a.Turned event a')
    (hheard : ∀ data src, event = some (data, src) → src ≠ a.lanIp → heard (data.take bufLen)) :
    Flow cr w heard a' n z := by
  cases hturn with
  | idle => exact h.congr_near (.refl _) rfl rfl
  | @injected payload rest _ =>
    have hcaptured : (a.log ++ [Entry.injected payload]).filterMap Entry.captured? = a.captured := by
      rw [List.filterMap_append]
      exact List.append_nil _
    refine ⟨h.near, h.far, ?_, ?_⟩
    · rw [Station.captured, hcaptured]
      exact h.heard
    · rw [Conserved, Station.captured, hcaptured]
      exact h.conserved
  | @captured data src hevent hsrc _ =>
    have hcaptured : (a.log ++ [Entry.captured (data.take bufLen)]).filterMap Entry.captured? =
        a.captured ++ [data.take bufLen] := by
      rw [List.filterMap_append]
      rfl
    refine ⟨h.near, h.far, ?_, ?_⟩
    · rw [Station.captured, hcaptured]
      intro payload hpayload
      rcases List.mem_append.mp hpayload with hold | hnew
      · exact h.heard payload hold
      · rw [List.mem_singleton.mp hnew]
        exact hheard data src hevent hsrc
    · obtain ⟨flight, lost, repeated, hflight, hlost, hrepeated, hsub, hperm⟩ := h.conserved
      rw [Conserved, Station.captured, hcaptured]
      refine ⟨flight, lost, repeated, hflight, hlost, hrepeated,
        List.Subset.trans hsub (List.subset_append_left _ _), List.perm_iff_count.mpr fun p => ?_⟩
      have hcount := hperm.count_eq p
      simp only [List.count_append] at hcount ⊢
      omega

/-- A turn of the reflector that multicasts. -/
theorem turned_far (h : Flow cr w heard a n z) {event : Option (List UInt8 × Ip)} {z' : Station}
    (hturn : z.Turned event z') : Flow cr w heard a n z' := by
  cases hturn with
  | idle => exact h.congr_far (.refl _) rfl rfl
  | @injected payload rest hreinject =>
    have hinjected : (z.log ++ [Entry.injected payload]).filterMap Entry.injected? =
        z.injected ++ [payload] := by
      rw [List.filterMap_append]
      rfl
    obtain ⟨flight, lost, repeated, hflight, hlost, hrepeated, hsub, hperm⟩ := h.conserved
    refine ⟨h.near, h.far, h.heard, flight, lost, repeated, hflight, hlost, hrepeated, hsub, ?_⟩
    rw [Station.injected, hinjected]
    rw [hreinject] at hperm
    simpa only [List.append_assoc, List.singleton_append] using hperm
  | @captured data src _ _ _ =>
    have hinjected : (z.log ++ [Entry.captured (data.take bufLen)]).filterMap Entry.injected? =
        z.injected := by
      rw [List.filterMap_append]
      exact List.append_nil _
    refine ⟨h.near, h.far, h.heard, ?_⟩
    rw [Conserved, Station.injected, hinjected]
    exact h.conserved

/-! ### The air -/

/-- **Forwarding** moves the captured payloads from the queue into the air, each sealed in a
datagram. -/
theorem drain (h : Flow cr w heard a n z) {b : Build} (hcr : b.cr = cr) :
    Flow cr w heard (a.drain b w).1 { n with air := n.air ++ (a.drain b w).2 } z := by
  subst hcr
  obtain ⟨flight, lost, repeated, hflight, hlost, hrepeated, hsub, hperm⟩ := h.conserved
  have hsealed := State.sealed_mdnsDrain b a.fwd h.near
  refine ⟨h.near.lasts (State.lasts_mdnsDrain b _ _ a.fwd a.plane), h.far, h.heard,
    flight ++ a.fwd, lost, repeated, List.rel_append hflight hsealed, hlost, hrepeated, hsub,
    List.perm_iff_count.mpr fun p => ?_⟩
  have hcount := hperm.count_eq p
  have hfwd : (a.drain b w).1.fwd = [] := rfl
  have hcaptured : (a.drain b w).1.captured = a.captured := rfl
  rw [hfwd, hcaptured]
  simp only [List.count_append, List.count_nil] at hcount ⊢
  omega

/-- What is on its way was captured. -/
theorem mem_captured {captured repeated sent : List (List UInt8)} {payload : List UInt8}
    (hsub : repeated ⊆ captured) (hperm : sent.Perm (captured ++ repeated))
    (hmem : payload ∈ sent) : payload ∈ captured := by
  rcases List.mem_append.mp (hperm.mem_iff.mp hmem) with h | h
  · exact h
  · exact hsub h

/-- A datagram arrives. -/
theorem arrive (h : Flow cr w heard a n z) {i : ℕ} {pkt : List UInt8}
    (hi : n.air[i]? = some pkt) : ∃ payload, w.Sealed cr pkt payload ∧ heard payload ∧
      ∀ (again : Bool) {z' : Station}, z.plane.Lasts z'.plane → z'.log = z.log →
        z'.reinject = z.reinject ++ [payload] → Flow cr w heard a (n.arrive i again pkt) z' := by
  obtain ⟨flight, lost, repeated, hflight, hlost, hrepeated, hsub, hperm⟩ := h.conserved
  obtain ⟨payload, rest, hsealed, hrest, hmoved⟩ := exists_payload hflight hi
  have hcaptured : payload ∈ a.captured := by
    refine mem_captured hsub hperm ?_
    have hin : payload ∈ flight := hmoved.mem_iff.mpr List.mem_cons_self
    simp only [List.mem_append, hin, true_or, or_true]
  refine ⟨payload, hsealed, h.heard payload hcaptured, fun again z' hplane hlog hreinject => ?_⟩
  refine ⟨h.near, h.far.lasts hplane, h.heard, ?_⟩
  have hinjected : z'.injected = z.injected := by rw [Station.injected, hlog, Station.injected]
  rw [Conserved, hinjected, hreinject]
  cases again with
  | true =>
    refine ⟨flight, lost, repeated ++ [payload], hflight, hlost,
      List.rel_append hrepeated (.cons hsealed .nil),
      List.append_subset.mpr ⟨hsub, by simpa using hcaptured⟩,
      List.perm_iff_count.mpr fun p => ?_⟩
    have hcount := hperm.count_eq p
    simp only [List.count_append] at hcount ⊢
    omega
  | false =>
    refine ⟨rest, lost, repeated, hrest, hlost, hrepeated, hsub,
      List.perm_iff_count.mpr fun p => ?_⟩
    have hcount := hperm.count_eq p
    have hout := hmoved.count_eq p
    rw [← List.singleton_append] at hout
    simp only [List.count_append] at hcount hout ⊢
    omega

/-- A datagram that is lost moves from the air to the lost ones. -/
theorem lose (h : Flow cr w heard a n z) {i : ℕ} {pkt : List UInt8}
    (hi : n.air[i]? = some pkt) : Flow cr w heard a (n.lose i pkt) z := by
  obtain ⟨flight, lost, repeated, hflight, hlost, hrepeated, hsub, hperm⟩ := h.conserved
  obtain ⟨payload, rest, hsealed, hrest, hmoved⟩ := exists_payload hflight hi
  refine ⟨h.near, h.far, h.heard, rest, lost ++ [payload], repeated, hrest,
    List.rel_append hlost (.cons hsealed .nil), hrepeated, hsub,
    List.perm_iff_count.mpr fun p => ?_⟩
  have hcount := hperm.count_eq p
  have hout := hmoved.count_eq p
  rw [← List.singleton_append] at hout
  simp only [List.count_append] at hcount hout ⊢
  omega

end Flow

/-! ## Runs -/

/-- A host on the network of station `x`, other than the station, has sent the payload. -/
def Heard (lanIp : Lan → Ip) (es : List Event) (x : Lan) (payload : List UInt8) : Prop :=
  ∃ data src, Event.turn x (some (data, src)) ∈ es ∧ src ≠ lanIp x ∧ payload = data.take bufLen

/-- The data planes are partners: both are built with `mdns-forward` and without `lwip-bridge`,
and a tunnel stands between them each way, whose packets are not taken for STUN and pass the
filter of the far end. -/
structure Setup.Partners (s : Setup) (plane : Lan → State) : Prop where
  opens : s.b.cr.Opens
  mdns : s.b.features.mdnsForward = true
  bridge : s.b.features.lwipBridge = false
  clear : ∀ x, (s.way x).Clear (s.id x.other)
  near : ∀ x, (s.way x).From (plane x)
  far : ∀ x, (s.way x).To (plane x.other)

namespace Bridge

/-! ### The invariant of a run -/

/-- What holds at all times, for the events `es`. -/
structure Inv (s : Setup) (lanIp : Lan → Ip) (es : List Event) (y : Bridge) : Prop where
  ip : ∀ x, (y.station x).lanIp = lanIp x
  window : ∀ x, (y.station x).Window
  flow : ∀ x, Flow s.b.cr (s.way x) (Heard lanIp es x) (y.station x) (y.net x) (y.station x.other)

/-- Nothing was captured, and the tunnels stand. -/
theorem inv_start {s : Setup} {plane : Lan → State} (hs : s.Partners plane) (lanIp : Lan → Ip)
    (es : List Event) : Inv s lanIp es (start lanIp plane) where
  ip _ := rfl
  window _ := by
    refine ⟨.nil, Nat.zero_le _, fun pre payload post heq => ?_⟩
    exact absurd (congrArg List.length heq) (by simp [start])
  flow x := by
    refine ⟨hs.near x, hs.far x, fun payload hmem => ?_, [], [], [], .nil, .nil, .nil, ?_, ?_⟩
    · cases hmem
    · exact List.nil_subset _
    · exact .refl _

variable {s : Setup} {lanIp : Lan → Ip} {es : List Event} {y y' : Bridge}

/-- Of the two stations only station `x` changes. -/
theorem Inv.of_station (h : Inv s lanIp es y) (x : Lan) {station : Lan → Station}
    {net : Lan → Net} {a : Station} {n m : Net} (hself : station x = a)
    (hother : station x.other = y.station x.other) (hnet : net x = n) (hback : net x.other = m)
    (hip : a.lanIp = (y.station x).lanIp) (hwindow : a.Window)
    (hfrom : Flow s.b.cr (s.way x) (Heard lanIp es x) a n (y.station x.other))
    (hto : Flow s.b.cr (s.way x.other) (Heard lanIp es x.other) (y.station x.other) m a) :
    Inv s lanIp es ⟨station, net⟩ := by
  subst hself hnet hback
  refine ⟨fun x' => ?_, fun x' => ?_, fun x' => ?_⟩
  · rcases x.eq_or x' with rfl | rfl
    · exact hip.trans (h.ip _)
    · exact (congrArg Station.lanIp hother).trans (h.ip _)
  · rcases x.eq_or x' with rfl | rfl
    · exact hwindow
    · show (station x.other).Window
      rw [hother]
      exact h.window _
  · rcases x.eq_or x' with rfl | rfl
    · dsimp only
      rw [hother]
      exact hfrom
    · dsimp only
      rw [Lan.other_other, hother]
      exact hto

/-- The flow the other way, with the partners written as this one and the other. -/
theorem Inv.back (h : Inv s lanIp es y) (x : Lan) :
    Flow s.b.cr (s.way x.other) (Heard lanIp es x.other) (y.station x.other) (y.net x.other)
      (y.station x) := by
  have hflow := h.flow x.other
  rwa [Lan.other_other] at hflow

/-- The other station and its datagrams, after a change at `x`. -/
theorem update_other {α : Type} (f : Lan → α) (x : Lan) (v : α) :
    Function.update f x v x.other = f x.other :=
  Function.update_of_ne x.other_ne ..

/-- What is done at the other station leaves this one. -/
theorem update_of_other {α : Type} (f : Lan → α) (x : Lan) (v : α) :
    Function.update f x.other v x = f x :=
  Function.update_of_ne x.other_ne.symm ..

/-- A payload that was heard fits the buffer. -/
theorem short_of_heard {x : Lan} {payload : List UInt8} (h : Heard lanIp es x payload) :
    payload.length ≤ 1500 := by
  obtain ⟨data, src, -, -, rfl⟩ := h
  exact List.length_take_le _ _

/-- A turn of one reflector keeps the invariant: it is the near end of one flow and the far end of
the other. -/
theorem Inv.turn (h : Inv s lanIp es y) {x : Lan} {heard : Option (List UInt8 × Ip)}
    (he : Event.turn x heard ∈ es) : Inv s lanIp es
      { y with station := Function.update y.station x ((y.station x).turn heard) } := by
  have hturn := (y.station x).turned heard
  refine h.of_station x (Function.update_self ..) (update_other ..) rfl rfl hturn.ip
    ((h.window x).turned hturn) ?_ ((h.back x).turned_far hturn)
  refine (h.flow x).turned_near hturn fun data src heq hsrc => ?_
  exact ⟨data, src, heq ▸ he, h.ip x ▸ hsrc, rfl⟩

/-! ### Every step -/

/-- Forwarding at one station keeps it; the flow the other way sees a tunnel that lasts. -/
theorem Inv.drain (h : Inv s lanIp es y) (x : Lan) : Inv s lanIp es
      { station := Function.update y.station x ((y.station x).drain s.b (s.way x)).1
        net := Function.update y.net x
          { y.net x with air := (y.net x).air ++ ((y.station x).drain s.b (s.way x)).2 } } := by
  have hlasts : (y.station x).plane.Lasts ((y.station x).drain s.b (s.way x)).1.plane :=
    State.lasts_mdnsDrain ..
  have hw := h.window x
  exact h.of_station x (Function.update_self ..) (update_other ..) (Function.update_self ..)
    (update_other ..) rfl ⟨hw.seen, hw.len, hw.fresh⟩ ((h.flow x).drain rfl)
    ((h.back x).congr_far hlasts rfl rfl)

/-- A station whose data plane has received a payload. -/
theorem receive_spec {plane : Lan → State} (hs : s.Partners plane) {x : Lan}
    (hto : (s.way x).To (y.station x.other).plane) {pkt payload : List UInt8}
    (hsealed : (s.way x).Sealed s.b.cr pkt payload) (hshort : payload.length ≤ 1500)
    (tick : UInt32) (src : SocketAddr) (d : Draw) : ∃ plane',
    (y.station x.other).plane.Lasts plane' ∧
      (y.station x.other).receive s.b (s.id x.other) (s.targets x.other) tick pkt src d =
        { y.station x.other with
          plane := plane'
          reinject := (y.station x.other).reinject ++ [payload] } := by
  obtain ⟨hlasts, hout⟩ := State.handlePacket_sealed hs.opens hs.mdns hs.bridge (hs.clear x)
    hto hsealed hshort (s.targets x.other) tick src d
  refine ⟨_, hlasts, ?_⟩
  unfold Station.receive
  dsimp only
  rw [hout]
  rfl

/-- **An arrival keeps it**: the far data plane opens the datagram and hands its payload to the
reflector. -/
theorem Inv.arrive {plane : Lan → State} (hs : s.Partners plane) (h : Inv s lanIp es y) {x : Lan}
    {i : ℕ} {pkt : List UInt8} (hi : (y.net x).air[i]? = some pkt) (again : Bool) (tick : UInt32)
    (src : SocketAddr) (d : Draw) : Inv s lanIp es
      { station := Function.update y.station x.other
          ((y.station x.other).receive s.b (s.id x.other) (s.targets x.other) tick pkt src d)
        net := Function.update y.net x ((y.net x).arrive i again pkt) } := by
  obtain ⟨payload, hsealed, hheard, harrive⟩ := (h.flow x).arrive hi
  obtain ⟨plane', hlasts, hreceive⟩ := receive_spec hs (h.flow x).far hsealed
    (short_of_heard hheard) tick src d
  have hw := h.window x.other
  have hback := @harrive again { y.station x.other with
    plane := plane', reinject := (y.station x.other).reinject ++ [payload] } hlasts rfl rfl
  rw [hreceive]
  refine h.of_station x.other (m := (y.net x).arrive i again pkt) (Function.update_self ..) ?_
    (update_other ..) ?_ rfl ⟨hw.seen, hw.len, hw.fresh⟩
    ((h.flow x.other).congr_near hlasts rfl rfl) ?_
  · rw [Lan.other_other]
    exact update_of_other ..
  · rw [Lan.other_other]
    exact Function.update_self ..
  · rw [Lan.other_other]
    exact hback

/-- A loss keeps it, and no station notices. -/
theorem Inv.lose (h : Inv s lanIp es y) {x : Lan} {i : ℕ} {pkt : List UInt8}
    (hi : (y.net x).air[i]? = some pkt) : Inv s lanIp es
      { y with net := Function.update y.net x ((y.net x).lose i pkt) } := by
  exact h.of_station x rfl rfl (Function.update_self ..) (update_other ..) rfl (h.window x)
    ((h.flow x).lose hi) (h.back x)

/-- **Every event keeps the invariant** of both flows. -/
theorem Inv.step {plane : Lan → State} (hs : s.Partners plane) (h : Inv s lanIp es y) {e : Event}
    (he : e ∈ es) (hstep : y.step s e = some y') : Inv s lanIp es y' := by
  cases e with
  | turn x heard =>
    obtain rfl := Option.some_inj.mp hstep
    exact h.turn he
  | drain x =>
    obtain rfl := Option.some_inj.mp hstep
    exact h.drain x
  | arrive x i again tick src d =>
    obtain ⟨pkt, hi, rfl⟩ := Option.map_eq_some_iff.mp hstep
    exact h.arrive hs hi again tick src d
  | lose x i =>
    obtain ⟨pkt, hi, rfl⟩ := Option.map_eq_some_iff.mp hstep
    exact h.lose hi

end Bridge

/-! ### The main result -/

/-- What holds of the payloads of station `x`. -/
structure Safe (s : Setup) (lanIp : Lan → Ip) (es : List Event) (y : Bridge) (x : Lan) : Prop where
  /-- None is lost or made up but what the network between the stations loses or repeats. -/
  conserved : Conserved s.b.cr (s.way x) (y.station x) (y.net x) (y.station x.other)
  /-- What the partner multicasts comes from another host of the network of `x`. -/
  heard : ∀ payload ∈ (y.station x.other).injected, Heard lanIp es x payload
  /-- What is forwarded is not one of the last payloads that were captured or multicast. -/
  fresh : ∀ pre payload post, (y.station x).log = pre ++ .captured payload :: post →
    hash payload ∉ (pre.map fun e => hash e.payload).rtake dedupMax

/-- **The bridge between two networks**, whatever the two reflectors hear, and whatever the
network between them loses, repeats and reorders.  The two stations are partners throughout:
no event of a run takes the tunnel between them away. -/
theorem bridge_safe {s : Setup} {plane : Lan → State} (hs : s.Partners plane) {lanIp : Lan → Ip}
    {es : List Event} {y : Bridge} (hrun : run (Bridge.step s) (.start lanIp plane) es = some y)
    (x : Lan) : Safe s lanIp es y x := by
  have halong : Along (Bridge.step s) (fun _ e => e ∈ es) (.start lanIp plane) es :=
    along_of_forall_mem _ fun _ he => he
  have hinv : Bridge.Inv s lanIp es y :=
    run_inv_along (fun _ _ _ h he hstep => h.step hs he hstep) (Bridge.inv_start hs lanIp es)
      halong hrun
  have hflow := hinv.flow x
  refine ⟨hflow.conserved, fun payload hmem => hflow.heard payload ?_, (hinv.window x).fresh⟩
  obtain ⟨flight, lost, repeated, -, -, -, hsub, hperm⟩ := hflow.conserved
  refine Flow.mem_captured hsub hperm ?_
  simp only [List.mem_append, hmem, true_or]

/-! ### Two planes -/

/-- A device with one tunnel, to its partner. -/
def onePlane (index theirIndex : UInt32) (sendKey recvKey : Bytes 32) : State where
  pending := ∅
  tunnels := AList.singleton index
    ⟨⟨sendKey, recvKey, theirIndex, index, 0⟩, .v4 (ofList 4 [192, 0, 2, 1]) 41641, Wg.keyOf 3,
      TcpServer.new none⟩
  tsRoutes := ∅
  proxy := .default
  outbound := none
  mdnsReinject := true
  mdnsPartner := Wg.keyOf 3

/-- The data planes of the two ends of a tunnel. -/
def planes : Lan → State
  | .near => onePlane 7 8 (Wg.keyOf 1) (Wg.keyOf 2)
  | .far => onePlane 8 7 (Wg.keyOf 2) (Wg.keyOf 1)

def partners : Setup where
  b := ⟨Crypto.standard, ⟨fun _ _ _ _ => none, fun _ _ _ _ => none⟩,
    ⟨false, true, false, true, false, false⟩, none, 0⟩
  id _ := ⟨Wg.keyOf 9, Wg.keyOf 9, Wg.keyOf 9, Wg.keyOf 9, none⟩
  targets _ := []
  way
    | .near => ⟨Wg.keyOf 1, 8, ⟨100, 64, 0, 1⟩, ⟨100, 64, 0, 2⟩⟩
    | .far => ⟨Wg.keyOf 2, 7, ⟨100, 64, 0, 2⟩, ⟨100, 64, 0, 1⟩⟩

/-- The two data planes of the example are partners. -/
theorem partners_planes : partners.Partners planes where
  opens := Crypto.standard_opens
  mdns := rfl
  bridge := rfl
  clear x := by
    cases x with
    | near => exact ⟨by decide, fun _ h => by cases h⟩
    | far => exact ⟨by decide, fun _ h => by cases h⟩
  near x := by
    cases x with
    | near => exact ⟨_, _, rfl, rfl, rfl⟩
    | far => exact ⟨_, _, rfl, rfl, rfl⟩
  far x := by
    cases x with
    | near => exact ⟨rfl, _, rfl, rfl, rfl⟩
    | far => exact ⟨rfl, _, rfl, rfl, rfl⟩

/-- A host sends a query, which goes to the other network; its datagram may come again. -/
def query : List Event :=
  [.turn .near none, .turn .near (some ([0, 0, 1], ⟨192, 168, 1, 9⟩)), .drain .near,
    .arrive .near 0 true 0 (.v4 (ofList 4 [192, 0, 2, 1]) 41641)
      ⟨0, Wg.keyOf 4, zeros 12, zeros 24, true, 0, 0, fun _ => []⟩, .turn .far none]

theorem bridge_safe_query : ∃ y,
    run (Bridge.step partners) (.start (fun _ => ⟨192, 168, 1, 2⟩) planes) query = some y ∧
      ∀ x, Safe partners (fun _ => ⟨192, 168, 1, 2⟩) query y x :=
  ⟨_, rfl, bridge_safe partners_planes rfl⟩

end Mdns
