/-
# What a step of the data plane changes

The tables that the invariants are about are the pending handshakes, the addresses of the
tunnels and the learned routes.  Sending through a tunnel, the services behind it and the
housekeeping leave the addresses and the routes alone (`Still`); apart from the start of a
handshake, only a datagram that is `accepted` changes them.  `change_onEvent` says all that
an event can do.  Between events no server has an action left to hand out (`Idle`).
-/
import PySpell.Lib.Runs
import PySpell.DataPlane

open Tcp Bytes Runs

namespace DataPlane

namespace State

/-! ## The tables -/

/-- The address of a tunnel. -/
def addrOf (s : State) (i : UInt32) : Option SocketAddr := (s.tunnels.lookup i).map TunnelEntry.addr

/-- A tunnel has an address. -/
theorem addrOf_eq_none {s : State} {i : UInt32} : s.addrOf i = none ↔ i ∉ s.tunnels := by
  rw [addrOf, Option.map_eq_none_iff, AList.lookup_eq_none]

/-- Whether some tunnel is at an address, by the addresses alone. -/
theorem any_addr {s : State} {src : SocketAddr} :
    s.tunnels.any (fun e => e.addr = src) = true ↔ ∃ j, s.addrOf j = some src := by
  rw [Table.any_eq_true]
  constructor
  · rintro ⟨j, e, he, haddr⟩
    exact ⟨j, Option.map_eq_some_iff.mpr ⟨e, he, of_decide_eq_true haddr⟩⟩
  · rintro ⟨j, hj⟩
    obtain ⟨e, he, haddr⟩ := Option.map_eq_some_iff.mp hj
    exact ⟨j, e, he, decide_eq_true haddr⟩

/-- The addresses tell which tunnels there are. -/
theorem mem_iff_of_addrOf {s s' : State} (h : s'.addrOf = s.addrOf) (i : UInt32) :
    i ∈ s'.tunnels ↔ i ∈ s.tunnels := by
  rw [← not_iff_not, ← addrOf_eq_none, ← addrOf_eq_none, h]

/-- The same addresses are as many tunnels. -/
theorem size_eq_of_addrOf {s s' : State} (h : s'.addrOf = s.addrOf) :
    s'.tunnels.size = s.tunnels.size :=
  Table.size_eq_of_mem_iff (mem_iff_of_addrOf h)

/-- No server of a tunnel has an action that waits. -/
def Idle (s : State) : Prop := ∀ i e, s.tunnels.lookup i = some e → e.tcp.action = none

/-- Nothing happens to the tables, and the servers stay idle. -/
structure Still (s s' : State) : Prop where
  pending : s'.pending = s.pending
  addrOf : s'.addrOf = s.addrOf
  tsRoutes : s'.tsRoutes = s.tsRoutes
  idle : s.Idle → s'.Idle

/-- Nothing done keeps everything still. -/
theorem Still.refl (s : State) : Still s s := ⟨rfl, rfl, rfl, fun h => h⟩

/-- Quiet steps follow each other quietly. -/
theorem Still.trans {s t u : State} (h : Still s t) (h' : Still t u) : Still s u :=
  ⟨h'.pending.trans h.pending, h'.addrOf.trans h.addrOf, h'.tsRoutes.trans h.tsRoutes,
    fun hs => h'.idle (h.idle hs)⟩

/-- A tunnel that is changed keeps the servers idle if its own server is left idle. -/
theorem idle_modify {s : State} (hs : s.Idle) (idx : UInt32) {f : TunnelEntry → TunnelEntry}
    (hf : ∀ e, e.tcp.action = none → (f e).tcp.action = none) :
    ({ s with tunnels := s.tunnels.modify idx f } : State).Idle := by
  intro i e he
  by_cases hi : i = idx
  · rw [hi] at he
    obtain ⟨e', he', rfl⟩ := Option.map_eq_some_iff.mp ((Table.lookup_modify_self ..).symm.trans he)
    exact hf e' (hs idx e' he')
  · exact hs i e ((Table.lookup_modify_ne hi ..).symm.trans he)

/-- One tunnel is changed, but not its address. -/
theorem still_modify (s : State) (idx : UInt32) {f : TunnelEntry → TunnelEntry}
    (hf : ∀ e, (f e).addr = e.addr)
    (hidle : ∀ e, e.tcp.action = none → (f e).tcp.action = none) :
    Still s { s with tunnels := s.tunnels.modify idx f } := by
  refine ⟨rfl, ?_, rfl, fun hs => idle_modify hs idx hidle⟩
  funext i
  show ((s.tunnels.modify idx f).lookup i).map TunnelEntry.addr = s.addrOf i
  rw [addrOf]
  by_cases hi : i = idx
  · rw [hi, Table.lookup_modify_self, Option.map_map]
    congr 1
    funext e
    exact hf e
  · rw [Table.lookup_modify_ne hi]

variable (b : Build)

/-! ## Sending and services -/

/-- Sending counts up in one tunnel; its address and its server stay. -/
theorem still_sendAll (cr : Crypto) (s : State) (idx : UInt32) (inners : List (List UInt8))
    (addr : SocketAddr) : Still s (s.sendAll cr idx inners addr).1 := by
  unfold sendAll
  cases s.tunnels.lookup idx with
  | none => exact .refl s
  | some e => exact s.still_modify idx (fun _ => rfl) fun _ h => h

/-- What is done to each tunnel alone, and leaves its address and its pending action, is still for
the table. -/
theorem still_eachTunnel {step : TunnelEntry → TunnelEntry × List Effect} (s : State)
    (hstep : ∀ e, (step e).1.addr = e.addr ∧ (step e).1.tcp.action = e.tcp.action) :
    Still s (s.eachTunnel step).1 := by
  refine ⟨rfl, ?_, rfl, fun hs i e he => ?_⟩
  · funext i
    show ((s.tunnels.mapVals fun e => (step e).1).lookup i).map TunnelEntry.addr = s.addrOf i
    rw [addrOf, Table.lookup_mapVals, Option.map_map]
    congr 1
    funext e
    exact (hstep e).1
  · obtain ⟨e', he', rfl⟩ := Option.map_eq_some_iff.mp ((Table.lookup_mapVals ..).symm.trans he)
    exact (hstep e').2.trans (hs i e' he')

/-- An answer to an outbound fetch is taken by the client and leaves the tunnels alone. -/
theorem still_outboundIn (s : State) (ourIndex : UInt32) (inner : List UInt8)
    (src : SocketAddr) : Still s (s.outboundIn b ourIndex inner src).1 := by
  unfold outboundIn
  cases s.outbound with
  | none => exact .refl s
  | some ob =>
    have hout (ob' : OutboundRun) : Still s { s with outbound := some ob' } :=
      ⟨rfl, rfl, rfl, fun h => h⟩
    dsimp only
    split
    · exact (hout _).trans (still_sendAll b.cr _ ourIndex _ src)
    · exact .refl s

/-- A request over HTTP may move the server of its tunnel, not the table; what it asks of the
device is taken up at once. -/
theorem still_httpIn (s : State) (ourIndex : UInt32) (inner : List UInt8) (src : SocketAddr)
    (d : Draw) : Still s (s.httpIn b ourIndex inner src d).1 := by
  unfold httpIn
  cases s.tunnels.lookup ourIndex with
  | none => exact .refl s
  | some e =>
    exact (s.still_sendAll b.cr ourIndex _ src).trans
      (still_modify _ ourIndex (fun _ => rfl) fun _ _ => rfl)

/-- Whatever the payload of a packet is, serving it leaves the table and the pending
handshakes. -/
theorem still_serve (s : State) (ourIndex : UInt32) (inner : List UInt8) (src : SocketAddr)
    (d : Draw) : Still s (s.serve b ourIndex inner src d).1 := by
  unfold serve
  cases if b.features.icmp then Icmp.echoReplyAny inner else none with
  | some reply => exact s.still_sendAll b.cr ourIndex [reply] src
  | none =>
    dsimp only
    generalize (if b.features.tcpProxy then s.proxy.handle b.proxyListenPort d.lanFetch d.iss inner
      else (s.proxy, [])) = out
    have hproxy : Still s { s with proxy := out.1 } := ⟨rfl, rfl, rfl, fun h => h⟩
    split_ifs
    · exact hproxy.trans (still_sendAll b.cr _ ourIndex out.2 src)
    · exact hproxy.trans (still_httpIn b _ ourIndex inner src d)
    · exact hproxy

/-- The outbound client sends through its tunnel and goes on in its own state. -/
theorem still_runOutbound (rand : UInt32) (s : State) : Still s (s.runOutbound b rand).1 := by
  have hout (ob' : OutboundRun) : Still s { s with outbound := some ob' } :=
    ⟨rfl, rfl, rfl, fun h => h⟩
  unfold runOutbound
  split
  · exact .refl s
  split
  · exact .refl s
  dsimp only
  split
  · split
    · exact (hout _).trans (still_sendAll b.cr _ _ _ _)
    · exact (hout _).trans (still_sendAll b.cr _ _ _ _)
  · exact .refl s

/-- A probe is one more packet through a tunnel. -/
theorem still_probe (rand : UInt32) (s : State) : Still s (s.probe b rand).1 :=
  (s.still_eachTunnel fun _ => ⟨rfl, rfl⟩).trans (still_runOutbound b rand _)

/-- A packet of the bridge goes out through the tunnel of its route, and changes no route. -/
theorem still_drainOne (s : State) (pkt : List UInt8) : Still s (s.drainOne b pkt).1 := by
  unfold drainOne
  split
  · exact .refl s
  split
  · exact .refl s
  split
  · exact .refl s
  · exact s.still_sendAll b.cr _ [pkt] _

/-- So does a whole queue, packet by packet. -/
theorem still_lwipDrainTx (queue : List (List UInt8)) :
    ∀ s : State, Still s (s.lwipDrainTx b queue).1 := by
  induction queue with
  | nil => exact fun s => .refl s
  | cons pkt queue ih => exact fun s => (s.still_drainOne b pkt).trans (ih _)

/-- And so do the payloads for the partner. -/
theorem still_mdnsDrain (ourIp partnerIp : Ip) (payloads : List (List UInt8)) :
    ∀ s : State, Still s (s.mdnsDrain b ourIp partnerIp payloads).1 := by
  induction payloads with
  | nil => exact fun s => .refl s
  | cons payload rest ih =>
    intro s
    rw [mdnsDrain]
    cases s.tunnelTo s.mdnsPartner with
    | none => exact ih s
    | some e => exact (s.still_sendAll b.cr e.1 _ e.2.addr).trans (ih _)

/-! ## Accepted datagrams -/

end State

/-- A datagram that a peer has a key for: an initiation, the response to a pending
handshake, or a packet in a tunnel. -/
inductive Accepted where
  | initiation (ourIndex : UInt32) (src : SocketAddr)
  | response (key : Bytes 32) (ourIndex : UInt32) (src : SocketAddr)
  | transport (ourIndex : UInt32) (inner : List UInt8) (src : SocketAddr)

variable (b : Build) (id : Identity)

namespace State

/-- What a datagram is accepted as. -/
def accepted (s : State) (pkt : List UInt8) (src : SocketAddr) (d : Draw) : Option Accepted :=
  if Disco.isDisco pkt ∨ Stun.isStun pkt then none
  else if pkt.head? = some Wg.msgInitiation then
    (Wg.consumeInitiation b.cr id.nodePriv id.nodePub pkt d.index d.ephPriv).toOption.map
      fun _ => .initiation d.index src
  else if pkt.head? = some Wg.msgResponse then
    (s.answered pkt).bind fun e =>
      (e.2.hs.consumeResponse b.cr pkt).toOption.map fun _ => .response e.1 e.2.ourIndex src
  else if pkt.head? = some Wg.msgTransport then
    (s.decrypt b pkt).map fun e => .transport e.1 e.2 src
  else none

/-- A tunnel is put under an index, in place of the tunnels to the address. -/
structure Tunneled (s : State) (ourIndex : UInt32) (src : SocketAddr) (s' : State) : Prop where
  tunnels : ∃ e : TunnelEntry, e.addr = src ∧ e.tcp.action = none ∧
    s'.tunnels = (s.tunnels.retain fun e => e.addr ≠ src).insert ourIndex e
  tsRoutes : s'.tsRoutes = s.tsRoutes

/-- What happens to the tables when a datagram is accepted as `a`, or when nothing is. -/
inductive Change (s : State) : Option Accepted → State → Prop
  /-- Pending handshakes may be dropped. -/
  | kept {s' : State} (hsize : s'.pending.size ≤ s.pending.size) (haddr : s'.addrOf = s.addrOf)
      (hroutes : s'.tsRoutes = s.tsRoutes) (hidle : s.Idle → s'.Idle) : Change s none s'
  /-- A handshake is started. -/
  | started {s' : State} (hroom : s.tunnels.size + s.pending.size < maxTunnels)
      (hsize : s'.pending.size = s.pending.size + 1) (haddr : s'.addrOf = s.addrOf)
      (hroutes : s'.tsRoutes = s.tsRoutes) (hidle : s.Idle → s'.Idle) : Change s none s'
  | initiated {ourIndex : UInt32} {src : SocketAddr} {s' : State}
      (hpending : s'.pending = s.pending) (htun : Tunneled s ourIndex src s') :
      Change s (some (.initiation ourIndex src)) s'
  | completed {key : Bytes 32} {ourIndex : UInt32} {src : SocketAddr} {s' : State}
      (hsize : s'.pending.size + 1 = s.pending.size) (htun : Tunneled s ourIndex src s') :
      Change s (some (.response key ourIndex src)) s'
  /-- The tunnel follows its peer; the route to the source of the packet may be learned. -/
  | moved {ourIndex : UInt32} {inner : List UInt8} {src : SocketAddr} {s' : State}
      (hmem : ourIndex ∈ s.tunnels) (hpending : s'.pending = s.pending)
      (haddr : ∀ i, s'.addrOf i = if i = ourIndex then some src else s.addrOf i)
      (hroutes : s'.tsRoutes = s.tsRoutes ∨ ∃ ip, s'.tsRoutes = s.tsRoutes.insert ip ourIndex)
      (hidle : s.Idle → s'.Idle) :
      Change s (some (.transport ourIndex inner src)) s'

/-- A step that keeps everything still accepts nothing. -/
theorem Still.change {s s' : State} (h : Still s s') : Change s none s' :=
  .kept (by rw [h.pending]) h.addrOf h.tsRoutes h.idle

/-- A new tunnel brings a server that has nothing to do yet. -/
theorem Tunneled.idle {s s' : State} {ourIndex : UInt32} {src : SocketAddr}
    (h : Tunneled s ourIndex src s') (hs : s.Idle) : s'.Idle := by
  obtain ⟨e, -, haction, htun⟩ := h.tunnels
  intro i e' he'
  rw [htun] at he'
  rcases Table.lookup_insert_eq_some.mp he' with ⟨-, rfl⟩ | ⟨-, he'⟩
  · exact haction
  · exact hs i e' (Table.lookup_retain.mp he').1

/-- Any kind of step leaves the data plane idle between events. -/
theorem Change.idle {s s' : State} {a : Option Accepted} (h : Change s a s') (hs : s.Idle) :
    s'.Idle := by
  cases h with
  | kept _ _ _ hidle => exact hidle hs
  | started _ _ _ _ hidle => exact hidle hs
  | initiated _ htun => exact htun.idle hs
  | completed _ htun => exact htun.idle hs
  | moved _ _ _ _ hidle => exact hidle hs

/-! ## One lemma for each handler -/

/-- Inserting a tunnel is what the table sees of an accepted handshake, whatever changed beside
it. -/
theorem tunneled_insertTunnel {s t : State} (htunnels : t.tunnels = s.tunnels)
    (hroutes : t.tsRoutes = s.tsRoutes) (ourIndex : UInt32) (tun : Wg.Tunnel) (src : SocketAddr)
    (peerNode : Bytes 32) : Tunneled s ourIndex src (t.insertTunnel b ourIndex tun src peerNode) :=
  ⟨⟨⟨tun, src, peerNode, TcpServer.new b.route⟩, rfl, rfl, by rw [insertTunnel, htunnels]⟩, hroutes⟩

/-- The new tunnel is under its index. -/
theorem lookup_insertTunnel_self (s : State) (ourIndex : UInt32) (tun : Wg.Tunnel)
    (src : SocketAddr) (peerNode : Bytes 32) :
    (s.insertTunnel b ourIndex tun src peerNode).tunnels.lookup ourIndex =
      some ⟨tun, src, peerNode, TcpServer.new b.route⟩ := AList.lookup_insert _

/-- It has the keys of the handshake and the address of its packet. -/
theorem exists_lookup_insertTunnel (s : State) (ourIndex : UInt32) (tun : Wg.Tunnel)
    (src : SocketAddr) (peerNode : Bytes 32) :
    ∃ e, (s.insertTunnel b ourIndex tun src peerNode).tunnels.lookup ourIndex = some e ∧
      e.tun = tun ∧ e.addr = src :=
  ⟨_, s.lookup_insertTunnel_self b ourIndex tun src peerNode, rfl, rfl⟩

/-- A tunnel at another index and another address stays: only those at the same address make
room. -/
theorem lookup_insertTunnel_ne {s : State} {i ourIndex : UInt32} {e : TunnelEntry}
    {src : SocketAddr} (he : s.tunnels.lookup i = some e) (hi : i ≠ ourIndex) (haddr : e.addr ≠ src)
    (tun : Wg.Tunnel) (peerNode : Bytes 32) :
    (s.insertTunnel b ourIndex tun src peerNode).tunnels.lookup i = some e :=
  (AList.lookup_insert_ne hi).trans (Table.lookup_retain.mpr ⟨he, decide_eq_true haddr⟩)

/-- The handshake that a response names is one that is waited for. -/
theorem mem_of_answered {s : State} {pkt : List UInt8} {e : Bytes 32 × Pending}
    (h : s.answered pkt = some e) : e.1 ∈ s.pending := by
  unfold answered at h
  split_ifs at h
  obtain ⟨entry, hfind, rfl⟩ := Option.map_eq_some_iff.mp h
  have hmem : entry ∈ s.pending.entries := List.mem_of_find?_eq_some hfind
  exact AList.mem_keys.mpr (List.mem_map_of_mem hmem)

/-- A packet that is opened came to a tunnel of the table. -/
theorem mem_of_decrypt {s : State} {pkt : List UInt8} {e : UInt32 × List UInt8}
    (h : s.decrypt b pkt = some e) : e.1 ∈ s.tunnels := by
  unfold decrypt at h
  split_ifs at h
  obtain ⟨entry, hlookup, hmap⟩ := Option.bind_eq_some_iff.mp h
  obtain ⟨inner, -, rfl⟩ := Option.map_eq_some_iff.mp hmap
  exact AList.lookup_isSome.mp (Option.isSome_of_eq_some hlookup)

/-! ### What a handler changes -/

/-- A handshake of our own takes a place among the pending ones, and only when there is room. -/
theorem change_maybeStartHandshake (targets : List Target) (s : State) (tick : UInt32)
    (discoPub : Bytes 32) (src : SocketAddr) (d : Draw) :
    Change s none (s.maybeStartHandshake b id targets tick discoPub src d).1 := by
  unfold maybeStartHandshake
  split
  · exact (Still.refl s).change
  next target _ =>
  split
  · exact (Still.refl s).change
  next hroom =>
  rw [not_or, not_or, Nat.not_le] at hroom
  obtain ⟨hkey, -, hsize⟩ := hroom
  dsimp only
  split
  · exact .started hsize (Table.size_insert_of_notMem _ hkey) rfl rfl fun h => h
  · exact (Still.refl s).change

/-- Discovery messages are answered, and may start a handshake; none makes a tunnel. -/
theorem change_handleDisco (targets : List Target) (s : State) (tick : UInt32)
    (pkt : List UInt8) (src : SocketAddr) (d : Draw) :
    Change s none (s.handleDisco b id targets tick pkt src d).1 := by
  unfold handleDisco
  split
  · exact (Still.refl s).change
  split_ifs
  · exact (Still.refl s).change
  · exact s.change_maybeStartHandshake b id targets tick _ src d
  · exact (Still.refl s).change

/-- Behind the filter only a route is learned. -/
theorem dispatch_spec (s : State) (ourIndex : UInt32) (inner : List UInt8) (src : SocketAddr)
    (d : Draw) : Still s (s.dispatch b ourIndex inner src d).1 ∨
      ∃ ip, (s.dispatch b ourIndex inner src d).1 =
        { s with tsRoutes := s.tsRoutes.insert ip ourIndex } := by
  unfold dispatch
  split
  · rw [bridge]
    cases ipv4Src inner with
    | none => exact .inl (.refl s)
    | some ip => exact .inr ⟨ip, rfl⟩
  · left
    split
    · exact .refl s
    have hout := s.still_outboundIn b ourIndex inner src
    dsimp only
    split
    · exact hout
    · exact hout.trans (still_serve b _ ourIndex inner src d)

/-- **An opened packet** moves its tunnel to where it came from, and is served. -/
theorem change_handleDecrypted {s : State} {ourIndex : UInt32} (hmem : ourIndex ∈ s.tunnels)
    (inner : List UInt8) (src : SocketAddr) (d : Draw) :
    Change s (some (.transport ourIndex inner src))
      (s.handleDecrypted b id ourIndex inner src d).1 := by
  obtain ⟨e, he⟩ := Option.isSome_iff_exists.mp (AList.lookup_isSome.mpr hmem)
  obtain ⟨t, ht⟩ : ∃ t : State, t = { s with
    tunnels := s.tunnels.modify ourIndex fun e => { e with addr := src } } := ⟨_, rfl⟩
  have haddr (i : UInt32) : t.addrOf i = if i = ourIndex then some src else s.addrOf i := by
    rw [ht]
    show ((s.tunnels.modify ourIndex _).lookup i).map TunnelEntry.addr = _
    by_cases hi : i = ourIndex
    · rw [if_pos hi, hi, Table.lookup_modify_self, he]
      rfl
    · rw [if_neg hi, Table.lookup_modify_ne hi]
      rfl
  have hpending : t.pending = s.pending := by rw [ht]
  have hroutes : t.tsRoutes = s.tsRoutes := by rw [ht]
  unfold handleDecrypted
  rw [he]
  dsimp only
  rw [← ht]
  have hidle (hs : s.Idle) : t.Idle := ht ▸ idle_modify hs ourIndex fun _ h => h
  split_ifs
  · exact .moved hmem hpending haddr (.inl hroutes) hidle
  · exact .moved hmem hpending haddr (.inl hroutes) hidle
  · rcases t.dispatch_spec b ourIndex inner src d with hstill | ⟨ip, hip⟩
    · refine .moved hmem (hstill.pending.trans hpending) (fun i => ?_)
        (.inl (hstill.tsRoutes.trans hroutes)) fun hs => hstill.idle (hidle hs)
      rw [hstill.addrOf, haddr]
    · rw [hip]
      refine .moved hmem hpending haddr (.inr ⟨ip, ?_⟩) hidle
      rw [← hroutes]

/-- Of the addresses it changes that one only. -/
theorem addrOf_handleDecrypted {s : State} {ourIndex : UInt32} (hmem : ourIndex ∈ s.tunnels)
    (inner : List UInt8) (src : SocketAddr) (d : Draw) (i : UInt32) :
    (s.handleDecrypted b id ourIndex inner src d).1.addrOf i =
      if i = ourIndex then some src else s.addrOf i := by
  cases s.change_handleDecrypted b id hmem inner src d with
  | moved _ _ haddr => exact haddr i

/-- The bridge learns the route to the source of a packet. -/
theorem tsRoutes_handleDecrypted (hbridge : b.features.lwipBridge = true) {s : State}
    {ourIndex : UInt32} (hmem : ourIndex ∈ s.tunnels) {inner : List UInt8} {ip : Ip}
    (hip : ipv4Src inner = some ip) (hallowed : srcAllowed id.allowedSrcs inner = true)
    (src : SocketAddr) (d : Draw) :
    (s.handleDecrypted b id ourIndex inner src d).1.tsRoutes = s.tsRoutes.insert ip ourIndex := by
  obtain ⟨e, he⟩ := Option.isSome_iff_exists.mp (AList.lookup_isSome.mpr hmem)
  have hne : inner ≠ [] := by
    rintro rfl
    cases hip
  rw [handleDecrypted, he]
  dsimp only
  rw [if_neg hne, hallowed, if_neg (by decide), dispatch, if_pos hbridge, bridge, hip]
  rfl

/-- **What a packet can do to the tables**, by what is accepted of it: a handshake, an answer, a
packet of a tunnel, or nothing. -/
theorem change_handlePacket (targets : List Target) (s : State) (tick : UInt32)
    (pkt : List UInt8) (src : SocketAddr) (d : Draw) :
    Change s (s.accepted b id pkt src d) (s.handlePacket b id targets tick pkt src d).1 := by
  unfold accepted handlePacket
  by_cases hdisco : Disco.isDisco pkt = true
  · rw [if_pos (.inl hdisco), if_pos hdisco]
    exact s.change_handleDisco b id targets tick pkt src d
  by_cases hstun : Stun.isStun pkt = true
  · rw [if_pos (.inr hstun), if_neg hdisco, if_pos hstun]
    exact (Still.refl s).change
  rw [if_neg (not_or.mpr ⟨hdisco, hstun⟩), if_neg hdisco, if_neg hstun]
  split_ifs
  · rw [handleWgInit]
    cases Wg.consumeInitiation b.cr id.nodePriv id.nodePub pkt d.index d.ephPriv with
    | error _ => exact (Still.refl s).change
    | ok r =>
      exact .initiated rfl (tunneled_insertTunnel b rfl rfl d.index _ src _)
  · rw [handleWgResponse]
    cases hans : s.answered pkt with
    | none => exact (Still.refl s).change
    | some e =>
      have hsize : Table.size (s.pending.erase e.1) + 1 = s.pending.size :=
        Table.size_erase_of_mem (mem_of_answered hans)
      dsimp only [Option.bind_some]
      cases e.2.hs.consumeResponse b.cr pkt with
      | error _ => exact .kept (by dsimp only; omega) rfl rfl fun h => h
      | ok tun =>
        exact .completed hsize (tunneled_insertTunnel b (s := s)
          (t := { s with pending := s.pending.erase e.1 }) rfl rfl _ _ src e.1)
  · rw [handleWgTransport]
    cases hdec : s.decrypt b pkt with
    | none => exact (Still.refl s).change
    | some e => exact s.change_handleDecrypted b id (mem_of_decrypt b hdec) e.2 src d
  · exact (Still.refl s).change

/-! ## Datagrams of a peer -/

section Datagrams

variable {b id} {pkt : List UInt8} (hdisco : Disco.isDisco pkt = false)
  (hstun : Stun.isStun pkt = false) (targets : List Target) (s : State) (tick : UInt32)
  (src : SocketAddr)

include hdisco hstun

/-- An initiation that is accepted is answered, and its tunnel inserted. -/
theorem handlePacket_initiation {d : Draw} {resp : List UInt8} {tun : Wg.Tunnel}
    {peer : Bytes 32} (h : Wg.consumeInitiation b.cr id.nodePriv id.nodePub pkt d.index d.ephPriv =
      .ok (resp, tun, peer)) :
    s.handlePacket b id targets tick pkt src d =
      (s.insertTunnel b d.index tun src peer, [.send resp src]) := by
  have hhead : pkt.head? = some Wg.msgInitiation := Wg.head_of_consumeInitiation h
  rw [handlePacket, hdisco, hstun, if_neg Bool.false_ne_true, if_neg Bool.false_ne_true,
    if_pos hhead, handleWgInit, h]

/-- A packet of a tunnel goes the way of WireGuard. -/
theorem handlePacket_transport (hhead : pkt.head? = some Wg.msgTransport) (d : Draw) :
    s.handlePacket b id targets tick pkt src d = s.handleWgTransport b id pkt src d := by
  rw [handlePacket, hdisco, hstun, if_neg Bool.false_ne_true, if_neg Bool.false_ne_true, hhead,
    if_neg (by decide), if_neg (by decide), if_pos rfl]

end Datagrams

/-- What a tunnel seals is not taken for a discovery message. -/
theorem isDisco_encrypt (cr : Crypto) (t : Wg.Tunnel) (inner : List UInt8) :
    Disco.isDisco (t.encrypt cr inner).2 = false :=
  Disco.isDisco_cons (b := Wg.msgTransport) (by decide) _

/-- A packet looks like STUN if the index of its tunnel does. -/
theorem isStun_encrypt (cr : Crypto) (t : Wg.Tunnel) (inner : List UInt8) :
    Stun.isStun (t.encrypt cr inner).2 =
      decide (Tcp.u32At (Wg.leU32 t.theirIndex) 0 = Stun.magicCookie) := by
  have hlen := Wg.length_encrypt cr t inner
  have hindex : Tcp.u32At (t.encrypt cr inner).2 4 = Tcp.u32At (Wg.leU32 t.theirIndex) 0 := rfl
  rw [Stun.isStun, decide_eq_true (by omega : 8 ≤ (t.encrypt cr inner).2.length), Bool.true_and,
    hindex]

variable {b id}

/-- A packet that the other end of a tunnel encrypts. -/
theorem decrypt_encrypt (hopen : b.cr.Opens) {s : State} {ourIndex : UInt32} {e : TunnelEntry}
    (hlookup : s.tunnels.lookup ourIndex = some e) {t : Wg.Tunnel}
    (hkey : t.sendKey = e.tun.recvKey) (hindex : t.theirIndex = ourIndex) (inner : List UInt8) :
    s.decrypt b (t.encrypt b.cr inner).2 = some (ourIndex, Wg.pad16 inner) := by
  have hlen := Wg.length_encrypt b.cr t inner
  rw [decrypt, if_neg (by omega), Wg.u32At_encrypt, hindex]
  dsimp only
  rw [hlookup, Option.bind_some, Wg.decrypt_encrypt b.cr hopen hkey]
  rfl

/-- A packet of the peer comes through its tunnel, unless it looks like STUN. -/
theorem handlePacket_encrypt (id : Identity) (hopen : b.cr.Opens) {s : State} {ourIndex : UInt32}
    {e : TunnelEntry} (hlookup : s.tunnels.lookup ourIndex = some e) {t : Wg.Tunnel}
    (hkey : t.sendKey = e.tun.recvKey) (hindex : t.theirIndex = ourIndex)
    (hstun : Tcp.u32At (Wg.leU32 ourIndex) 0 ≠ Stun.magicCookie) (inner : List UInt8)
    (targets : List Target) (tick : UInt32) (src : SocketAddr) (d : Draw) :
    s.handlePacket b id targets tick (t.encrypt b.cr inner).2 src d =
      s.handleDecrypted b id ourIndex (Wg.pad16 inner) src d := by
  have hstun' : Stun.isStun (t.encrypt b.cr inner).2 = false := by
    rw [isStun_encrypt, hindex, decide_eq_false hstun]
  have hhead : (t.encrypt b.cr inner).2.head? = some Wg.msgTransport := rfl
  rw [handlePacket_transport (isDisco_encrypt b.cr t inner) hstun' targets s tick src hhead,
    handleWgTransport, decrypt_encrypt hopen hlookup hkey hindex]

/-! ## Housekeeping -/

variable (b id)

/-- A timer of a tunnel changes neither its address nor what is asked of the device. -/
theorem tick_spec (now : ℕ) (e : TunnelEntry) :
    (e.tick b now).1.addr = e.addr ∧ (e.tick b now).1.tcp.action = e.tcp.action := by
  unfold TunnelEntry.tick
  split_ifs
  · exact ⟨rfl, e.tcp.action_tick now⟩
  · exact ⟨rfl, rfl⟩

end State

namespace Shared

/-- A datagram is handled under the lock, and nothing else of the shared state is touched. -/
theorem onEvent_datagram (x : Shared) (pkt : List UInt8) (src : SocketAddr) (d : Draw) :
    (x.onEvent b id (.datagram pkt src d)).1 =
      { x with st := (x.st.handlePacket b id x.targets x.tick pkt src d).1 } := rfl

/-- What an event brings that is accepted. -/
def accepted (x : Shared) : Event → Option Accepted
  | .datagram pkt src d => x.st.accepted b id pkt src d
  | _ => none

/-- The state between the timers of a housekeeping step and the retries. -/
theorem st_runPeriodic (x : Shared) (tick : UInt32) (now : ℕ) (added : List Target)
    (probing : Bool) (rand : UInt32) : ∃ t, State.Still x.st t ∧
      State.Still (t.retryPending tick).1 (x.runPeriodic b tick now added probing rand).1.st := by
  refine ⟨(x.st.eachTunnel (TunnelEntry.tick b now)).1,
    x.st.still_eachTunnel (State.tick_spec b now), ?_⟩
  unfold runPeriodic
  cases probing with
  | true => exact State.still_probe b rand _
  | false => exact .refl _

/-- **All that an event does to the tables.** -/
theorem change_onEvent (x : Shared) (e : Event) :
    State.Change x.st (x.accepted b id e) (x.onEvent b id e).1.st := by
  cases e with
  | datagram pkt src d => exact x.st.change_handlePacket b id x.targets x.tick pkt src d
  | periodic tick now added probing rand =>
    obtain ⟨t, ht, hlast⟩ := x.st_runPeriodic b tick now added probing rand
    refine .kept ?_ (hlast.addrOf.trans ht.addrOf) (hlast.tsRoutes.trans ht.tsRoutes)
      fun hs => hlast.idle (ht.idle hs)
    show (x.runPeriodic b tick now added probing rand).1.st.pending.size ≤ x.st.pending.size
    rw [hlast.pending, ← ht.pending]
    exact Table.size_filterMap_le _ _
  | drain queue =>
    show State.Change x.st none (if b.features.lwipBridge then _ else _ : State × List Effect).1
    split_ifs
    · exact (State.still_lwipDrainTx b queue x.st).change
    · exact (State.Still.refl x.st).change
  | mdns ourIp partnerIp payloads =>
    show State.Change x.st none (if b.features.mdnsForward then _ else _ : State × List Effect).1
    split_ifs
    · exact (State.still_mdnsDrain b ourIp partnerIp payloads x.st).change
    · exact (State.Still.refl x.st).change

/-- The condition on the datagrams that are accepted. -/
def OnAccepted (ok : State → Accepted → Prop) (x : Shared) (e : Event) : Prop :=
  ∀ a, x.accepted b id e = some a → ok x.st a

/-- **From a step to a run**: a property of the tables that a step keeps exactly if the
datagram meets the condition. -/
theorem throughout_iff {P : State → Prop} {ok : State → Accepted → Prop}
    (hchange : ∀ {s s' : State} {a : Option Accepted}, State.Change s a s' → P s →
      (P s' ↔ ∀ c, a = some c → ok s c)) {x : Shared} (hx : P x.st) (es : List Event) :
    Throughout (step b id) (fun x => P x.st) x es ↔
      Along (step b id) (OnAccepted b id ok) x es :=
  throughout_iff_along (P := fun x : Shared => P x.st)
    (fun x e hs => ⟨_, rfl, hchange (x.change_onEvent b id e) hs⟩) hx

end Shared

end DataPlane
