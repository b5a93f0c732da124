/-
# The filter of inner packets

With a list of allowed sources, both data planes look at the source of an IPv4 packet, and
let everything else pass.  Behind the filter only pings are answered over IPv6; every other
service parses IPv4.  So nothing happens to a packet that has no allowed source, unless it
is a ping over IPv6; and a build with the lwIP bridge hands lwIP all that is not IPv4.
-/
import PySpell.TunnelTable
import PySpell.Derp

open Tcp Bytes Runs

/-! ## Packets that no service takes -/

/-- No service takes the packet: it has no IPv4 header, and it is no ping over IPv6. -/
structure Unserved (inner : List UInt8) : Prop where
  header : ¬ (20 ≤ inner.length ∧ Icmp.version inner = 4)
  echo : Icmp.echoReplyV6 inner = none

namespace Unserved

variable {inner : List UInt8} (h : Unserved inner)

include h

/-- What the filter drops and echoes nothing to is too short for IPv4 or has another version. -/
theorem not_ip : inner.length < 20 ∨ Icmp.version inner ≠ 4 := by
  rcases not_and_or.mp h.header with hlen | hver
  · exact .inl (Nat.lt_of_not_le hlen)
  · exact .inr hver

/-- It is not an echo request of IPv4. -/
theorem echoReply : Icmp.echoReply inner = none := by
  rw [Icmp.echoReply, if_pos h.not_ip]

/-- Nor of IPv6. -/
theorem echoReplyAny : Icmp.echoReplyAny inner = none := by
  unfold Icmp.echoReplyAny
  cases inner with
  | nil => rfl
  | cons x rest =>
    dsimp only
    split_ifs
    · exact h.echoReply
    · exact h.echo
    · rfl

/-- Nor TCP over IPv4. -/
theorem parsePacket : parsePacket inner = none := by
  have hcond : inner.length < 20 ∨ Icmp.version inner ≠ 4 ∨ inner.getD 9 0 ≠ protoTcp := by
    rw [← or_assoc]
    exact .inl h.not_ip
  rw [Tcp.parsePacket]
  exact if_pos hcond

/-- So the server ignores it. -/
theorem handleStream (s : TcpServer) (now : ℕ) (iss : UInt32) :
    s.handleStream inner now iss = (s, []) := by
  rw [TcpServer.handleStream, TcpServer.process, TcpServer.receive, h.parsePacket]

/-- The proxy ignores it. -/
theorem proxyHandle (c : Proxy.ProxyConn) (port : ℕ) (lanFetch : List UInt8 → List UInt8)
    (iss : UInt32) : c.handle port lanFetch iss inner = (c, []) := by
  rw [Proxy.ProxyConn.handle, h.parsePacket]

/-- It is no datagram for a port of ours. -/
theorem udpPayloadToPort (port : ℕ) : DataPlane.State.udpPayloadToPort inner port = none := by
  have hcond : inner.length < 20 ∨ Icmp.version inner ≠ 4 ∨
      inner.getD 9 0 ≠ Outbound.protoUdp := by
    rw [← or_assoc]
    exact .inl h.not_ip
  rw [DataPlane.State.udpPayloadToPort, if_pos hcond]

/-- And not for the outbound client. -/
theorem owns (c : Outbound.TcpClient) : c.owns inner = false := by
  have hcond : inner.length < 20 ∨ Icmp.version inner ≠ 4 ∨ inner.getD 9 0 ≠ protoTcp := by
    rw [← or_assoc]
    exact .inl h.not_ip
  rw [Outbound.TcpClient.owns]
  exact if_pos hcond

end Unserved

namespace DataPlane

/-! ## The filter -/

/-- The packet has an IPv4 source within the list. -/
def hasAllowedSrc (cidrs : List NetMap.Cidr) (inner : List UInt8) : Bool :=
  16 ≤ inner.length && Icmp.version inner = 4 && cidrMatch cidrs (Tcp.u32At inner 12)

/-- What passes the filter without an allowed source is not IPv4. -/
theorem not_ipv4_of_srcAllowed {cidrs : List NetMap.Cidr} {inner : List UInt8}
    (hallowed : srcAllowed (some cidrs) inner = true) (hsrc : hasAllowedSrc cidrs inner = false) :
    ¬ (16 ≤ inner.length ∧ Icmp.version inner = 4) := by
  rintro ⟨hlen, hver⟩
  have hpass : ¬ (inner.length < 16 ∨ Icmp.version inner ≠ 4) := by omega
  rw [srcAllowed, if_neg hpass] at hallowed
  rw [hasAllowedSrc, decide_eq_true hlen, decide_eq_true hver, hallowed] at hsrc
  cases hsrc

namespace State

/-! ## The direct data plane -/

section

variable (b : Build) {s : State} {ourIndex : UInt32} {inner : List UInt8} (src : SocketAddr)
  (d : Draw)

/-- Nothing is sent. -/
theorem sendAll_nil (cr : Crypto) (s : State) (idx : UInt32) (addr : SocketAddr) :
    s.sendAll cr idx [] addr = (s, []) := by
  rw [sendAll]
  cases s.tunnels.lookup idx with
  | none => rfl
  | some e =>
    have htunnels : s.tunnels.modify idx (fun e => (e.sendAll cr [] addr).1) = s.tunnels :=
      Table.modify_eq_self fun _ _ => rfl
    dsimp only
    rw [htunnels]
    rfl

variable (h : Unserved inner)

include h

/-- It is not a forwarded payload. -/
theorem mdnsIn_unserved : s.mdnsIn b ourIndex inner = none := by
  rw [mdnsIn, h.udpPayloadToPort, Option.map_none, ite_self]

/-- It is no answer to an outbound fetch. -/
theorem outboundIn_unserved : s.outboundIn b ourIndex inner src = (s, none) := by
  rw [outboundIn]
  cases hout : s.outbound with
  | none => rfl
  | some ob =>
    have hinner : ob.onInner inner = (ob, [], false) := by
      rw [OutboundRun.onInner]
      cases ob.tcp with
      | none => rfl
      | some tc =>
        dsimp only
        rw [if_neg (by rw [h.owns]; decide)]
    have hsame : ({ s with outbound := some ob } : State) = s := by rw [← hout]
    dsimp only
    rw [hinner, hsame]
    dsimp only
    rw [sendAll_nil, if_neg Bool.false_ne_true, ite_self]

/-- It is no request. -/
theorem httpIn_unserved (hidle : s.Idle) : s.httpIn b ourIndex inner src d = (s, []) := by
  rw [httpIn]
  cases he : s.tunnels.lookup ourIndex with
  | none => rfl
  | some e =>
    have haction : e.tcp.action = none := hidle ourIndex e he
    dsimp only
    rw [h.handleStream]
    dsimp only [TcpServer.takeAction]
    have htcp : ({ e.tcp with action := none } : TcpServer) = e.tcp := by rw [← haction]
    have htunnels : (s.tunnels.modify ourIndex fun e' => { e' with tcp := e.tcp }) = s.tunnels := by
      apply Table.modify_eq_self
      intro v hv
      obtain rfl := Option.some_inj.mp (he.symm.trans hv)
      rfl
    rw [List.map_nil, sendAll_nil, haction, htcp]
    dsimp only
    rw [htunnels]
    rfl

/-- So nothing serves it. -/
theorem serve_unserved (hidle : s.Idle) : s.serve b ourIndex inner src d = (s, []) := by
  rw [serve, h.echoReplyAny, ite_self]
  dsimp only
  rw [h.proxyHandle, ite_self]
  dsimp only
  rw [if_neg (not_not.mpr rfl)]
  split_ifs
  · exact httpIn_unserved b src d h hidle
  · rfl

/-- Without the bridge nothing else takes it either. -/
theorem dispatch_unserved (hidle : s.Idle) (hbridge : b.features.lwipBridge = false) :
    s.dispatch b ourIndex inner src d = (s, []) := by
  rw [dispatch, hbridge, if_neg Bool.false_ne_true, mdnsIn_unserved b h]
  dsimp only
  rw [outboundIn_unserved b src h]
  exact serve_unserved b src d h hidle

end

/-- A packet through tunnel `ourIndex` comes to nothing: nothing leaves the data plane, and
only the address of the tunnel changes. -/
def Dropped (b : Build) (id : Identity) (s : State) (ourIndex : UInt32) (inner : List UInt8)
    (src : SocketAddr) (d : Draw) : Prop :=
  s.handleDecrypted b id ourIndex inner src d =
    ({ s with tunnels := s.tunnels.modify ourIndex fun e => { e with addr := src } }, [])

/-- **A packet from a source outside of the filter is dropped**: the tunnel has moved to where it
came from, and nothing is sent or changed beside that. -/
theorem dropped_of_not_hasAllowedSrc (b : Build) {id : Identity} {cidrs : List NetMap.Cidr}
    (hid : id.allowedSrcs = some cidrs) {inner : List UInt8}
    (hsrc : hasAllowedSrc cidrs inner = false) (hecho : Icmp.echoReplyV6 inner = none)
    (hbridge : b.features.lwipBridge = false ∨ 16 ≤ inner.length ∧ Icmp.version inner = 4)
    {s : State} (hidle : s.Idle) (ourIndex : UInt32) (src : SocketAddr) (d : Draw) :
    s.Dropped b id ourIndex inner src d := by
  unfold Dropped handleDecrypted
  cases he : s.tunnels.lookup ourIndex with
  | none =>
    have htunnels : (s.tunnels.modify ourIndex fun e => { e with addr := src }) = s.tunnels :=
      Table.modify_eq_self fun v hv => by rw [he] at hv; cases hv
    dsimp only
    rw [htunnels]
  | some e =>
    dsimp only
    rw [hid]
    split_ifs with hnil hfilter
    · rfl
    · rfl
    · have hallowed : srcAllowed (some cidrs) inner = true := by simpa using hfilter
      have hnot := not_ipv4_of_srcAllowed hallowed hsrc
      have hunserved : Unserved inner := ⟨fun hand => hnot ⟨by omega, hand.2⟩, hecho⟩
      exact dispatch_unserved b src d hunserved (idle_modify hidle ourIndex fun _ h => h)
        (hbridge.resolve_right hnot)

end State

namespace Shared

/-- Between events no server has an action to hand out. -/
theorem idle_run (b : Build) (id : Identity) {targets : List Target}
    {outbound : Option OutboundRun} {mdnsReinject : Bool} {mdnsPartner : Bytes 32}
    {es : List Event} {x : Shared}
    (hrun : run (step b id) (start targets outbound mdnsReinject mdnsPartner) es = some x) :
    x.st.Idle := by
  have hstart : (start targets outbound mdnsReinject mdnsPartner).st.Idle := by
    intro i e he
    cases he
  have hstep (x : Shared) (e : Event) (x' : Shared) (hx : x.st.Idle)
      (hx' : step b id x e = some x') : x'.st.Idle := by
    obtain rfl : (x.onEvent b id e).1 = x' := Option.some_inj.mp hx'
    exact (x.change_onEvent b id e).idle hx
  exact run_inv hstep hstart hrun

end Shared

end DataPlane

namespace Derp

open DataPlane (Build Identity hasAllowedSrc)

/-! ## The relay data plane -/

section

variable (b : Build) (id : Identity) (src : Bytes 32)

/-- What a peer's packet asks of the device is taken up before the next. -/
theorem DerpPeer.action_handleInner {p : DerpPeer} (hp : p.tcp.action = none) (inner : List UInt8)
    (now : ℕ) (iss : UInt32) : (p.handleInner b src inner now iss).1.tcp.action = none := by
  unfold handleInner
  cases if b.features.icmp then Icmp.echoReplyAny inner else none with
  | some reply => exact hp
  | none =>
    dsimp only
    split_ifs
    · rfl
    · exact hp

/-- Also when it comes through the relay. -/
theorem DerpPeer.action_onInner {p : DerpPeer} (hp : p.tcp.action = none) (inner : List UInt8)
    (now : ℕ) (iss : UInt32) : (p.onInner b id src inner now iss).1.tcp.action = none := by
  unfold onInner
  split_ifs
  · exact p.action_handleInner b src hp inner now iss
  · exact hp

/-! ### Servers between events -/

namespace State

/-- No server of a peer has an action that waits. -/
def Idle (s : State) : Prop := ∀ src p, s.peers.lookup src = some p → p.tcp.action = none

/-- A new peer has asked for nothing. -/
theorem Idle.insertPeer {s : State} (hs : s.Idle) {p : DerpPeer} (hp : p.tcp.action = none) :
    (s.insertPeer src p).Idle := by
  -- the table before the insertion is the old one, or lacks one peer
  have hinsert {peers : Table (Bytes 32) DerpPeer}
      (hpeers : ∀ k q, peers.lookup k = some q → q.tcp.action = none) (k : Bytes 32) (q : DerpPeer)
      (hq : (peers.insert src p).lookup k = some q) : q.tcp.action = none := by
    rcases Table.lookup_insert_eq_some.mp hq with ⟨-, rfl⟩ | ⟨-, hq'⟩
    · exact hp
    · exact hpeers k q hq'
  have herase (old k : Bytes 32) (q : DerpPeer) (hq : (s.peers.erase old).lookup k = some q) :
      q.tcp.action = none := by
    by_cases hk : k = old
    · rw [hk, AList.lookup_erase] at hq
      cases hq
    · exact hs k q ((AList.lookup_erase_ne hk).symm.trans hq)
  unfold State.insertPeer
  dsimp only
  split_ifs
  · cases s.peers.entries.minOn? fun e => e.2.lastMs with
    | none => exact hinsert hs
    | some old => exact hinsert (herase old.1)
  · exact hinsert hs

/-- A packet of a peer leaves the relay idle. -/
theorem Idle.handleTransport {s : State} (hs : s.Idle) (pkt : List UInt8) (d : Draw) :
    (s.handleTransport b id src pkt d).1.Idle := by
  unfold State.handleTransport
  split
  · exact hs
  next p hp =>
  dsimp only
  intro k q hq
  by_cases hk : k = src
  · rw [hk] at hq
    obtain ⟨-, -, rfl⟩ :=
      Option.map_eq_some_iff.mp ((Table.lookup_modify_self ..).symm.trans hq)
    cases p.tun.decrypt b.cr pkt with
    | error _ => exact hs src p hp
    | ok inner =>
      exact DerpPeer.action_onInner b id src (p := { p with lastMs := d.now }) (hs src p hp) inner
        d.now d.iss
  · exact hs k q ((Table.lookup_modify_ne hk ..).symm.trans hq)

/-- So does quiet time. -/
theorem Idle.idle {s : State} (hs : s.Idle) (now : ℕ) : (s.idle b now).1.Idle := by
  intro k q hq
  obtain ⟨p, hp, hq'⟩ :=
    Option.bind_eq_some_iff.mp ((Table.lookup_filterMap _ s.peers k).symm.trans hq)
  obtain rfl := Option.some_inj.mp hq'
  unfold DerpPeer.tick
  split_ifs
  · exact (p.tcp.action_tick now).trans (hs k p hp)
  · exact hs k p hp

/-- So does the move to a direct path. -/
theorem Idle.upgrade {s : State} (hs : s.Idle) (upgrade : Option Upgrade) (d : Draw) :
    (s.upgrade b id upgrade src d).1.Idle := by
  unfold State.upgrade
  cases upgrade with
  | none => exact hs
  | some up =>
    dsimp only
    split_ifs
    · exact hs
    · exact hs
    · exact hs
    · exact hs

/-- And so does every frame, whatever its type. -/
theorem Idle.handleFrame {s : State} (hs : s.Idle) (upgrade : Option Upgrade) (typ : UInt8)
    (payload : List UInt8) (d : Draw) : (s.handleFrame b id upgrade typ payload d).1.Idle := by
  unfold State.handleFrame
  split
  · exact hs
  next src pkt _ =>
  split
  · exact hs
  have hup := hs.upgrade b id src upgrade d
  dsimp only
  split_ifs
  · exact hup
  · unfold handleInit
    cases Wg.consumeInitiation b.cr id.nodePriv id.nodePub pkt d.index d.ephPriv with
    | error _ => exact hup
    | ok r => exact hup.insertPeer src rfl
  · exact hup.handleTransport b id src pkt d
  · exact hup

end State

/-- Between events no server has an action to hand out. -/
theorem idle_run {upgrade : Option Upgrade} {es : List Event} {s : State}
    (hrun : run (step b id upgrade) start es = some s) : s.Idle := by
  have hstart : start.Idle := by
    intro k q hq
    cases hq
  have hstep (s : State) (e : Event) (s' : State) (hs : s.Idle)
      (hs' : step b id upgrade s e = some s') : s'.Idle := by
    obtain rfl : (onEvent b id upgrade s e).1 = s' := Option.some_inj.mp hs'
    cases e with
    | frame typ payload d => exact hs.handleFrame b id upgrade typ payload d
    | idle now => exact hs.idle b now
    | reconnect => exact hstart
  exact run_inv hstep hstart hrun

namespace State

/-- A packet that came through the tunnel of a peer comes to nothing: nothing leaves the data
plane, and only the time of the peer changes. -/
def Dropped (s : State) (pkt : List UInt8) (d : Draw) : Prop :=
  s.handleTransport b id src pkt d =
    ({ s with peers := s.peers.modify src fun p => { p with lastMs := d.now } }, [])

/-- The relay drops it likewise: the peer was heard, and nothing is sent. -/
theorem dropped_of_not_hasAllowedSrc {id : Identity} {cidrs : List NetMap.Cidr}
    (hid : id.allowedSrcs = some cidrs) {inner : List UInt8}
    (hsrc : hasAllowedSrc cidrs inner = false) (hecho : Icmp.echoReplyV6 inner = none)
    {s : State} (hidle : s.Idle) {p : DerpPeer} (hp : s.peers.lookup src = some p)
    {pkt : List UInt8} (hdecrypt : p.tun.decrypt b.cr pkt = .ok inner) (d : Draw) :
    s.Dropped b id src pkt d := by
  obtain ⟨q, hq⟩ : ∃ q : DerpPeer, q = { p with lastMs := d.now } := ⟨_, rfl⟩
  have hinner : q.onInner b id src inner d.now d.iss = (q, []) := by
    rw [DerpPeer.onInner, hid]
    split_ifs with hpass
    · have hnot := DataPlane.not_ipv4_of_srcAllowed hpass.2 hsrc
      have hunserved : Unserved inner := ⟨fun hand => hnot ⟨by omega, hand.2⟩, hecho⟩
      have haction : q.tcp.action = none := hq ▸ hidle src p hp
      have htcp : ({ q.tcp with action := none } : TcpServer) = q.tcp := by rw [← haction]
      rw [DerpPeer.handleInner, hunserved.echoReplyAny, ite_self]
      dsimp only
      rw [hunserved.handleStream]
      split_ifs
      · dsimp only [TcpServer.takeAction, DerpPeer.sendAll, DataPlane.encryptAll, List.map_nil]
        rw [haction, htcp]
        rfl
      · rfl
    · rfl
  have hpeers : (s.peers.modify src fun _ => q) =
      s.peers.modify src fun p => { p with lastMs := d.now } := by
    apply Table.modify_congr
    intro v hv
    obtain rfl := Option.some_inj.mp (hp.symm.trans hv)
    exact hq
  rw [Dropped, handleTransport, hp]
  dsimp only
  rw [hdecrypt, ← hq]
  dsimp only
  rw [hinner, hpeers]

end State

end

end Derp

namespace Derp.State

open DataPlane (Build Identity srcAllowed)

/-- A peer whose initiation is accepted has a tunnel. -/
theorem handleFrame_initiation {b : Build} {id : Identity} {s : State} {src peer : Bytes 32}
    {init resp : List UInt8} {d : Draw} {tun : Wg.Tunnel} (hdisco : Disco.isDisco init = false)
    (h : Wg.consumeInitiation b.cr id.nodePriv id.nodePub init d.index d.ephPriv =
      .ok (resp, tun, peer)) :
    (s.handleFrame b id none Node.frameRecvPacket (src.1 ++ init) d).1 =
      s.insertPeer src ⟨tun, d.now, TcpServer.new b.route⟩ := by
  have hhead : init.head? = some Wg.msgInitiation := Wg.head_of_consumeInitiation h
  have hne : init ≠ [] := by
    rintro rfl
    cases hhead
  rw [handleFrame, Node.NodeSession.relayed_append]
  dsimp only
  rw [if_neg hne, hdisco, if_neg Bool.false_ne_true, if_pos hhead, upgrade, handleInit, h]

/-- A ping that passes the filter is answered. -/
theorem ping_answered {b : Build} {id : Identity} {s : State} {src : Bytes 32} {p : DerpPeer}
    (hp : s.peers.lookup src = some p) (hicmp : b.features.icmp = true)
    {pkt inner reply : List UInt8} (hdecrypt : p.tun.decrypt b.cr pkt = .ok inner) (hne : inner ≠ [])
    (hallowed : srcAllowed id.allowedSrcs inner = true)
    (hreply : Icmp.echoReplyAny inner = some reply) (d : Draw) :
    (s.handleTransport b id src pkt d).2 ≠ [] := by
  rw [handleTransport, hp]
  dsimp only
  rw [hdecrypt]
  dsimp only
  rw [DerpPeer.onInner, if_pos ⟨hne, hallowed⟩, DerpPeer.handleInner, hicmp, if_pos rfl, hreply]
  exact List.cons_ne_nil _ _

end Derp.State

namespace DataPlane

/-! ## The filter along a run -/

/-- **Nothing happens to a packet without an allowed source** that is not a ping over IPv6,
in any state of either data plane; the lwIP bridge takes what is not IPv4. -/
theorem filter_enforced (b : Build) {id : Identity} {cidrs : List NetMap.Cidr}
    (hid : id.allowedSrcs = some cidrs) {inner : List UInt8}
    (hsrc : hasAllowedSrc cidrs inner = false) (hecho : Icmp.echoReplyV6 inner = none) :
    (∀ targets outbound mdnsReinject mdnsPartner es x,
      run (Shared.step b id) (Shared.start targets outbound mdnsReinject mdnsPartner) es = some x →
      (b.features.lwipBridge = false ∨ 16 ≤ inner.length ∧ Icmp.version inner = 4) →
      ∀ ourIndex src d, x.st.Dropped b id ourIndex inner src d) ∧
    ∀ upgrade es s, run (Derp.step b id upgrade) Derp.start es = some s →
      ∀ src p pkt d, s.peers.lookup src = some p → p.tun.decrypt b.cr pkt = .ok inner →
        s.Dropped b id src pkt d := by
  constructor
  · intro targets outbound mdnsReinject mdnsPartner es x hrun hbridge ourIndex src d
    exact State.dropped_of_not_hasAllowedSrc b hid hsrc hecho hbridge (Shared.idle_run b id hrun)
      ourIndex src d
  · intro upgrade es s hrun src p pkt d hp hdecrypt
    exact Derp.State.dropped_of_not_hasAllowedSrc b src hid hsrc hecho (Derp.idle_run b id hrun) hp
      hdecrypt d

/-! ### A peer without an allowed source -/

open Node.NodeSession (alice alice_accepted peerEnd peerEnd_sendKey peerEnd_theirIndex)

/-- The data plane after the handshake of the peer. -/
def withPeer (lwipBridge : Bool) : Shared :=
  { emptyShared with
    st := emptyShared.st.insertTunnel (plainBuild lwipBridge) 7 (tunnelAt 7) (portOf 1) alice.key }

/-- The state of the example is reached by a run. -/
theorem run_withPeer (lwipBridge : Bool) (allowed : Option (List NetMap.Cidr)) :
    run (Shared.step (plainBuild lwipBridge) (device allowed)) emptyShared
      [initiationFrom 7 (portOf 1)] = some (withPeer lwipBridge) := by
  rw [run_cons, Shared.step, onEvent_initiation, Option.bind_some, run_nil, withPeer]

/-- The list of a device that talks to 10.0.0.0/8 only. -/
def tenNet : List NetMap.Cidr := [(0x0a000000, 0xff000000)]

/-- A packet from 100.64.0.5. -/
theorem filter_enforced_fromPeer : ∃ x,
    run (Shared.step (plainBuild false) (device (some tenNet))) emptyShared
      [initiationFrom 7 (portOf 1)] = some x ∧
    x.st.Dropped (plainBuild false) (device (some tenNet)) 7 fromPeer (portOf 1) (draw 0) := by
  refine ⟨withPeer false, run_withPeer false (some tenNet), ?_⟩
  have hid : (device (some tenNet)).allowedSrcs = some tenNet := rfl
  exact (filter_enforced (plainBuild false) hid (by decide) (by decide)).1 [] none false (zeros 32)
    _ _ (run_withPeer false (some tenNet)) (.inl rfl) 7 (portOf 1) (draw 0)

namespace State

/-- A ping that passes the filter is answered. -/
theorem ping_answered {b : Build} {id : Identity} {s : State} {ourIndex : UInt32} {e : TunnelEntry}
    (he : s.tunnels.lookup ourIndex = some e) (hbridge : b.features.lwipBridge = false)
    (hmdns : b.features.mdnsForward = false) (hicmp : b.features.icmp = true)
    (hout : s.outbound = none) {inner reply : List UInt8} (hne : inner ≠ [])
    (hallowed : srcAllowed id.allowedSrcs inner = true)
    (hreply : Icmp.echoReplyAny inner = some reply) (src : SocketAddr) (d : Draw) :
    (s.handleDecrypted b id ourIndex inner src d).2 ≠ [] := by
  obtain ⟨t, ht⟩ : ∃ t : State, t = { s with
    tunnels := s.tunnels.modify ourIndex fun e => { e with addr := src } } := ⟨_, rfl⟩
  have hlookup : t.tunnels.lookup ourIndex = some { e with addr := src } := by
    rw [ht]
    exact (Table.lookup_modify_self ..).trans (by rw [he]; rfl)
  have htout : t.outbound = none := by rw [ht, ← hout]
  have hmdnsIn : t.mdnsIn b ourIndex inner = none := by
    rw [mdnsIn, hmdns, if_neg fun hand => Bool.false_ne_true hand.1]
  have houtIn : t.outboundIn b ourIndex inner src = (t, none) := by
    rw [outboundIn, htout]
  rw [handleDecrypted, he]
  dsimp only
  rw [← ht, if_neg hne, hallowed, if_neg (by decide), dispatch, hbridge,
    if_neg Bool.false_ne_true, hmdnsIn]
  dsimp only
  rw [houtIn]
  dsimp only
  rw [serve, hicmp, if_pos rfl, hreply]
  dsimp only
  rw [sendAll, hlookup]
  exact List.cons_ne_nil _ _

/-- What passes the filter goes to lwIP. -/
theorem bridge_takes {b : Build} {id : Identity} {s : State} {ourIndex : UInt32} {e : TunnelEntry}
    (he : s.tunnels.lookup ourIndex = some e) (hbridge : b.features.lwipBridge = true)
    {inner : List UInt8} (hne : inner ≠ []) (hallowed : srcAllowed id.allowedSrcs inner = true)
    (src : SocketAddr) (d : Draw) : (s.handleDecrypted b id ourIndex inner src d).2 ≠ [] := by
  rw [handleDecrypted, he]
  dsimp only
  rw [if_neg hne, hallowed, if_neg (by decide), dispatch, hbridge, if_pos rfl]
  exact List.cons_ne_nil _ _

end State

/-- A ping over IPv6. -/
def ping6 : List UInt8 :=
  [0x60, 0, 0, 0, 0, 8, 58, 64] ++ List.replicate 15 0 ++ [1] ++ List.replicate 15 0 ++ [2] ++
    [128, 0, 0, 0, 0, 1, 0, 1]

def relayDraw : Derp.Draw := ⟨7, Wg.keyOf 4, zeros 24, zeros 24, 0, 0⟩

/-- The frame with the initiation of the peer. -/
def relayedInitiation : Derp.Event :=
  .frame Node.frameRecvPacket (alice.key.1 ++ alice.initiation) relayDraw

/-- **Without any allowed source a ping over IPv6 is answered**, on both data planes, and the
lwIP bridge takes it. -/
theorem ping6_answered :
    hasAllowedSrc [] ping6 = false ∧
    (∃ x, run (Shared.step (plainBuild false) (device (some []))) emptyShared
        [initiationFrom 7 (portOf 1)] = some x ∧
      (x.st.handleDecrypted (plainBuild false) (device (some [])) 7 ping6 (portOf 1)
        (draw 0)).2 ≠ []) ∧
    (∃ x, run (Shared.step (plainBuild true) (device (some []))) emptyShared
        [initiationFrom 7 (portOf 1)] = some x ∧
      (x.st.handleDecrypted (plainBuild true) (device (some [])) 7 ping6 (portOf 1)
        (draw 0)).2 ≠ []) ∧
    ∃ s p pkt, run (Derp.step (plainBuild false) (device (some [])) none) Derp.start
        [relayedInitiation] = some s ∧
      s.peers.lookup alice.key = some p ∧ p.tun.decrypt Crypto.standard pkt = .ok ping6 ∧
      (s.handleTransport (plainBuild false) (device (some [])) alice.key pkt relayDraw).2 ≠ [] := by
  have hallowed : srcAllowed (some []) ping6 = true := by decide
  have hne : ping6 ≠ [] := List.cons_ne_nil _ _
  obtain ⟨reply, hreply⟩ : ∃ reply, Icmp.echoReplyAny ping6 = some reply :=
    Option.isSome_iff_exists.mp (by decide)
  have hentry (lwipBridge : Bool) := State.exists_lookup_insertTunnel (plainBuild lwipBridge)
    emptyShared.st 7 (tunnelAt 7) (portOf 1) alice.key
  refine ⟨by decide, ?_, ?_, ?_⟩
  · -- the device answers the echo itself
    obtain ⟨e, he, -⟩ := hentry false
    exact ⟨_, run_withPeer false (some []),
      State.ping_answered he rfl rfl rfl rfl hne hallowed hreply _ _⟩
  · -- with a bridge, it is handed to the IP stack
    obtain ⟨e, he, -⟩ := hentry true
    exact ⟨_, run_withPeer true (some []), State.bridge_takes he rfl hne hallowed _ _⟩
  · -- so it is by the relay's server
    obtain ⟨resp, haccepted⟩ := alice_accepted 7
    have hconsume : Wg.consumeInitiation (plainBuild false).cr (device (some [])).nodePriv
        (device (some [])).nodePub alice.initiation relayDraw.index relayDraw.ephPriv =
          .ok (resp, tunnelAt 7, alice.key) := haccepted
    have hdisco : Disco.isDisco alice.initiation = false := by decide +kernel
    obtain ⟨p, hp⟩ : ∃ p : Derp.DerpPeer, p = ⟨tunnelAt 7, 0, TcpServer.new none⟩ := ⟨_, rfl⟩
    obtain ⟨s, hs⟩ : ∃ s, s = Derp.start.insertPeer alice.key p := ⟨_, rfl⟩
    have hrun : run (Derp.step (plainBuild false) (device (some [])) none) Derp.start
        [relayedInitiation] = some s := by
      rw [hs, hp, relayedInitiation, run_cons, Derp.step, Derp.onEvent,
        Derp.State.handleFrame_initiation hdisco hconsume]
      rfl
    have hlookup : s.peers.lookup alice.key = some p := by
      rw [hs]
      exact AList.lookup_insert _
    obtain ⟨t, ht⟩ : ∃ t, t = peerEnd (tunnelAt 7) 7 := ⟨_, rfl⟩
    have hkey : t.sendKey = p.tun.recvKey := by rw [ht, hp, peerEnd_sendKey]
    have hdecrypt := Wg.decrypt_encrypt Crypto.standard Crypto.standard_opens hkey ping6
    exact ⟨s, p, _, hrun, hlookup, hdecrypt,
      Derp.State.ping_answered (b := plainBuild false) hlookup rfl hdecrypt hne hallowed hreply _⟩

end DataPlane
