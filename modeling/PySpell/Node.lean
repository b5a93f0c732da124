/-
# The browser node

The data plane of `tailscale-wasm`: frames of the relay and a timer drive one TCP server
behind a table of WireGuard tunnels.  Random indices, keys and sequence numbers are
arguments of the frame that needs them, and so is the time.

Errors of the web socket are ignored by the source; what is sent here is what the node
hands to the socket.
-/
import PySpell.WgTransport
import PySpell.TcpSession

open Tcp Bytes Runs

/-! ## When the server speaks -/

/-- The window admits more of the response. -/
def Conn.owes (c : Conn) (window : ℕ) : Bool :=
  c.resp.any fun r => c.sentBytes < min (c.ackedBytes + window) r.totalLen

namespace TcpServer

/-- The server after a packet that it takes, up to the pump. -/
def afterPacket (s : TcpServer) (p : Packet) : TcpServer :=
  if p.payload ≠ [] then
    if s.routes p then ((s.afterAck p).afterData p).buildResponse p.payload
    else (s.afterAck p).afterData p
  else s.afterAck p

/-- A packet of the open connection that has an answer: a FIN, or the window that it
leaves admits more of the response. -/
def answers (s : TcpServer) (inner : List UInt8) : Bool :=
  (s.taking inner).any fun p =>
    p.payload = [] && p.flags &&& FIN ≠ 0 ||
      (s.afterPacket p).conn.owes (s.afterPacket p).conn.sendWindow

/-- A tick that sends: the connection is too old, or the timer fires and either gives up
or finds that the window admits more of the response. -/
def speaks (s : TcpServer) (now : ℕ) : Bool :=
  s.conn.active && (maxConnMs < now - s.conn.openedMs ||
    s.rtoFires now && (s.rtoExhausted ||
      s.rewound.conn.owes (max s.rewound.conn.sendWindow 1)))

/-- A connection that owes nothing sends nothing; so only owed bytes can go to a peer. -/
theorem pump_of_not_owes {c : Conn} {now window : ℕ} (h : c.owes window = false) :
    (c.pump now window).2 = [] := by
  unfold Conn.pump
  cases hr : c.resp with
  | none => rfl
  | some r =>
    rw [Conn.owes, hr, Option.any_some, decide_eq_false_iff_not, not_lt] at h
    dsimp only
    cases Conn.pumpFuel with
    | zero => rfl
    | succ fuel => rw [Conn.pumpLoop, if_pos h]

/-- **A packet that is sent answers one**, unless the connection was just opened. -/
theorem answers_of_sent {s : TcpServer} {inner : List UInt8} {now : ℕ} {iss : UInt32}
    (hopen : opening inner = none) (hsent : (s.handleStream inner now iss).2 ≠ []) :
    s.answers inner = true := by
  by_contra hnot
  rw [Bool.not_eq_true] at hnot
  apply hsent
  have hstep := s.receives inner now iss
  generalize hout : s.receive inner now iss = out at hstep
  -- nothing is owed by the connection that the pump is called on
  have hquiet : ∀ p, s.Takes inner p →
      (p.payload = [] → p.flags &&& FIN = 0) ∧
      (s.afterPacket p).conn.owes (s.afterPacket p).conn.sendWindow = false := by
    intro p hp
    rw [answers, taking_eq_some.mpr hp, Option.any_some, Bool.or_eq_false_iff,
      Bool.and_eq_false_iff] at hnot
    refine ⟨fun hdata => ?_, hnot.2⟩
    rcases hnot.1 with h | h
    · exact absurd hdata (of_decide_eq_false h)
    · exact not_not.mp (of_decide_eq_false h)
  cases hstep with
  | ignored _ _ => rw [handleStream_of_stops hout]
  | opened p hp =>
    rw [hopen] at hp
    cases hp
  | reset _ _ => rw [handleStream_of_stops hout]
  | routed p hp hdata hresp =>
    have hroutes : s.routes p = true := by
      rw [Session.routes_of_resp hdata, hresp]
      rfl
    have hafter : s.afterPacket p = ((s.afterAck p).afterData p).buildResponse p.payload := by
      rw [afterPacket, if_pos hdata, if_pos hroutes]
    rw [handleStream_of_pumps hout, ← hafter]
    exact pump_of_not_owes (hquiet p hp).2
  | data p r hp hdata hresp =>
    have hroutes : ¬ s.routes p = true := by
      rw [Session.routes_of_resp hdata, hresp]
      exact Bool.false_ne_true
    have hafter : s.afterPacket p = (s.afterAck p).afterData p := by
      rw [afterPacket, if_pos hdata, if_neg hroutes]
    rw [handleStream_of_pumps hout, ← hafter]
    exact pump_of_not_owes (hquiet p hp).2
  | closed p hp hdata hfin => exact absurd ((hquiet p hp).1 hdata) hfin
  | ack p hp hdata hfin =>
    have hafter : s.afterPacket p = s.afterAck p := by
      rw [afterPacket, if_neg (not_not.mpr hdata)]
    rw [handleStream_of_pumps hout, ← hafter]
    exact pump_of_not_owes (hquiet p hp).2

/-- **A tick that sends is due.** -/
theorem speaks_of_sent {s : TcpServer} {now : ℕ} (hsent : (s.tick now).2 ≠ []) :
    s.speaks now = true := by
  by_contra hnot
  rw [Bool.not_eq_true] at hnot
  apply hsent
  unfold speaks at hnot
  unfold tick
  split
  · rfl
  next hactive =>
  rw [Bool.not_eq_true', Bool.not_eq_false] at hactive
  rw [hactive, Bool.true_and, Bool.or_eq_false_iff] at hnot
  obtain ⟨hage, hrest⟩ := hnot
  rw [if_neg (of_decide_eq_false hage)]
  split
  · rfl
  next hfires =>
  rw [Bool.not_eq_true', Bool.not_eq_false] at hfires
  rw [hfires, Bool.true_and, Bool.or_eq_false_iff] at hrest
  rw [if_neg (by rw [hrest.1]; exact Bool.false_ne_true)]
  exact pump_of_not_owes hrest.2

end TcpServer

open TcpServer

namespace Node

/-! ## The node -/

def frameSendPacket : UInt8 := 0x04
def frameRecvPacket : UInt8 := 0x05

/-- The tunnels that are kept. -/
def maxTunnels : ℕ := 6

/-- An entry of the table of tunnels. -/
structure Entry where
  ourIndex : UInt32
  tunnel : Wg.Tunnel
  peer : Bytes 32

/-- `NodeState`. -/
structure NodeState where
  tcp : TcpServer
  tuns : List Entry
  active : Option ℕ

/-- A packet for a peer, with the TCP segment that it carries encrypted, which only the
theorems look at. -/
structure Delivery where
  dst : Bytes 32
  pkt : List UInt8
  segment : Option (List UInt8)

/-- `derp_send_packet`: the frame for the relay. -/
def derpSendPacket (dst : Bytes 32) (pkt : List UInt8) : List UInt8 :=
  [frameSendPacket] ++ be32 (UInt32.ofNat (dst.1 ++ pkt).length) ++ dst ++ pkt

def Delivery.frame (d : Delivery) : List UInt8 := derpSendPacket d.dst d.pkt

/-- The peer and the packet of a frame that the relay passes on. -/
def relayed (typ : UInt8) (payload : List UInt8) : Option (Bytes 32 × List UInt8) :=
  if h : typ ≠ frameRecvPacket ∨ payload.length < 32 then none
  else some (⟨slice payload 0 32, length_slice (by omega)⟩, payload.drop 32)

variable (cr : Crypto)

/-- The segments are encrypted one after the other, for the peer of the entry. -/
def Entry.sendAll (e : Entry) : List Sent → Entry × List Delivery
  | [] => (e, [])
  | x :: xs =>
    let (tunnel, pkt) := e.tunnel.encrypt cr x.packet
    let (e', ds) := Entry.sendAll { e with tunnel := tunnel } xs
    (e', ⟨e.peer, pkt, some x.packet⟩ :: ds)

namespace NodeState

/-- The TCP server goes on, and what it sends goes through the tunnel at a position. -/
def reply (s : NodeState) (pos : ℕ) (e : Entry) (out : TcpServer × List Sent) :
    NodeState × List Delivery :=
  let (e', ds) := e.sendAll cr out.2
  ({ s with tcp := out.1, tuns := s.tuns.set pos e' }, ds)

/-- The tick task. -/
def tick (s : NodeState) (now : ℕ) : NodeState × List Delivery :=
  match s.active with
  | none => (s, [])
  | some pos =>
    match s.tuns[pos]? with
    | none => (s, [])
    | some e => s.reply cr pos e (s.tcp.tick now)

/-- A new tunnel, and the oldest one goes when there are too many. -/
def pushTunnel (s : NodeState) (e : Entry) : NodeState :=
  let tuns := s.tuns ++ [e]
  { s with tuns := if maxTunnels < tuns.length then tuns.tail else tuns }

/-- The first tunnel with the index of a transport packet, if it decrypts the packet to
something. -/
def decrypt (s : NodeState) (inner : List UInt8) : Option (ℕ × Entry × List UInt8) :=
  if inner.length < 8 then none
  else
    let ri := Wg.u32At inner 4
    match s.tuns.findIdx? fun e => e.ourIndex = ri with
    | none => none
    | some pos =>
      match s.tuns[pos]? with
      | none => none
      | some e =>
        match e.tunnel.decrypt cr inner with
        | .error _ => none
        | .ok plain => if plain = [] then none else some (pos, e, plain)

/-- A packet of a peer: an initiation, or a transport packet. -/
def onPacket (s : NodeState) (nodePriv src : Bytes 32) (inner : List UInt8) (ourIndex : UInt32)
    (ephPriv : Bytes 32) (now : ℕ) (iss : UInt32) : NodeState × List Delivery :=
  match inner.head? with
  | some 1 =>
    match Wg.consumeInitiation cr nodePriv (cr.pubkey nodePriv) inner ourIndex ephPriv with
    | .ok (resp, tun, _) => (s.pushTunnel ⟨ourIndex, tun, src⟩, [⟨src, resp, none⟩])
    | .error _ => (s, [])
  | some 4 =>
    match s.decrypt cr inner with
    | some (pos, e, plain) =>
      { s with active := some pos }.reply cr pos e (s.tcp.handleStream plain now iss)
    | none => (s, [])
  | _ => (s, [])

end NodeState

/-- An event of the node. -/
inductive Event where
  /-- A frame at a time, with our index, the ephemeral key and the initial sequence
  number that it may need. -/
  | frame (typ : UInt8) (payload : List UInt8) (ourIndex : UInt32) (ephPriv : Bytes 32)
    (now : ℕ) (iss : UInt32)
  | tick (now : ℕ)

/-- One event. -/
def NodeState.onEvent (s : NodeState) (nodePriv : Bytes 32) : Event → NodeState × List Delivery
  | .frame typ payload ourIndex ephPriv now iss =>
    match relayed typ payload with
    | none => (s, [])
    | some (src, inner) => s.onPacket cr nodePriv src inner ourIndex ephPriv now iss
  | .tick now => s.tick cr now

/-- The tunnel and the packet of a frame that comes through a tunnel. -/
def NodeState.incoming (s : NodeState) : Event → Option (ℕ × Entry × List UInt8)
  | .frame typ payload _ _ _ _ =>
    (relayed typ payload).bind fun sent =>
      if sent.2.head? = some 4 then s.decrypt cr sent.2 else none
  | .tick _ => none

/-- The node when the relay is connected. -/
def NodeState.new (route : Http.RouteFn) : NodeState := ⟨TcpServer.new (some route), [], none⟩

/-! ## What happened -/

/-- A node, and what happened to it. -/
structure NodeSession where
  node : NodeState
  /-- The tunnels of the accepted handshakes, in their order. -/
  established : List Entry
  /-- How many of them were evicted. -/
  evicted : ℕ
  /-- The number of the tunnel that the last packet came through. -/
  lastTunnel : ℕ
  /-- How many tunnels had been evicted then. -/
  lastEvicted : ℕ
  /-- The peer through whose tunnel the connection was opened. -/
  opener : Option (Bytes 32)
  /-- What was sent, and the opener of the connection at that time. -/
  log : List (Delivery × Option (Bytes 32))

namespace NodeSession

variable (nodePriv : Bytes 32)

/-- A node that nothing has happened to. -/
def start (route : Http.RouteFn) : NodeSession := ⟨.new route, [], 0, 0, 0, none, []⟩

/-- A handshake is accepted. -/
def establish (x : NodeSession) (e : Entry) : NodeSession :=
  { x with
    established := x.established ++ [e]
    evicted := if maxTunnels < (x.node.tuns ++ [e]).length then x.evicted + 1 else x.evicted }

/-- A packet came through a tunnel. -/
def pass (x : NodeSession) (pos : ℕ) (e : Entry) (plain : List UInt8) : NodeSession :=
  { x with
    lastTunnel := x.evicted + pos
    lastEvicted := x.evicted
    opener := if (opening plain).isSome then some e.peer else x.opener }

/-- What an event adds to the history. -/
def note (x : NodeSession) : Event → NodeSession
  | .frame typ payload ourIndex ephPriv _ _ =>
    match relayed typ payload with
    | none => x
    | some (src, inner) =>
      match inner.head? with
      | some 1 =>
        match Wg.consumeInitiation cr nodePriv (cr.pubkey nodePriv) inner ourIndex ephPriv with
        | .ok (_, tun, _) => x.establish ⟨ourIndex, tun, src⟩
        | .error _ => x
      | some 4 =>
        match x.node.decrypt cr inner with
        | some (pos, e, plain) => x.pass pos e plain
        | none => x
      | _ => x
  | .tick _ => x

/-- The node goes on, and sends. -/
def emit (x : NodeSession) (out : NodeState × List Delivery) : NodeSession :=
  { x with node := out.1, log := x.log ++ out.2.map fun d => (d, x.opener) }

/-- One event. -/
def onEvent (x : NodeSession) (e : Event) : NodeSession :=
  (x.note cr nodePriv e).emit (x.node.onEvent cr nodePriv e)

def step (x : NodeSession) (e : Event) : Option NodeSession := some (x.onEvent cr nodePriv e)

/-- What an event can do. -/
inductive Steps (x : NodeSession) : Event → NodeSession → Prop
  | ignored (e : Event) : Steps x e x
  | handshake (e : Event) (entry : Entry) (resp : List UInt8) :
      Steps x e ((x.establish entry).emit
        (x.node.pushTunnel entry, [⟨entry.peer, resp, none⟩]))
  | packet (typ : UInt8) (payload : List UInt8) (ourIndex : UInt32) (ephPriv : Bytes 32)
      (now : ℕ) (iss : UInt32) (src : Bytes 32) (inner : List UInt8) (pos : ℕ) (entry : Entry)
      (plain : List UInt8) (hframe : relayed typ payload = some (src, inner))
      (htype : inner.head? = some 4)
      (hplain : x.node.decrypt cr inner = some (pos, entry, plain)) :
      Steps x (.frame typ payload ourIndex ephPriv now iss) ((x.pass pos entry plain).emit
        ({ x.node with active := some pos }.reply cr pos entry
          (x.node.tcp.handleStream plain now iss)))
  | tick (now : ℕ) (pos : ℕ) (entry : Entry) (hactive : x.node.active = some pos)
      (hpos : x.node.tuns[pos]? = some entry) :
      Steps x (.tick now) (x.emit (x.node.reply cr pos entry (x.node.tcp.tick now)))

/-- A step without packets leaves the log of the session as it is. -/
theorem emit_nil (x : NodeSession) : x.emit (x.node, []) = x := by
  rw [emit, List.map_nil, List.append_nil]

/-- **What an event does.** -/
theorem steps (x : NodeSession) (e : Event) : Steps cr x e (x.onEvent cr nodePriv e) := by
  have hignored : x.note cr nodePriv e = x → x.node.onEvent cr nodePriv e = (x.node, []) →
      Steps cr x e (x.onEvent cr nodePriv e) := by
    intro hnote hnode
    rw [onEvent, hnote, hnode, emit_nil]
    exact .ignored e
  cases e with
  | frame typ payload ourIndex ephPriv now iss =>
    cases hframe : relayed typ payload with
    | none =>
      apply hignored
      · rw [note, hframe]
      · rw [NodeState.onEvent, hframe]
    | some sent =>
      obtain ⟨src, inner⟩ := sent
      -- the first byte of a relayed packet says what it is
      by_cases hone : inner.head? = some 1
      · -- an initiation
        cases hinit : Wg.consumeInitiation cr nodePriv (cr.pubkey nodePriv) inner ourIndex
            ephPriv with
        | error msg =>
          apply hignored
          · simp only [note, hframe, hone, hinit]
          · simp only [NodeState.onEvent, NodeState.onPacket, hframe, hone, hinit]
        | ok out =>
          obtain ⟨resp, tun, peer⟩ := out
          simp only [onEvent, note, NodeState.onEvent, NodeState.onPacket, hframe, hone, hinit]
          exact .handshake _ ⟨ourIndex, tun, src⟩ resp
      by_cases hfour : inner.head? = some 4
      · -- a transport packet
        cases hplain : x.node.decrypt cr inner with
        | none =>
          apply hignored
          · simp only [note, hframe, hfour, hplain]
          · simp only [NodeState.onEvent, NodeState.onPacket, hframe, hfour, hplain]
        | some out =>
          obtain ⟨pos, entry, plain⟩ := out
          simp only [onEvent, note, NodeState.onEvent, NodeState.onPacket, hframe, hfour, hplain]
          exact .packet typ payload ourIndex ephPriv now iss src inner pos entry plain hframe
            hfour hplain
      · -- neither
        apply hignored
        · simp only [note, hframe]
        · simp only [NodeState.onEvent, NodeState.onPacket, hframe]
  -- only the active tunnel has a timer
  | tick now =>
    cases hactive : x.node.active with
    | none =>
      apply hignored
      · rfl
      · rw [NodeState.onEvent, NodeState.tick, hactive]
    | some pos =>
      cases hpos : x.node.tuns[pos]? with
      | none =>
        apply hignored
        · rfl
        · simp only [NodeState.onEvent, NodeState.tick, hactive, hpos]
      | some entry =>
        simp only [onEvent, note, NodeState.onEvent, NodeState.tick, hactive, hpos]
        exact .tick now pos entry hactive hpos

end NodeSession

/-! ## Isolation -/

/-- The entry before it sent anything. -/
def Entry.fresh (e : Entry) : Entry := { e with tunnel := { e.tunnel with txCounter := 0 } }

/-- A packet carries the segment, encrypted with the keys of the entry. -/
def Entry.Carries (e : Entry) (pkt seg : List UInt8) : Prop :=
  ∃ n : UInt64, pkt = (Wg.Tunnel.encrypt cr { e.tunnel with txCounter := n } seg).2

/-- Whose tunnel a packet is from is a matter of the fields that a packet does not change, so a
tunnel may go on sealing without losing what it sent. -/
theorem Entry.Carries.of_fresh {e e' : Entry} {pkt seg : List UInt8} (h : e.Carries cr pkt seg)
    (heq : e.fresh = e'.fresh) : e'.Carries cr pkt seg := by
  obtain ⟨n, hn⟩ := h
  refine ⟨n, ?_⟩
  have htunnel : { e.tunnel with txCounter := 0 } = { e'.tunnel with txCounter := 0 } :=
    congrArg Entry.tunnel heq
  have hkeys : { e.tunnel with txCounter := n } = { e'.tunnel with txCounter := n } :=
    congrArg (fun t : Wg.Tunnel => { t with txCounter := n }) htunnel
  rw [hn, hkeys]

/-- The same tunnel belongs to the same peer, however far its counter has come. -/
theorem Entry.peer_of_fresh {e e' : Entry} (heq : e.fresh = e'.fresh) : e.peer = e'.peer := by
  change e.fresh.peer = e'.fresh.peer
  rw [heq]

/-- The same tunnel has the same index, by which its packets are found. -/
theorem Entry.ourIndex_of_fresh {e e' : Entry} (heq : e.fresh = e'.fresh) :
    e.ourIndex = e'.ourIndex := by
  change e.fresh.ourIndex = e'.fresh.ourIndex
  rw [heq]

/-- **What goes through an entry** is addressed to its peer and encrypted with its keys. -/
theorem Entry.sendAll_spec (sent : List Sent) : ∀ e : Entry,
    (e.sendAll cr sent).1.fresh = e.fresh ∧
      ∀ d ∈ (e.sendAll cr sent).2, d.dst = e.peer ∧
        ∃ seg, d.segment = some seg ∧ e.Carries cr d.pkt seg := by
  induction sent with
  | nil => exact fun e => ⟨rfl, fun d hd => by cases hd⟩
  | cons x xs ih =>
    intro e
    obtain ⟨hfresh, hall⟩ := ih { e with tunnel := (e.tunnel.encrypt cr x.packet).1 }
    refine ⟨hfresh, fun d hd => ?_⟩
    rcases List.mem_cons.mp hd with rfl | hd
    · exact ⟨rfl, x.packet, rfl, e.tunnel.txCounter, rfl⟩
    · obtain ⟨hdst, seg, hseg, hcarries⟩ := hall d hd
      exact ⟨hdst, seg, hseg, hcarries.of_fresh cr rfl⟩

namespace NodeSession

/-- Every segment that was sent is encrypted with the keys of, and addressed to, the
peer through whose tunnel the connection was opened. -/
def Isolated (x : NodeSession) : Prop :=
  ∀ d opener, (d, opener) ∈ x.log → ∀ seg, d.segment = some seg →
    ∃ e ∈ x.established, opener = some e.peer ∧ d.dst = e.peer ∧ e.Carries cr d.pkt seg

/-- **The condition.**  A packet that the open connection answers comes through a tunnel of
the peer that opened it.  And when a tick sends, the opener is the peer of the right
tunnel: counted from the one that the last packet came through, by as many handshakes
as tunnels were evicted since. -/
def ThroughOpener (x : NodeSession) : Event → Prop
  | .frame typ payload ourIndex ephPriv now iss => ∀ pos e plain,
    x.node.incoming cr (.frame typ payload ourIndex ephPriv now iss) = some (pos, e, plain) →
    x.node.tcp.answers plain = true → x.opener = some e.peer
  | .tick now => x.node.tcp.speaks now = true →
    (x.established[x.lastTunnel + (x.evicted - x.lastEvicted)]?).map Entry.peer = x.opener

/-! ### The invariant -/

/-- What holds between events. -/
structure Inv (x : NodeSession) : Prop where
  /-- The table holds the tunnels that were not evicted. -/
  tuns : x.node.tuns.map Entry.fresh = (x.established.drop x.evicted).map Entry.fresh
  evicted : x.evicted ≤ x.established.length
  active : ∀ pos, x.node.active = some pos →
    x.lastTunnel = x.lastEvicted + pos ∧ x.lastEvicted ≤ x.evicted
  isolated : x.Isolated cr

variable {cr}

/-- The handshake of an entry of the table. -/
theorem Inv.record {x : NodeSession} (h : x.Inv cr) {pos : ℕ} {e : Entry}
    (hpos : x.node.tuns[pos]? = some e) :
    ∃ e', x.established[x.evicted + pos]? = some e' ∧ e.fresh = e'.fresh := by
  have hget : (x.node.tuns.map Entry.fresh)[pos]? =
      ((x.established.drop x.evicted).map Entry.fresh)[pos]? := by rw [h.tuns]
  rw [List.getElem?_map, List.getElem?_map, hpos, List.getElem?_drop, Option.map_some] at hget
  obtain ⟨e', he', hfresh⟩ := Option.map_eq_some_iff.mp hget.symm
  exact ⟨e', he', hfresh.symm⟩

/-- Sending changes only the counter of the entry. -/
theorem map_fresh_set {tuns : List Entry} {pos : ℕ} {e e' : Entry} (hpos : tuns[pos]? = some e)
    (hfresh : e'.fresh = e.fresh) : (tuns.set pos e').map Entry.fresh = tuns.map Entry.fresh := by
  rw [List.map_set, hfresh]
  apply List.ext_getElem?
  intro i
  rw [List.getElem?_set]
  split
  · next heq =>
    subst heq
    rw [List.length_map, List.getElem?_map, hpos, Option.map_some, if_pos]
    exact (List.getElem?_eq_some_iff.mp hpos).1
  · rfl

/-- **What the server sends through the opener's tunnel is isolated.** -/
theorem Isolated.emit {x : NodeSession} {s : NodeState} {pos : ℕ} {e e' : Entry}
    {out : TcpServer × List Sent} (h : x.Isolated cr) (he' : e' ∈ x.established)
    (hfresh : e.fresh = e'.fresh) (hopener : out.2 ≠ [] → x.opener = some e.peer) :
    (x.emit (s.reply cr pos e out)).Isolated cr := by
  rintro d opener hmem seg hseg
  rcases List.mem_append.mp hmem with hmem | hmem
  · exact h d opener hmem seg hseg
  · obtain ⟨d', hd', heq⟩ := List.mem_map.mp hmem
    obtain ⟨rfl, rfl⟩ := Prod.mk.inj heq
    have hd'' : d' ∈ (e.sendAll cr out.2).2 := hd'
    have hsent : out.2 ≠ [] := by
      rintro hnil
      rw [hnil] at hd''
      cases hd''
    obtain ⟨hdst, seg', hseg', hcarries⟩ := (Entry.sendAll_spec cr out.2 e).2 d' hd''
    obtain rfl := Option.some_inj.mp (hseg.symm.trans hseg')
    refine ⟨e', he', ?_, ?_, hcarries.of_fresh cr hfresh⟩
    · rw [hopener hsent, Entry.peer_of_fresh hfresh]
    · rw [hdst, Entry.peer_of_fresh hfresh]

/-- A packet is opened by the tunnel at the position that is returned with it. -/
theorem decrypt_spec {s : NodeState} {inner plain : List UInt8} {pos : ℕ} {e : Entry}
    (h : s.decrypt cr inner = some (pos, e, plain)) : s.tuns[pos]? = some e := by
  unfold NodeState.decrypt at h
  split at h
  · cases h
  dsimp only at h
  split at h
  · cases h
  split at h
  · cases h
  next e' he' =>
  split at h
  · cases h
  split at h
  · cases h
  · cases h
    exact he'

variable (cr) (nodePriv : Bytes 32)

/-! ### Every step -/

/-- **One event keeps the invariant**, under the condition. -/
theorem inv_step (x : NodeSession) (ev : Event) (x' : NodeSession) (h : x.Inv cr)
    (hok : x.ThroughOpener cr ev) (hstep : step cr nodePriv x ev = some x') : x'.Inv cr := by
  rw [← Option.some_inj.mp hstep]
  have hsteps := steps cr nodePriv x ev
  generalize hout : x.onEvent cr nodePriv ev = out at hsteps
  cases hsteps with
  | ignored => exact h
  | handshake _ entry resp =>
    have hlen : x.node.tuns.length = x.established.length - x.evicted := by
      have := congrArg List.length h.tuns
      rwa [List.length_map, List.length_map, List.length_drop] at this
    have hpush : (x.node.tuns ++ [entry]).map Entry.fresh =
        ((x.established ++ [entry]).drop x.evicted).map Entry.fresh := by
      rw [List.drop_append_of_le_length h.evicted, List.map_append, List.map_append, h.tuns]
    constructor
    · change (if maxTunnels < (x.node.tuns ++ [entry]).length then (x.node.tuns ++ [entry]).tail
        else x.node.tuns ++ [entry]).map Entry.fresh = ((x.established ++ [entry]).drop
          (if maxTunnels < (x.node.tuns ++ [entry]).length then x.evicted + 1
            else x.evicted)).map Entry.fresh
      split
      · rw [List.map_tail, hpush, ← List.map_tail, List.tail_drop]
      · exact hpush
    · change (if maxTunnels < (x.node.tuns ++ [entry]).length then x.evicted + 1
        else x.evicted) ≤ (x.established ++ [entry]).length
      have hle := h.evicted
      have happend : (x.established ++ [entry]).length = x.established.length + 1 :=
        List.length_append
      -- the one that goes was in the table
      split
      · next hfull =>
        unfold maxTunnels at hfull
        rw [List.length_append, List.length_singleton] at hfull
        omega
      · omega
    · intro pos hactive
      obtain ⟨hlast, hle⟩ := h.active pos hactive
      refine ⟨hlast, ?_⟩
      change x.lastEvicted ≤ if maxTunnels < (x.node.tuns ++ [entry]).length then x.evicted + 1
        else x.evicted
      split <;> omega
    · rintro d opener hmem seg hseg
      rcases List.mem_append.mp hmem with hmem | hmem
      · obtain ⟨e, he, hrest⟩ := h.isolated d opener hmem seg hseg
        exact ⟨e, List.mem_append_left _ he, hrest⟩
      · -- the answer to the handshake carries no segment
        obtain ⟨rfl, -⟩ := Prod.mk.inj (List.mem_singleton.mp hmem)
        cases hseg
  | packet typ payload ourIndex ephPriv now iss src inner pos entry plain hframe htype hplain =>
    have hpos := decrypt_spec hplain
    obtain ⟨e', he', hfresh⟩ := h.record hpos
    have hmem : e' ∈ x.established := List.mem_of_getElem? he'
    have hsend := (Entry.sendAll_spec cr (x.node.tcp.handleStream plain now iss).2 entry).1
    refine ⟨?_, h.evicted, ?_, ?_⟩
    · exact (map_fresh_set hpos hsend).trans h.tuns
    · rintro q hq
      obtain rfl := Option.some_inj.mp hq
      exact ⟨rfl, le_rfl⟩
    · refine Isolated.emit (x := x.pass pos entry plain) h.isolated hmem hfresh fun hsent => ?_
      change (if (opening plain).isSome then some entry.peer else x.opener) = some entry.peer
      split
      · rfl
      next hopen =>
      rw [Bool.not_eq_true, Option.isSome_eq_false_iff, Option.isNone_iff_eq_none] at hopen
      refine hok pos entry plain ?_ (answers_of_sent hopen hsent)
      rw [NodeState.incoming, hframe, Option.bind_some, if_pos htype, hplain]
  | tick now pos entry hactive hpos =>
    obtain ⟨e', he', hfresh⟩ := h.record hpos
    have hmem : e' ∈ x.established := List.mem_of_getElem? he'
    obtain ⟨hlast, hle⟩ := h.active pos hactive
    have hsend := (Entry.sendAll_spec cr (x.node.tcp.tick now).2 entry).1
    refine ⟨(map_fresh_set hpos hsend).trans h.tuns, h.evicted, h.active, ?_⟩
    refine h.isolated.emit hmem hfresh fun hsent => ?_
    have hright := hok (speaks_of_sent hsent)
    rw [show x.lastTunnel + (x.evicted - x.lastEvicted) = x.evicted + pos by omega, he',
      Option.map_some] at hright
    rw [← hright, Entry.peer_of_fresh hfresh]

/-- No tunnel and no packet: nothing is out of place. -/
theorem inv_start (route : Http.RouteFn) : (start route).Inv cr :=
  ⟨rfl, le_rfl, nofun, nofun⟩

/-! ## Two peers -/

variable {cr nodePriv}

/-- A relayed frame is the sender's key and the packet behind it. -/
theorem relayed_append (src : Bytes 32) (inner : List UInt8) :
    relayed frameRecvPacket (src.1 ++ inner) = some (src, inner) := by
  have hlen : ¬ (frameRecvPacket ≠ frameRecvPacket ∨ (src.1 ++ inner).length < 32) := by
    rintro (h | h)
    · exact h rfl
    · rw [List.length_append, src.2] at h
      omega
  rw [relayed, dif_neg hlen]
  congr 2
  · apply Subtype.ext
    exact List.take_left' src.2
  · exact List.drop_left' src.2

/-- A peer whose handshake is accepted gets a tunnel. -/
theorem onEvent_handshake {x : NodeSession} {src eph peer : Bytes 32} {init resp : List UInt8}
    {r : UInt32} {tun : Wg.Tunnel}
    (h : Wg.consumeInitiation cr nodePriv (cr.pubkey nodePriv) init r eph =
      .ok (resp, tun, peer)) (now : ℕ) (iss : UInt32) :
    x.onEvent cr nodePriv (.frame frameRecvPacket (src.1 ++ init) r eph now iss) =
      (x.establish ⟨r, tun, src⟩).emit (x.node.pushTunnel ⟨r, tun, src⟩, [⟨src, resp, none⟩]) := by
  simp only [onEvent, note, NodeState.onEvent, NodeState.onPacket, relayed_append,
    Wg.head_of_consumeInitiation h, h]

/-- The end of a tunnel at the peer, when our index is `r`. -/
def peerEnd (t : Wg.Tunnel) (r : UInt32) : Wg.Tunnel := ⟨t.recvKey, t.sendKey, r, t.theirIndex, 0⟩

/-- The peer seals with the key that this side opens with. -/
@[simp] theorem peerEnd_sendKey (t : Wg.Tunnel) (r : UInt32) :
    (peerEnd t r).sendKey = t.recvKey := rfl

/-- The peer writes the index by which this side finds the tunnel. -/
@[simp] theorem peerEnd_theirIndex (t : Wg.Tunnel) (r : UInt32) :
    (peerEnd t r).theirIndex = r := rfl

/-- **What the peer seals is opened** by the first tunnel of that index, up to the padding. -/
theorem decrypt_peerEnd (hopen : cr.Opens) {s : NodeState} {pos : ℕ} {e : Entry}
    (hpos : s.tuns[pos]? = some e)
    (hfind : (s.tuns.findIdx? fun e' => e'.ourIndex = e.ourIndex) = some pos)
    {inner : List UInt8} (hinner : inner ≠ []) :
    s.decrypt cr ((peerEnd e.tunnel e.ourIndex).encrypt cr inner).2 =
      some (pos, e, Wg.pad16 inner) := by
  obtain ⟨pkt, hpkt⟩ : ∃ pkt, pkt = ((peerEnd e.tunnel e.ourIndex).encrypt cr inner).2 := ⟨_, rfl⟩
  have hindex : Wg.u32At pkt 4 = e.ourIndex := by
    rw [hpkt, Wg.u32At_encrypt, peerEnd_theirIndex]
  have hlen : ¬ pkt.length < 8 := by
    have hcount := Wg.length_encrypt cr (peerEnd e.tunnel e.ourIndex) inner
    rw [← hpkt] at hcount
    omega
  have hplain : e.tunnel.decrypt cr pkt = .ok (Wg.pad16 inner) := by
    rw [hpkt]
    exact Wg.decrypt_encrypt cr hopen rfl inner
  have hne : Wg.pad16 inner ≠ [] := List.append_ne_nil_of_left_ne_nil hinner _
  rw [← hpkt, NodeState.decrypt, if_neg hlen]
  dsimp only
  rw [hindex, hfind]
  dsimp only
  rw [hpos]
  dsimp only
  rw [hplain]
  dsimp only
  rw [if_neg hne]

/-- A packet of a peer comes through its tunnel. -/
theorem onEvent_packet (hopen : cr.Opens) {x : NodeSession} {pos : ℕ} {e : Entry}
    (hpos : x.node.tuns[pos]? = some e)
    (hfind : (x.node.tuns.findIdx? fun e' => e'.ourIndex = e.ourIndex) = some pos)
    {inner : List UInt8} (hinner : inner ≠ []) (src eph : Bytes 32) (r : UInt32) (now : ℕ)
    (iss : UInt32) :
    x.onEvent cr nodePriv (.frame frameRecvPacket
        (src.1 ++ ((peerEnd e.tunnel e.ourIndex).encrypt cr inner).2) r eph now iss) =
      (x.pass pos e (Wg.pad16 inner)).emit
        ({ x.node with active := some pos }.reply cr pos e
          (x.node.tcp.handleStream (Wg.pad16 inner) now iss)) := by
  have hhead : ((peerEnd e.tunnel e.ourIndex).encrypt cr inner).2.head? = some 4 := rfl
  simp only [onEvent, note, NodeState.onEvent, NodeState.onPacket, relayed_append, hhead,
    decrypt_peerEnd hopen hpos hfind hinner]

/-- A SYN, as the peer sends it. -/
def syn : List UInt8 := (clientPacket 100 0 SYN "").bytes

/-- The server after the SYN. -/
def afterSyn : TcpServer :=
  ((TcpServer.new (some hiHandler)).handleStream (Wg.pad16 syn) 0 1000).1

/-- The packets of the examples, evaluated once: the SYN opens a connection and is no answer, and
a byte neither opens one nor ends the one that is open. -/
theorem syn_spec : (opening (Wg.pad16 syn)).isSome = true ∧
    (TcpServer.new (some hiHandler)).answers (Wg.pad16 syn) = false ∧
    (afterSyn.conn.active = true ∧ afterSyn.conn.openedMs = 0) ∧
    (opening (Wg.pad16 [0])).isSome = false ∧
    (afterSyn.handleStream (Wg.pad16 [0]) 0 1000).1.conn.active = true ∧
    (afterSyn.handleStream (Wg.pad16 [0]) 0 1000).1.conn.openedMs = 0 := by
  decide +kernel

/-- A tick that comes too late resets the connection. -/
theorem tick_late {s : TcpServer} (hactive : s.conn.active = true) (hopened : s.conn.openedMs = 0) :
    s.tick 30001 = (s.closed, [s.conn.send RST []]) := by
  unfold TcpServer.tick
  rw [hactive, hopened]
  rfl

/-- A frame of a peer: an initiation. -/
def initiationFrame (src eph : Bytes 32) (init : List UInt8) (r : UInt32) : Event :=
  .frame frameRecvPacket (src.1 ++ init) r eph 0 0

/-- A frame of the peer of an entry: a packet through its tunnel. -/
def packetFrame (cr : Crypto) (e : Entry) (inner : List UInt8) : Event :=
  .frame frameRecvPacket (e.peer.1 ++ ((peerEnd e.tunnel e.ourIndex).encrypt cr inner).2)
    0 (zeros 32) 0 1000

/-- **A late tick through the tunnel of another peer** breaks the isolation. -/
theorem not_isolated_of_tick {x : NodeSession} {pos : ℕ} {e : Entry} {opener : Bytes 32}
    (hactive : x.node.active = some pos) (hpos : x.node.tuns[pos]? = some e)
    (hopener : x.opener = some opener) (hne : opener ≠ e.peer)
    (hconn : x.node.tcp.conn.active = true) (hopened : x.node.tcp.conn.openedMs = 0) :
    ¬ (x.onEvent cr nodePriv (.tick 30001)).Isolated cr := by
  obtain ⟨rst, hrst⟩ : ∃ rst, rst = x.node.tcp.conn.send RST [] := ⟨_, rfl⟩
  have htick : x.onEvent cr nodePriv (.tick 30001) =
      x.emit (x.node.reply cr pos e (x.node.tcp.closed, [rst])) := by
    rw [onEvent, note, NodeState.onEvent, NodeState.tick, hactive]
    dsimp only
    rw [hpos]
    dsimp only
    rw [tick_late hconn hopened, hrst]
  intro hiso
  rw [htick] at hiso
  obtain ⟨e', -, hfrom, hto, -⟩ := hiso ⟨e.peer, (e.tunnel.encrypt cr rst.packet).2,
    some rst.packet⟩ x.opener (List.mem_append_right _ (List.mem_singleton.mpr rfl)) rst.packet rfl
  rw [hopener, Option.some_inj] at hfrom
  exact hne (hfrom.trans hto.symm)

/-! ## Two tunnels -/

/-- Two peers have a tunnel each, and no connection is open. -/
structure Paired (a b : Entry) (x : NodeSession) : Prop where
  tuns : x.node.tuns = [a, b]
  established : x.established = [a, b]
  evicted : x.evicted = 0
  tcp : x.node.tcp = TcpServer.new (some hiHandler)

/-- Two handshakes on an empty node leave two tunnels, in the order in which they came. -/
theorem paired_of_handshakes {ta tb : Wg.Tunnel} {srcA srcB eph : Bytes 32}
    {initA respA initB respB} {peerA peerB : Bytes 32}
    (hA : Wg.consumeInitiation cr nodePriv (cr.pubkey nodePriv) initA 7 eph =
      .ok (respA, ta, peerA))
    (hB : Wg.consumeInitiation cr nodePriv (cr.pubkey nodePriv) initB 8 eph =
      .ok (respB, tb, peerB)) :
    Paired ⟨7, ta, srcA⟩ ⟨8, tb, srcB⟩
      (((start hiHandler).onEvent cr nodePriv (initiationFrame srcA eph initA 7)).onEvent cr
        nodePriv (initiationFrame srcB eph initB 8)) := by
  rw [initiationFrame, initiationFrame, onEvent_handshake hA, onEvent_handshake hB]
  exact ⟨rfl, rfl, rfl, rfl⟩

/-- A peer has opened a connection through its tunnel, and nothing else has changed. -/
structure OpenedBy (pos : ℕ) (e : Entry) (x x' : NodeSession) : Prop where
  tuns : ∃ e', e'.fresh = e.fresh ∧ x'.node.tuns = x.node.tuns.set pos e'
  active : x'.node.active = some pos
  tcp : x'.node.tcp = afterSyn
  opener : x'.opener = some e.peer
  established : x'.established = x.established
  evicted : x'.evicted = x.evicted
  lastTunnel : x'.lastTunnel = x.evicted + pos
  lastEvicted : x'.lastEvicted = x.evicted

section

variable {x : NodeSession} {pos : ℕ} {e : Entry} (hopen : cr.Opens)
  (hpos : x.node.tuns[pos]? = some e)
  (hfind : (x.node.tuns.findIdx? fun e' => e'.ourIndex = e.ourIndex) = some pos)

include hopen hpos hfind

/-- A SYN through a tunnel, when no connection is open. -/
theorem openedBy_syn (htcp : x.node.tcp = TcpServer.new (some hiHandler)) :
    OpenedBy pos e x (x.onEvent cr nodePriv (packetFrame cr e syn)) := by
  obtain ⟨hopens, -⟩ := syn_spec
  rw [packetFrame, onEvent_packet hopen hpos hfind (by decide)]
  have hsend := Entry.sendAll_spec cr (x.node.tcp.handleStream (Wg.pad16 syn) 0 1000).2 e
  refine ⟨⟨_, hsend.1, rfl⟩, rfl, ?_, ?_, rfl, rfl, rfl, rfl⟩
  · change (x.node.tcp.handleStream _ _ _).1 = _
    rw [htcp]
    rfl
  · change (if (opening (Wg.pad16 syn)).isSome then some e.peer else x.opener) = _
    rw [if_pos hopens]

/-- A byte through a tunnel, while the connection of the SYN is open: the tunnel becomes the
active one, and the connection stays as it is. -/
theorem active_of_byte (htcp : x.node.tcp = afterSyn) :
    ∃ x', x.onEvent cr nodePriv (packetFrame cr e [0]) = x' ∧ x'.node.active = some pos ∧
      (∃ e', e'.peer = e.peer ∧ x'.node.tuns[pos]? = some e') ∧ x'.opener = x.opener ∧
      x'.node.tcp.conn.active = true ∧ x'.node.tcp.conn.openedMs = 0 := by
  obtain ⟨-, -, -, hquiet, hactive, hopened⟩ := syn_spec
  have hlt := (List.getElem?_eq_some_iff.mp hpos).1
  refine ⟨_, rfl, ?_⟩
  rw [packetFrame, onEvent_packet hopen hpos hfind (by decide)]
  have hsend := Entry.sendAll_spec cr (x.node.tcp.handleStream (Wg.pad16 [0]) 0 1000).2 e
  refine ⟨rfl, ⟨_, Entry.peer_of_fresh hsend.1, List.getElem?_set_self hlt⟩, ?_, ?_, ?_⟩
  · change (if (opening (Wg.pad16 [0])).isSome then some e.peer else x.opener) = _
    rw [hquiet]
    rfl
  · change (x.node.tcp.handleStream _ _ _).1.conn.active = true
    rw [htcp, hactive]
  · change (x.node.tcp.handleStream _ _ _).1.conn.openedMs = 0
    rw [htcp, hopened]

/-- A SYN is not answered by an open connection when there is none. -/
theorem through_syn (htcp : x.node.tcp = TcpServer.new (some hiHandler)) :
    ThroughOpener cr x (packetFrame cr e syn) := by
  obtain ⟨-, hanswers, -⟩ := syn_spec
  intro pos' e' plain hin hans
  have hhead : ((peerEnd e.tunnel e.ourIndex).encrypt cr syn).2.head? = some 4 := rfl
  rw [NodeState.incoming, relayed_append, Option.bind_some, if_pos hhead,
    decrypt_peerEnd hopen hpos hfind (by decide)] at hin
  cases hin
  rw [htcp] at hans
  exact absurd (hanswers.symm.trans hans) Bool.false_ne_true

end

/-- A handshake comes through no tunnel. -/
theorem through_initiation {src eph peer : Bytes 32} {init resp : List UInt8} {r : UInt32}
    {tun : Wg.Tunnel} (h : Wg.consumeInitiation cr nodePriv (cr.pubkey nodePriv) init r eph =
      .ok (resp, tun, peer)) (x : NodeSession) :
    ThroughOpener cr x (initiationFrame src eph init r) := by
  intro pos e plain hin
  rw [NodeState.incoming, relayed_append, Option.bind_some, Wg.head_of_consumeInitiation h,
    if_neg (by decide)] at hin
  cases hin

section

variable (hopen : cr.Opens) {ta tb : Wg.Tunnel} {srcA srcB eph : Bytes 32}
  {initA respA initB respB : List UInt8} {peerA peerB : Bytes 32}
  (hA : Wg.consumeInitiation cr nodePriv (cr.pubkey nodePriv) initA 7 eph = .ok (respA, ta, peerA))
  (hB : Wg.consumeInitiation cr nodePriv (cr.pubkey nodePriv) initB 8 eph = .ok (respB, tb, peerB))

include hopen hA hB

/-! ### What isolation forbids -/

/-- A peer opens a connection, another peer sends a byte, and the connection grows too
old: the RST goes to the other peer. -/
theorem not_isolated_of_two (hne : srcA ≠ srcB) :
    ∃ t, run (step cr nodePriv) (start hiHandler)
      [initiationFrame srcA eph initA 7, initiationFrame srcB eph initB 8,
        packetFrame cr ⟨7, ta, srcA⟩ syn, packetFrame cr ⟨8, tb, srcB⟩ [0], .tick 30001] = some t ∧
      ¬ t.Isolated cr := by
  obtain ⟨x2, hx2⟩ : ∃ x2, x2 = ((start hiHandler).onEvent cr nodePriv
    (initiationFrame srcA eph initA 7)).onEvent cr nodePriv (initiationFrame srcB eph initB 8) :=
      ⟨_, rfl⟩
  have hpair : Paired ⟨7, ta, srcA⟩ ⟨8, tb, srcB⟩ x2 := hx2 ▸ paired_of_handshakes hA hB
  -- the SYN, through the first tunnel
  obtain ⟨x3, hx3⟩ : ∃ x3, x3 = x2.onEvent cr nodePriv (packetFrame cr ⟨7, ta, srcA⟩ syn) :=
    ⟨_, rfl⟩
  have hsyn : OpenedBy 0 ⟨7, ta, srcA⟩ x2 x3 := hx3 ▸ openedBy_syn hopen
    (by rw [hpair.tuns]; rfl) (by rw [hpair.tuns]; rfl) hpair.tcp
  obtain ⟨a, ha, htuns⟩ := hsyn.tuns
  rw [hpair.tuns, List.set_cons_zero] at htuns
  -- any packet, through the second tunnel
  obtain ⟨x4, hx4, hactive, ⟨b, hb, hpos⟩, hopener, hconn, hopened⟩ :=
    @active_of_byte cr nodePriv x3 1 ⟨8, tb, srcB⟩ hopen
      (by rw [htuns]; rfl)
      (by rw [htuns, List.findIdx?_cons, Entry.ourIndex_of_fresh ha]; rfl) hsyn.tcp
  refine ⟨x4.onEvent cr nodePriv (.tick 30001), by rw [← hx4, hx3, hx2]; rfl, ?_⟩
  refine not_isolated_of_tick hactive hpos (hopener.trans hsyn.opener) ?_ hconn hopened
  rw [hb]
  exact hne

/-- Of two peers, the one whose tunnel is the second opens a connection, and it grows too
old. -/
theorem through_of_two :
    Along (step cr nodePriv) (ThroughOpener cr) (start hiHandler)
      [initiationFrame srcA eph initA 7, initiationFrame srcB eph initB 8,
        packetFrame cr ⟨8, tb, srcB⟩ syn, .tick 30001] := by
  have hpair := @paired_of_handshakes cr nodePriv ta tb srcA srcB eph initA respA initB respB
    peerA peerB hA hB
  have hpos := congrArg (fun l : List Entry => l[1]?) hpair.tuns
  have hfind := congrArg (List.findIdx? fun e : Entry => e.ourIndex = 8) hpair.tuns
  have hsyn := @openedBy_syn cr nodePriv _ 1 ⟨8, tb, srcB⟩ hopen hpos hfind hpair.tcp
  refine along_cons_of_step (through_initiation hA _) rfl
    (along_cons_of_step (through_initiation hB _) rfl
      (along_cons_of_step (through_syn hopen hpos hfind hpair.tcp) rfl
        (along_cons_of_step ?_ rfl trivial)))
  intro _
  rw [hsyn.established, hsyn.lastTunnel, hsyn.evicted, hsyn.lastEvicted, hsyn.opener,
    hpair.established, hpair.evicted]
  rfl

end

/-! ## Two peers over X25519 -/

/-- A peer of the examples, by its static and its ephemeral key. -/
structure Party where
  priv : Bytes 32
  eph : Bytes 32

namespace Party

/-- The key that the relay knows the peer by. -/
def key (a : Party) : Bytes 32 := Crypto.standard.pubkey a.priv

def initiation (a : Party) : List UInt8 :=
  (Wg.buildInitiation Crypto.standard a.priv a.key (Crypto.standard.pubkey (Wg.keyOf 2))
    (zeros 12) 7 a.eph).1

/-- The node, whose private key is `keyOf 2`, accepts the initiation. -/
def accepted (a : Party) (r : UInt32) : Except String (List UInt8 × Wg.Tunnel × Bytes 32) :=
  Wg.consumeInitiation Crypto.standard (Wg.keyOf 2) (Crypto.standard.pubkey (Wg.keyOf 2))
    a.initiation r (Wg.keyOf 4)

/-- The tunnel of an accepted initiation. -/
def tunnelOf : Except String (List UInt8 × Wg.Tunnel × Bytes 32) → Wg.Tunnel
  | .ok (_, t, _) => t
  | .error _ => ⟨zeros 32, zeros 32, 0, 0, 0⟩

def entry (a : Party) (r : UInt32) : Entry := ⟨r, tunnelOf (a.accepted r), a.key⟩

/-- A handshake between commuting keys is accepted, and names the static key of its sender. -/
theorem accepted_eq {a : Party} (heph : Crypto.standard.Commutes a.eph (Wg.keyOf 2))
    (hpriv : Crypto.standard.Commutes a.priv (Wg.keyOf 2)) (r : UInt32) :
    ∃ resp, a.accepted r = .ok (resp, tunnelOf (a.accepted r), a.key) := by
  obtain ⟨m, mac, -, hok⟩ := Wg.consumeInitiation_buildInitiation Crypto.standard
    Crypto.standard_opens heph hpriv (zeros 12) 7 r (Wg.keyOf 4)
  dsimp only at hok
  rw [← key, ← initiation, ← accepted] at hok
  rw [hok]
  exact ⟨_, rfl⟩

end Party

def alice : Party := ⟨Wg.keyOf 1, Wg.keyOf 3⟩
def bob : Party := ⟨Wg.keyOf 5, Wg.keyOf 6⟩

/-- The first party of the examples is accepted, by evaluation of X25519 at its keys. -/
theorem alice_accepted (r : UInt32) : ∃ resp, alice.accepted r =
    .ok (resp, Party.tunnelOf (alice.accepted r), alice.key) := by
  apply Party.accepted_eq
  · unfold Crypto.Commutes
    decide +kernel
  · unfold Crypto.Commutes
    decide +kernel

/-- The second party is accepted likewise. -/
theorem bob_accepted (r : UInt32) : ∃ resp, bob.accepted r =
    .ok (resp, Party.tunnelOf (bob.accepted r), bob.key) := by
  apply Party.accepted_eq
  · unfold Crypto.Commutes
    decide +kernel
  · unfold Crypto.Commutes
    decide +kernel

/-- The parties are different peers, so isolation says something about them. -/
theorem alice_ne_bob : alice.key ≠ bob.key := by
  decide +kernel

/-- Alice opens a connection, Bob sends a byte, and the connection grows too old. -/
def crossRun : List Event :=
  [initiationFrame alice.key (Wg.keyOf 4) alice.initiation 7,
    initiationFrame bob.key (Wg.keyOf 4) bob.initiation 8,
    packetFrame Crypto.standard (alice.entry 7) syn,
    packetFrame Crypto.standard (bob.entry 8) [0], .tick 30001]

/-- Bob opens a connection beside the tunnel of Alice, and it grows too old. -/
def pairRun : List Event :=
  [initiationFrame alice.key (Wg.keyOf 4) alice.initiation 7,
    initiationFrame bob.key (Wg.keyOf 4) bob.initiation 8,
    packetFrame Crypto.standard (bob.entry 8) syn, .tick 30001]

/-- **The RST of Alice's connection goes to Bob**, encrypted with his keys. -/
theorem rst_to_another_peer :
    ∃ t, run (step Crypto.standard (Wg.keyOf 2)) (start hiHandler) crossRun = some t ∧
      ¬ t.Isolated Crypto.standard := by
  obtain ⟨respA, hA⟩ := alice_accepted 7
  obtain ⟨respB, hB⟩ := bob_accepted 8
  exact not_isolated_of_two Crypto.standard_opens hA hB alice_ne_bob

/-- **The tunnels are isolated** along the runs that meet the condition. -/
theorem tunnels_isolated (route : Http.RouteFn) {es : List Event} {t : NodeSession}
    (h : Along (step cr nodePriv) (ThroughOpener cr) (start route) es)
    (hrun : run (step cr nodePriv) (start route) es = some t) : t.Isolated cr :=
  (run_inv_along (inv_step cr nodePriv) (inv_start cr route) h hrun).isolated

/-- Two peers: the RST of the timer goes to Bob, who opened the connection. -/
theorem tunnels_isolated_pair :
    ∃ t, run (step Crypto.standard (Wg.keyOf 2)) (start hiHandler) pairRun = some t ∧
      t.Isolated Crypto.standard := by
  obtain ⟨respA, hA⟩ := alice_accepted 7
  obtain ⟨respB, hB⟩ := bob_accepted 8
  exact ⟨_, rfl, tunnels_isolated hiHandler
    (through_of_two Crypto.standard_opens hA hB) rfl⟩

end NodeSession

end Node
