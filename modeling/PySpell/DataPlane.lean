/-
# The data plane of the device

`dataplane.rs`: one UDP socket that carries disco, STUN and WireGuard, with a table of
pending handshakes, a table of tunnels, and the services behind the tunnels.  A datagram is
handled by `handlePacket`, the packet in a tunnel by `handleDecrypted`, and the housekeeping
of the loop by `runPeriodic`.

What a build contains is a record of features.  Left out are the `bench` build, the disco
probes and the STUN refresh of the housekeeping, which only send, and the set of confirmed
paths, which is only printed.  Random numbers, the clock and the result of a `send_to` that
is looked at are arguments (`Draw`).
-/
import PySpell.Lib.Table
import PySpell.Disco
import PySpell.NetMap
import PySpell.Outbound
import PySpell.WgTransport
import PySpell.TcpSession

open Tcp Bytes

namespace DataPlane

/-! ## Node -/

/-- `Target`. -/
structure Target where
  discoPub : Bytes 32
  nodePub : Bytes 32
  endpoints : List SocketAddr
  spray : Bool

/-- `OutboundCfg`. -/
structure OutboundCfg where
  ourIp : Ip
  targetIp : Ip
  targetNode : Bytes 32
  httpPort : ℕ
  httpPath : String

/-- `Identity`; without `allowedSrcs` everything is allowed. -/
structure Identity where
  discoPriv : Bytes 32
  discoPub : Bytes 32
  nodePriv : Bytes 32
  nodePub : Bytes 32
  allowedSrcs : Option (List NetMap.Cidr)

/-- `cidr_match`. -/
def cidrMatch (allowed : List NetMap.Cidr) (ip : UInt32) : Bool :=
  allowed.any fun c => ip &&& c.2 = c.1 &&& c.2

/-- `src_allowed`. -/
def srcAllowed (allowed : Option (List NetMap.Cidr)) (inner : List UInt8) : Bool :=
  match allowed with
  | none => true
  | some cidrs =>
    if inner.length < 16 ∨ Icmp.version inner ≠ 4 then true
    else cidrMatch cidrs (Tcp.u32At inner 12)

/-! ## The state -/

/-- `Pending`: a handshake that waits for its response. -/
structure Pending where
  addr : SocketAddr
  init : List UInt8
  hs : Wg.Handshake
  ourIndex : UInt32
  sentTick : UInt32
  retries : ℕ

/-- `TunnelEntry`. -/
structure TunnelEntry where
  tun : Wg.Tunnel
  addr : SocketAddr
  peerNode : Bytes 32
  tcp : TcpServer

/-- `OutboundRun`. -/
structure OutboundRun where
  cfg : OutboundCfg
  icmpIdent : ℕ
  icmpSeq : ℕ
  sport : ℕ
  tcp : Option Outbound.TcpClient
  started : Bool
  httpDone : Bool

/-- `State`. -/
structure State where
  pending : Table (Bytes 32) Pending
  tunnels : Table UInt32 TunnelEntry
  tsRoutes : Table Ip UInt32
  proxy : Proxy.ProxyConn
  outbound : Option OutboundRun
  mdnsReinject : Bool
  mdnsPartner : Bytes 32

/-- The state of the loop. -/
structure Shared where
  st : State
  targets : List Target
  tick : UInt32

/-- What leaves the data plane. -/
inductive Effect where
  /-- `send_to` on the socket. -/
  | send (pkt : List UInt8) (addr : SocketAddr)
  /-- `inject_ip`: a packet for lwIP. -/
  | inject (inner : List UInt8)
  /-- A payload for the mDNS reflector. -/
  | reinject (payload : List UInt8)
  /-- `dispatch_tcp`: an action that a request asked for. -/
  | action (a : TcpAction)

/-- The features of a build that the data plane looks at. -/
structure Features where
  lwipBridge : Bool
  mdnsForward : Bool
  outbound : Bool
  icmp : Bool
  tcpProxy : Bool
  httpServer : Bool

/-- What the data plane is built with: the primitives, the features, the handler of the
HTTP server and the port of the proxy. -/
structure Build where
  cr : Crypto
  box : SalsaBox
  features : Features
  route : Option Http.RouteFn
  proxyListenPort : ℕ

/-- What the random generator, the clock and the network supply while a datagram is
handled. -/
structure Draw where
  index : UInt32
  ephPriv : Bytes 32
  timestamp : Bytes 12
  nonce : Bytes 24
  /-- The result of sending an initiation. -/
  sent : Bool
  now : ℕ
  iss : UInt32
  lanFetch : List UInt8 → List UInt8

def pendingTimeoutTicks : UInt32 := 3
def maxHsRetries : ℕ := 4
def maxTunnels : ℕ := 8
def fwdPort : ℕ := 5354

/-! ## Sending through a tunnel -/

/-- Packets are encrypted one after the other. -/
def encryptAll (cr : Crypto) : Wg.Tunnel → List (List UInt8) → Wg.Tunnel × List (List UInt8)
  | t, [] => (t, [])
  | t, inner :: inners =>
    let (t, pkt) := t.encrypt cr inner
    let (t, pkts) := encryptAll cr t inners
    (t, pkt :: pkts)

namespace TunnelEntry

/-- Packets for the peer of the tunnel, at an address. -/
def sendAll (cr : Crypto) (e : TunnelEntry) (inners : List (List UInt8)) (addr : SocketAddr) :
    TunnelEntry × List Effect :=
  let (tun, pkts) := encryptAll cr e.tun inners
  ({ e with tun }, pkts.map (.send · addr))

end TunnelEntry

/-- The client takes a segment of its server; the third component says whether this ends
the handling of the packet. -/
def OutboundRun.onInner (ob : OutboundRun) (inner : List UInt8) :
    OutboundRun × List (List UInt8) × Bool :=
  match ob.tcp with
  | none => (ob, [], false)
  | some tc =>
    if tc.owns inner then
      let (tc, segs) := tc.onInner inner
      let line := tc.done && !ob.httpDone
      ({ ob with tcp := some tc, httpDone := ob.httpDone || line }, segs, segs ≠ [] || line)
    else (ob, [], false)

namespace State

/-- Packets for the peer of tunnel `idx`, if there is one. -/
def sendAll (cr : Crypto) (s : State) (idx : UInt32) (inners : List (List UInt8))
    (addr : SocketAddr) : State × List Effect :=
  match s.tunnels.lookup idx with
  | none => (s, [])
  | some e =>
    ({ s with tunnels := s.tunnels.modify idx fun e => (e.sendAll cr inners addr).1 },
      (e.sendAll cr inners addr).2)

/-! ## The services -/

/-- `ipv4_src`. -/
def ipv4Src (p : List UInt8) : Option Ip :=
  if 20 ≤ p.length ∧ Icmp.version p = 4 then some (ipAt p 12) else none

/-- `ipv4_dst`. -/
def ipv4Dst (p : List UInt8) : Option Ip :=
  if 20 ≤ p.length ∧ Icmp.version p = 4 then some (ipAt p 16) else none

/-- `udp_payload_to_port`. -/
def udpPayloadToPort (inner : List UInt8) (port : ℕ) : Option (List UInt8) :=
  if inner.length < 20 ∨ Icmp.version inner ≠ 4 ∨ inner.getD 9 0 ≠ Outbound.protoUdp then none
  else
    let ihl := (inner.getD 0 0).toNat % 16 * 4
    let total := u16At inner 2
    if total < ihl + 8 ∨ inner.length < total then none
    else
      let udp := (inner.take total).drop ihl
      if u16At udp 2 ≠ port then none else some (udp.drop 8)

/-- The lwIP bridge: the route back is learned, and lwIP gets the packet. -/
def bridge (s : State) (ourIndex : UInt32) (inner : List UInt8) : State × List Effect :=
  let s := (ipv4Src inner).elim s fun ip => { s with tsRoutes := s.tsRoutes.insert ip ourIndex }
  (s, [.inject inner])

/-- A forwarded mDNS packet of the partner. -/
def mdnsIn (b : Build) (s : State) (ourIndex : UInt32) (inner : List UInt8) :
    Option (List Effect) :=
  if b.features.mdnsForward ∧
      (s.tunnels.lookup ourIndex).map TunnelEntry.peerNode = some s.mdnsPartner then
    (udpPayloadToPort inner fwdPort).map fun payload =>
      if s.mdnsReinject then [.reinject payload] else []
  else none

/-- Replies to traffic that the device started. -/
def outboundIn (b : Build) (s : State) (ourIndex : UInt32) (inner : List UInt8)
    (src : SocketAddr) : State × Option (List Effect) :=
  match s.outbound with
  | none => (s, none)
  | some ob =>
    if b.features.outbound ∧
        (s.tunnels.lookup ourIndex).map TunnelEntry.peerNode = some ob.cfg.targetNode then
      let (ob, segs, handled) := ob.onInner inner
      let (s, out) := sendAll b.cr { s with outbound := some ob } ourIndex segs src
      (s, if handled then some out else none)
    else (s, none)

/-- The HTTP server of the tunnel. -/
def httpIn (b : Build) (s : State) (ourIndex : UInt32) (inner : List UInt8) (src : SocketAddr)
    (d : Draw) : State × List Effect :=
  match s.tunnels.lookup ourIndex with
  | none => (s, [])
  | some e =>
    let (tcp, sent) := e.tcp.handleStream inner d.now d.iss
    let (tcp, action) := tcp.takeAction
    let (s, out) := s.sendAll b.cr ourIndex (sent.map Sent.packet) src
    ({ s with tunnels := s.tunnels.modify ourIndex fun e => { e with tcp } },
      out ++ (action.map Effect.action).toList)

/-- Ping, proxy and HTTP server. -/
def serve (b : Build) (s : State) (ourIndex : UInt32) (inner : List UInt8) (src : SocketAddr)
    (d : Draw) : State × List Effect :=
  match if b.features.icmp then Icmp.echoReplyAny inner else none with
  | some reply => s.sendAll b.cr ourIndex [reply] src
  | none =>
    let (proxy, replies) :=
      if b.features.tcpProxy then s.proxy.handle b.proxyListenPort d.lanFetch d.iss inner
      else (s.proxy, [])
    let s := { s with proxy }
    if replies ≠ [] then s.sendAll b.cr ourIndex replies src
    else if b.features.httpServer then s.httpIn b ourIndex inner src d
    else (s, [])

/-- A packet that has passed the filter. -/
def dispatch (b : Build) (s : State) (ourIndex : UInt32) (inner : List UInt8) (src : SocketAddr)
    (d : Draw) : State × List Effect :=
  if b.features.lwipBridge then s.bridge ourIndex inner
  else
    match s.mdnsIn b ourIndex inner with
    | some out => (s, out)
    | none =>
      let (s, handled) := s.outboundIn b ourIndex inner src
      match handled with
      | some out => (s, out)
      | none => s.serve b ourIndex inner src d

/-- `handle_decrypted`: the tunnel follows its peer, and the packet goes through the
filter. -/
def handleDecrypted (b : Build) (id : Identity) (s : State) (ourIndex : UInt32)
    (inner : List UInt8) (src : SocketAddr) (d : Draw) : State × List Effect :=
  match s.tunnels.lookup ourIndex with
  | none => (s, [])
  | some _ =>
    let s := { s with tunnels := s.tunnels.modify ourIndex fun e => { e with addr := src } }
    if inner = [] then (s, [])
    else if !srcAllowed id.allowedSrcs inner then (s, [])
    else s.dispatch b ourIndex inner src d

/-! ## Handshakes -/

/-- `insert_tunnel`. -/
def insertTunnel (b : Build) (s : State) (ourIndex : UInt32) (tun : Wg.Tunnel)
    (addr : SocketAddr) (peerNode : Bytes 32) : State :=
  let tunnels := s.tunnels.retain fun e => e.addr ≠ addr
  { s with tunnels := tunnels.insert ourIndex ⟨tun, addr, peerNode, TcpServer.new b.route⟩ }

/-- `maybe_start_handshake`. -/
def maybeStartHandshake (b : Build) (id : Identity) (targets : List Target) (s : State)
    (tick : UInt32) (discoPub : Bytes 32) (src : SocketAddr) (d : Draw) : State × List Effect :=
  match targets.find? fun t => t.discoPub = discoPub with
  | none => (s, [])
  | some target =>
    if target.nodePub ∈ s.pending ∨ s.tunnels.any (fun e => e.addr = src) = true ∨
        maxTunnels ≤ s.tunnels.size + s.pending.size then (s, [])
    else
      let (msg, hs) :=
        Wg.buildInitiation b.cr id.nodePriv id.nodePub target.nodePub d.timestamp d.index d.ephPriv
      if d.sent then
        ({ s with pending := s.pending.insert target.nodePub ⟨src, msg, hs, d.index, tick, 0⟩ },
          [.send msg src])
      else (s, [.send msg src])

/-- `handle_wg_init`. -/
def handleWgInit (b : Build) (id : Identity) (s : State) (pkt : List UInt8) (src : SocketAddr)
    (d : Draw) : State × List Effect :=
  match Wg.consumeInitiation b.cr id.nodePriv id.nodePub pkt d.index d.ephPriv with
  | .ok (resp, tun, peerStatic) =>
    (s.insertTunnel b d.index tun src peerStatic, [.send resp src])
  | .error _ => (s, [])

/-- The pending handshake that a response answers. -/
def answered (s : State) (pkt : List UInt8) : Option (Bytes 32 × Pending) :=
  if pkt.length < 12 then none
  else (s.pending.entries.find? fun e => e.2.ourIndex = Wg.u32At pkt 8).map fun e => (e.1, e.2)

/-- `handle_wg_response`. -/
def handleWgResponse (b : Build) (s : State) (pkt : List UInt8) (src : SocketAddr) :
    State × List Effect :=
  match s.answered pkt with
  | none => (s, [])
  | some (key, p) =>
    let s := { s with pending := s.pending.erase key }
    match p.hs.consumeResponse b.cr pkt with
    | .ok tun =>
      let (tun, ka) := tun.keepalive b.cr
      (s.insertTunnel b p.ourIndex tun src key, [.send ka src])
    | .error _ => (s, [])

/-- The tunnel of a transport packet, and the packet in it. -/
def decrypt (b : Build) (s : State) (pkt : List UInt8) : Option (UInt32 × List UInt8) :=
  if pkt.length < 16 then none
  else
    let ourIndex := Wg.u32At pkt 4
    (s.tunnels.lookup ourIndex).bind fun e =>
      (e.tun.decrypt b.cr pkt).toOption.map fun inner => (ourIndex, inner)

/-- `handle_wg_transport`. -/
def handleWgTransport (b : Build) (id : Identity) (s : State) (pkt : List UInt8)
    (src : SocketAddr) (d : Draw) : State × List Effect :=
  match s.decrypt b pkt with
  | none => (s, [])
  | some (ourIndex, inner) => s.handleDecrypted b id ourIndex inner src d

/-- A disco message. -/
def handleDisco (b : Build) (id : Identity) (targets : List Target) (s : State) (tick : UInt32)
    (pkt : List UInt8) (src : SocketAddr) (d : Draw) : State × List Effect :=
  match Disco.openMsg b.box id.discoPriv pkt with
  | none => (s, [])
  | some msg =>
    if msg.msgType = Disco.ping then
      let pt := Disco.pongPlaintext msg.txid src
      (s, ((Disco.sealMsg b.box id.discoPriv id.discoPub msg.senderDiscoPub d.nonce pt).map
        (Effect.send · src)).toList)
    else if msg.msgType = Disco.pong then
      s.maybeStartHandshake b id targets tick msg.senderDiscoPub src d
    else (s, [])

/-- `handle_packet`. -/
def handlePacket (b : Build) (id : Identity) (targets : List Target) (s : State) (tick : UInt32)
    (pkt : List UInt8) (src : SocketAddr) (d : Draw) : State × List Effect :=
  if Disco.isDisco pkt then s.handleDisco b id targets tick pkt src d
  else if Stun.isStun pkt then (s, [])
  else if pkt.head? = some Wg.msgInitiation then s.handleWgInit b id pkt src d
  else if pkt.head? = some Wg.msgResponse then s.handleWgResponse b pkt src
  else if pkt.head? = some Wg.msgTransport then s.handleWgTransport b id pkt src d
  else (s, [])

/-! ## Housekeeping -/

end State

/-- The timer of the server of a tunnel. -/
def TunnelEntry.tick (b : Build) (now : ℕ) (e : TunnelEntry) : TunnelEntry × List Effect :=
  if b.features.httpServer then
    let (tcp, sent) := e.tcp.tick now
    { e with tcp }.sendAll b.cr (sent.map Sent.packet) e.addr
  else (e, [])

/-- A keepalive. -/
def TunnelEntry.keepalive (b : Build) (e : TunnelEntry) : TunnelEntry × List Effect :=
  e.sendAll b.cr [[]] e.addr

/-- What becomes of a pending handshake: it is dropped, or sent again, or it waits. -/
def Pending.retry (tunnels : Table UInt32 TunnelEntry) (tick : UInt32) (p : Pending) :
    Option Pending × List Effect :=
  if tunnels.any fun e => e.addr = p.addr then (none, [])
  else if pendingTimeoutTicks < tick - p.sentTick then
    if maxHsRetries ≤ p.retries then (none, [])
    else (some { p with sentTick := tick, retries := p.retries + 1 }, [.send p.init p.addr])
  else (some p, [])

namespace State

/-- A step of every tunnel. -/
def eachTunnel (step : TunnelEntry → TunnelEntry × List Effect) (s : State) :
    State × List Effect :=
  ({ s with tunnels := s.tunnels.mapVals fun e => (step e).1 },
    s.tunnels.entries.flatMap fun e => (step e.2).2)

/-- The retries of the handshakes. -/
def retryPending (tick : UInt32) (s : State) : State × List Effect :=
  ({ s with pending := s.pending.filterMap fun _ p => (p.retry s.tunnels tick).1 },
    s.pending.entries.flatMap fun e => (e.2.retry s.tunnels tick).2)

/-- The first tunnel to a node. -/
def tunnelTo (s : State) (node : Bytes 32) : Option (UInt32 × TunnelEntry) :=
  (s.tunnels.entries.find? fun e => e.2.peerNode = node).map fun e => (e.1, e.2)

/-- The request of the HTTP client. -/
def httpRequest (cfg : OutboundCfg) : List UInt8 :=
  let ip := s!"{cfg.targetIp.a}.{cfg.targetIp.b}.{cfg.targetIp.c}.{cfg.targetIp.d}"
  Text.utf8 (s!"GET {cfg.httpPath} HTTP/1.1\r\nHost: {ip}\r\nUser-Agent: tdongle\r\n" ++
    "Connection: close\r\n\r\n")

/-- A ping to the target of the device and, once, a request. -/
def runOutbound (b : Build) (rand : UInt32) (s : State) : State × List Effect :=
  match s.outbound with
  | none => (s, [])
  | some ob =>
    match s.tunnelTo ob.cfg.targetNode with
    | none => (s, [])
    | some (idx, e) =>
      if b.features.outbound then
        let seq := (ob.icmpSeq + 1) % 2 ^ 16
        let ob := { ob with icmpSeq := seq }
        let cfg := ob.cfg
        let req := Outbound.icmpEchoRequest cfg.ourIp cfg.targetIp ob.icmpIdent seq
          (Text.utf8 "tdongle-s3")
        if ob.started then sendAll b.cr { s with outbound := some ob } idx [req] e.addr
        else
          let client := Outbound.TcpClient.new cfg.ourIp cfg.targetIp ob.sport cfg.httpPort
            (httpRequest cfg) rand
          let (client, syn) := client.openConn
          let ob := { ob with started := true, tcp := some client }
          sendAll b.cr { s with outbound := some ob } idx [req, syn] e.addr
      else (s, [])

/-- The probing round: keepalives, and traffic that the device starts. -/
def probe (b : Build) (rand : UInt32) (s : State) : State × List Effect :=
  let (s, out) := s.eachTunnel (TunnelEntry.keepalive b)
  let (s, out') := s.runOutbound b rand
  (s, out ++ out')

/-- `lwip_drain_tx` on one packet. -/
def drainOne (b : Build) (s : State) (pkt : List UInt8) : State × List Effect :=
  match ipv4Dst pkt with
  | none => (s, [])
  | some dst =>
    match s.tsRoutes.lookup dst with
    | none => (s, [])
    | some idx =>
      match s.tunnels.lookup idx with
      | none => (s, [])
      | some e => s.sendAll b.cr idx [pkt] e.addr

/-- `lwip_drain_tx` on the queue. -/
def lwipDrainTx (b : Build) : State → List (List UInt8) → State × List Effect
  | s, [] => (s, [])
  | s, pkt :: queue =>
    let (s, out) := s.drainOne b pkt
    let (s, out') := lwipDrainTx b s queue
    (s, out ++ out')

/-- `mdns_drain` on the captured payloads. -/
def mdnsDrain (b : Build) (ourIp partnerIp : Ip) : State → List (List UInt8) → State × List Effect
  | s, [] => (s, [])
  | s, payload :: rest =>
    let (s, out) :=
      match s.tunnelTo s.mdnsPartner with
      | none => (s, [])
      | some (idx, e) =>
        s.sendAll b.cr idx [Outbound.udpDatagram ourIp partnerIp fwdPort fwdPort payload] e.addr
    let (s, out') := mdnsDrain b ourIp partnerIp s rest
    (s, out ++ out')

end State

/-- A target that is added while the loop runs. -/
def addTarget (targets : List Target) (t : Target) : List Target :=
  if targets.any fun e => e.nodePub = t.nodePub then
    let added (e : Target) : Target :=
      { e with
        endpoints := t.endpoints.foldl (fun eps ep => if ep ∈ eps then eps else eps ++ [ep])
          e.endpoints
        spray := e.spray || t.spray }
    -- the first target with the key
    let pos := targets.findIdx fun e => e.nodePub = t.nodePub
    targets.modify pos added
  else targets ++ [t]

/-! ## Events -/

/-- What the loop does next. -/
inductive Event where
  | datagram (pkt : List UInt8) (src : SocketAddr) (d : Draw)
  /-- Housekeeping at a time, with the targets that came in; `probing` is set every two
  seconds. -/
  | periodic (tick : UInt32) (now : ℕ) (added : List Target) (probing : Bool) (rand : UInt32)
  | drain (queue : List (List UInt8))
  | mdns (ourIp partnerIp : Ip) (payloads : List (List UInt8))

namespace Shared

variable (b : Build) (id : Identity)

/-- `run_periodic`. -/
def runPeriodic (x : Shared) (tick : UInt32) (now : ℕ) (added : List Target) (probing : Bool)
    (rand : UInt32) : Shared × List Effect :=
  let (s, out) := x.st.eachTunnel (TunnelEntry.tick b now)
  let (s, out') := s.retryPending tick
  let (s, out'') := if probing then s.probe b rand else (s, [])
  ({ st := s, targets := added.foldl addTarget x.targets, tick }, out ++ out' ++ out'')

/-- One event. -/
def onEvent (x : Shared) : Event → Shared × List Effect
  | .datagram pkt src d =>
    let (s, out) := x.st.handlePacket b id x.targets x.tick pkt src d
    ({ x with st := s }, out)
  | .periodic tick now added probing rand => x.runPeriodic b tick now added probing rand
  | .drain queue =>
    let (s, out) := if b.features.lwipBridge then x.st.lwipDrainTx b queue else (x.st, [])
    ({ x with st := s }, out)
  | .mdns ourIp partnerIp payloads =>
    let (s, out) :=
      if b.features.mdnsForward then x.st.mdnsDrain b ourIp partnerIp payloads else (x.st, [])
    ({ x with st := s }, out)

def step (x : Shared) (e : Event) : Option Shared := some (x.onEvent b id e).1

/-- The data plane when it starts. -/
def start (targets : List Target) (outbound : Option OutboundRun) (mdnsReinject : Bool)
    (mdnsPartner : Bytes 32) : Shared :=
  ⟨⟨∅, ∅, ∅, .default, outbound, mdnsReinject, mdnsPartner⟩, targets, 0⟩

end Shared

end DataPlane
