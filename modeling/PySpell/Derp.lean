/-
# The relay data plane of the device

`derp.rs`: frames of the relay, from peers that are known by their node key.  The device
answers handshakes, keeps the tunnels of a few peers, and serves what comes through them;
a peer that is heard for the first time is asked to come over directly.

The connection to the relay (TLS, the handshake with the server, the framing of what is
sent) is left out: an event is a frame that was read, a pause, or a new connection.
-/
import PySpell.DataPlane
import PySpell.Node

open Tcp Bytes

/-- `call_me_maybe_plaintext`. -/
def Disco.callMeMaybePlaintext (eps : List SocketAddr) : List UInt8 :=
  [callMeMaybe, discoVersion] ++ eps.flatMap addrToBytes

namespace Derp

open DataPlane (Build Identity Target encryptAll srcAllowed)

/-- `PeerDir`. -/
structure PeerDir where
  nodePub : Bytes 32
  discoPub : Bytes 32
  endpoints : List SocketAddr

/-- `Upgrade`, apart from its channel. -/
structure Upgrade where
  ourEndpoints : List SocketAddr
  peers : List PeerDir

/-- `DerpPeer`. -/
structure DerpPeer where
  tun : Wg.Tunnel
  lastMs : ℕ
  tcp : TcpServer

/-- The variables of `serve`. -/
structure State where
  peers : Table (Bytes 32) DerpPeer
  upgraded : List (Bytes 32)

/-- What leaves the data plane. -/
inductive Effect where
  /-- `send_packet`. -/
  | relay (dst : Bytes 32) (pkt : List UInt8)
  /-- A target for the direct data plane. -/
  | target (t : Target)
  /-- `dispatch_tcp`. -/
  | action (a : TcpAction)

def maxPeers : ℕ := 4
def maxUpgraded : ℕ := 16

/-- What the random generator and the clock supply for a frame. -/
structure Draw where
  index : UInt32
  ephPriv : Bytes 32
  /-- For the message of an upgrade. -/
  upgradeNonce : Bytes 24
  nonce : Bytes 24
  now : ℕ
  iss : UInt32

/-! ## Upgrades -/

/-- `try_upgrade`. -/
def tryUpgrade (b : Build) (id : Identity) (up : Upgrade) (src : Bytes 32) (d : Draw) :
    List Effect :=
  match up.peers.find? fun p => p.nodePub = src with
  | none => []
  | some peer =>
    if peer.endpoints = [] ∧ up.ourEndpoints = [] then []
    else
      let cmm := Disco.callMeMaybePlaintext up.ourEndpoints
      let wire := Disco.sealMsg b.box id.discoPriv id.discoPub peer.discoPub d.upgradeNonce cmm
      (wire.map (Effect.relay src)).toList ++ [.target ⟨peer.discoPub, src, peer.endpoints, true⟩]

/-- A frame of a peer, as far as upgrades go: each peer is tried once. -/
def State.upgrade (b : Build) (id : Identity) (upgrade : Option Upgrade) (s : State)
    (src : Bytes 32) (d : Draw) : State × List Effect :=
  match upgrade with
  | none => (s, [])
  | some up =>
    let upgraded := if maxUpgraded < s.upgraded.length then [] else s.upgraded
    if src ∈ upgraded then ({ s with upgraded }, [])
    else ({ s with upgraded := src :: upgraded }, tryUpgrade b id up src d)

/-- A disco message: a ping is answered, and the endpoints of a peer are passed on. -/
def handleDisco (b : Build) (id : Identity) (upgrade : Option Upgrade) (src : Bytes 32)
    (pkt : List UInt8) (d : Draw) : List Effect :=
  match Disco.openMsg b.box id.discoPriv pkt with
  | none => []
  | some msg =>
    if msg.msgType = Disco.ping then
      let pt := Disco.pongPlaintext msg.txid (.v4 (zeros 4) 0)
      ((Disco.sealMsg b.box id.discoPriv id.discoPub msg.senderDiscoPub d.nonce pt).map
        (Effect.relay src)).toList
    else if msg.msgType = Disco.callMeMaybe ∧ msg.endpoints ≠ [] ∧ upgrade.isSome then
      [.target ⟨msg.senderDiscoPub, src, msg.endpoints, true⟩]
    else []

/-! ## Peers -/

namespace DerpPeer

/-- Packets for the peer. -/
def sendAll (cr : Crypto) (p : DerpPeer) (src : Bytes 32) (inners : List (List UInt8)) :
    DerpPeer × List Effect :=
  let (tun, pkts) := encryptAll cr p.tun inners
  ({ p with tun }, pkts.map (.relay src))

/-- `handle_inner`. -/
def handleInner (b : Build) (p : DerpPeer) (src : Bytes 32) (inner : List UInt8) (now : ℕ)
    (iss : UInt32) : DerpPeer × List Effect :=
  match if b.features.icmp then Icmp.echoReplyAny inner else none with
  | some reply => p.sendAll b.cr src [reply]
  | none =>
    if b.features.httpServer then
      let (tcp, sent) := p.tcp.handleStream inner now iss
      let (p, out) := { p with tcp }.sendAll b.cr src (sent.map Sent.packet)
      let (tcp, action) := p.tcp.takeAction
      ({ p with tcp }, out ++ (action.map Effect.action).toList)
    else (p, [])

/-- A decrypted packet, which goes through the filter. -/
def onInner (b : Build) (id : Identity) (p : DerpPeer) (src : Bytes 32) (inner : List UInt8)
    (now : ℕ) (iss : UInt32) : DerpPeer × List Effect :=
  if inner ≠ [] ∧ srcAllowed id.allowedSrcs inner = true then p.handleInner b src inner now iss
  else (p, [])

/-- The timer of the server of a peer. -/
def tick (b : Build) (now : ℕ) (src : Bytes 32) (p : DerpPeer) : DerpPeer × List Effect :=
  if b.features.httpServer then
    let (tcp, sent) := p.tcp.tick now
    { p with tcp }.sendAll b.cr src (sent.map Sent.packet)
  else (p, [])

end DerpPeer

namespace State

/-- A new peer; when the table is full, the one that was heard from least recently goes. -/
def insertPeer (s : State) (src : Bytes 32) (p : DerpPeer) : State :=
  let peers :=
    if maxPeers ≤ s.peers.size ∧ src ∉ s.peers then
      (s.peers.entries.minOn? fun e => e.2.lastMs).elim s.peers fun old => s.peers.erase old.1
    else s.peers
  { s with peers := peers.insert src p }

/-- An initiation. -/
def handleInit (b : Build) (id : Identity) (s : State) (src : Bytes 32) (pkt : List UInt8)
    (d : Draw) : State × List Effect :=
  match Wg.consumeInitiation b.cr id.nodePriv id.nodePub pkt d.index d.ephPriv with
  | .ok (resp, tun, _) =>
    (s.insertPeer src ⟨tun, d.now, TcpServer.new b.route⟩, [.relay src resp])
  | .error _ => (s, [])

/-- A transport packet. -/
def handleTransport (b : Build) (id : Identity) (s : State) (src : Bytes 32) (pkt : List UInt8)
    (d : Draw) : State × List Effect :=
  match s.peers.lookup src with
  | none => (s, [])
  | some p =>
    let p := { p with lastMs := d.now }
    let (p, out) :=
      match p.tun.decrypt b.cr pkt with
      | .ok inner => p.onInner b id src inner d.now d.iss
      | .error _ => (p, [])
    ({ s with peers := s.peers.modify src fun _ => p }, out)

/-- A frame that was read. -/
def handleFrame (b : Build) (id : Identity) (upgrade : Option Upgrade) (s : State) (typ : UInt8)
    (payload : List UInt8) (d : Draw) : State × List Effect :=
  match Node.relayed typ payload with
  | none => (s, [])
  | some (src, pkt) =>
    if pkt = [] then (s, [])
    else
      let (s, out) := s.upgrade b id upgrade src d
      let (s, out') :=
        if Disco.isDisco pkt then (s, handleDisco b id upgrade src pkt d)
        else if pkt.head? = some Wg.msgInitiation then s.handleInit b id src pkt d
        else if pkt.head? = some Wg.msgTransport then s.handleTransport b id src pkt d
        else (s, [])
      (s, out ++ out')

/-- A pause: the timers of all peers. -/
def idle (b : Build) (now : ℕ) (s : State) : State × List Effect :=
  ({ s with peers := s.peers.filterMap fun src p => some (p.tick b now src).1 },
    s.peers.entries.flatMap fun e => (e.2.tick b now e.1).2)

end State

/-! ## Events -/

/-- What `run` does next. -/
inductive Event where
  | frame (typ : UInt8) (payload : List UInt8) (d : Draw)
  | idle (now : ℕ)
  /-- The connection broke, and there is a new one. -/
  | reconnect

def start : State := ⟨∅, []⟩

def onEvent (b : Build) (id : Identity) (upgrade : Option Upgrade) (s : State) :
    Event → State × List Effect
  | .frame typ payload d => s.handleFrame b id upgrade typ payload d
  | .idle now => s.idle b now
  | .reconnect => (start, [])

def step (b : Build) (id : Identity) (upgrade : Option Upgrade) (s : State) (e : Event) :
    Option State := some (onEvent b id upgrade s e).1

end Derp
