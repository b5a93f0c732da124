/-
# Traffic that the device starts, and the proxy

`outbound.rs`: the packets of a ping, of a UDP datagram and of a TCP client with one
request.  `proxy.rs`: a TCP connection from the tunnel to one service of the local network,
whose answer to a request is an argument.  Random numbers are arguments too.
-/
import PySpell.Icmp

open Tcp

namespace Outbound

def protoIcmp : UInt8 := 1
def protoUdp : UInt8 := 17

/-- `ipv4_packet`. -/
def ipv4Packet (src dst : Ip) (proto : UInt8) (l4 : List UInt8) : List UInt8 :=
  let header (sum : ℕ) := [0x45, 0] ++ be16 (20 + l4.length) ++ [0, 0, 0x40, 0, 64, proto] ++
    be16 sum ++ src.bytes ++ dst.bytes
  header (checksum (header 0)) ++ l4

/-- `l4_checksum`. -/
def l4Checksum (src dst : Ip) (proto : UInt8) (l4 : List UInt8) : ℕ :=
  finish (sum16 l4 (sum16 (src.bytes ++ dst.bytes ++ [0, proto] ++ be16 l4.length) 0))

/-- `icmp_echo_request`. -/
def icmpEchoRequest (src dst : Ip) (ident seq : ℕ) (payload : List UInt8) : List UInt8 :=
  let icmp (sum : ℕ) := [8, 0] ++ be16 sum ++ be16 ident ++ be16 seq ++ payload
  ipv4Packet src dst protoIcmp (icmp (checksum (icmp 0)))

/-- `udp_datagram`. -/
def udpDatagram (src dst : Ip) (sport dport : ℕ) (payload : List UInt8) : List UInt8 :=
  let udp (sum : ℕ) := be16 sport ++ be16 dport ++ be16 (8 + payload.length) ++ be16 sum ++ payload
  ipv4Packet src dst protoUdp (udp (l4Checksum src dst protoUdp (udp 0)))

/-- A TCP segment without options, in its packet. -/
def tcpSegment (src dst : Ip) (sport dport : ℕ) (seq ack : UInt32) (flags : UInt8)
    (payload : List UInt8) : List UInt8 :=
  let tcp (sum : ℕ) := be16 sport ++ be16 dport ++ be32 seq ++ be32 ack ++ [0x50, flags] ++
    be16 64240 ++ be16 sum ++ [0, 0] ++ payload
  ipv4Packet src dst protoTcp (tcp (l4Checksum src dst protoTcp (tcp 0)))

/-- `TcpClient`. -/
structure TcpClient where
  src : Ip
  dst : Ip
  sport : ℕ
  dport : ℕ
  sndNxt : UInt32
  rcvNxt : UInt32
  request : List UInt8
  response : List UInt8
  done : Bool
  established : Bool

namespace TcpClient

/-- `new`. -/
def new (src dst : Ip) (sport dport : ℕ) (request : List UInt8) (rand : UInt32) : TcpClient :=
  ⟨src, dst, sport, dport, max (rand &&& 0x7fffffff) 1, 0, request, [], false, false⟩

/-- `segment`. -/
def segment (c : TcpClient) (flags : UInt8) (payload : List UInt8) : List UInt8 :=
  tcpSegment c.src c.dst c.sport c.dport c.sndNxt c.rcvNxt flags payload

/-- `open`: the SYN. -/
def openConn (c : TcpClient) : TcpClient × List UInt8 :=
  ({ c with sndNxt := c.sndNxt + 1 }, c.segment SYN [])

/-- `owns`. -/
def owns (c : TcpClient) (inner : List UInt8) : Bool :=
  if inner.length < 20 ∨ (inner.getD 0 0).toNat / 16 ≠ 4 ∨ inner.getD 9 0 ≠ protoTcp then false
  else
    let ihl := (inner.getD 0 0).toNat % 16 * 4
    ihl + 4 ≤ inner.length && u16At inner (ihl + 2) = c.sport

/-- A segment after the SYN: its data, and then its FIN. -/
def onSegment (c : TcpClient) (seq : UInt32) (flags : UInt8) (payload : List UInt8) :
    TcpClient × List (List UInt8) :=
  let (c, out) :=
    if payload ≠ [] then
      let c := if seq = c.rcvNxt then
          { c with
            response := c.response ++ payload
            rcvNxt := c.rcvNxt + UInt32.ofNat payload.length }
        else c
      (c, [c.segment ACK []])
    else (c, [])
  if flags &&& FIN ≠ 0 then
    let c := { c with rcvNxt := c.rcvNxt + 1 }
    ({ c with done := true }, out ++ [c.segment ACK [], c.segment (FIN ||| ACK) []])
  else (c, out)

/-- `on_inner`. -/
def onInner (c : TcpClient) (inner : List UInt8) : TcpClient × List (List UInt8) :=
  if !c.owns inner || c.done then (c, [])
  else
    let ihl := (inner.getD 0 0).toNat % 16 * 4
    let total := u16At inner 2
    if total < ihl + 20 ∨ inner.length < total then (c, [])
    else
      let tcp := (inner.take total).drop ihl
      let seq := u32At tcp 4
      let dataOff := (tcp.getD 12 0).toNat / 16 * 4
      let flags := tcp.getD 13 0
      if dataOff < 20 ∨ tcp.length < dataOff then (c, [])
      else if flags &&& SYN ≠ 0 ∧ flags &&& ACK ≠ 0 ∧ c.established = false then
        let c := { c with rcvNxt := seq + 1, established := true }
        ({ c with sndNxt := c.sndNxt + UInt32.ofNat c.request.length },
          [c.segment ACK [], c.segment (PSH ||| ACK) c.request])
      else c.onSegment seq flags (tcp.drop dataOff)

end TcpClient

end Outbound

namespace Proxy

/-- In-tunnel payload of a segment. -/
def proxyMss : ℕ := 1024

/-- `Conn`. -/
structure ProxyConn where
  active : Bool
  clientIp : Ip
  ourIp : Ip
  clientPort : ℕ
  rcvNxt : UInt32
  sndNxt : UInt32
  fetched : Bool

def ProxyConn.default : ProxyConn := ⟨false, ⟨0, 0, 0, 0⟩, ⟨0, 0, 0, 0⟩, 0, 0, 0, false⟩

namespace ProxyConn

/-- `segment`. -/
def segment (c : ProxyConn) (listenPort : ℕ) (flags : UInt8) (payload : List UInt8) : List UInt8 :=
  Outbound.tcpSegment c.ourIp c.clientIp listenPort c.clientPort c.sndNxt c.rcvNxt flags payload

/-- The pieces of the answer, the last one with a FIN. -/
def stream (listenPort : ℕ) : ProxyConn → List (List UInt8) → ProxyConn × List (List UInt8)
  | c, [] => (c, [])
  | c, [last] =>
    ({ c with sndNxt := c.sndNxt + UInt32.ofNat last.length + 1 },
      [c.segment listenPort (PSH ||| ACK ||| FIN) last])
  | c, piece :: rest =>
    let (c', out) := stream listenPort
      { c with sndNxt := c.sndNxt + UInt32.ofNat piece.length } rest
    (c', c.segment listenPort (PSH ||| ACK) piece :: out)

/-- `TcpProxy::handle`, with what the local service answers. -/
def handle (c : ProxyConn) (listenPort : ℕ) (lanFetch : List UInt8 → List UInt8) (iss : UInt32)
    (inner : List UInt8) : ProxyConn × List (List UInt8) :=
  match parsePacket inner with
  | none => (c, [])
  | some p =>
    if p.dport ≠ listenPort then (c, [])
    else if p.flags &&& SYN ≠ 0 then
      let c : ProxyConn := ⟨true, p.srcIp, p.dstIp, p.sport, p.seq + 1, iss, false⟩
      ({ c with sndNxt := c.sndNxt + 1 }, [c.segment listenPort (SYN ||| ACK) []])
    else if !c.active ∨ p.srcIp ≠ c.clientIp ∨ p.sport ≠ c.clientPort then (c, [])
    else if p.flags &&& RST ≠ 0 then (.default, [])
    else if p.payload ≠ [] ∧ c.fetched = false then
      let c := { c with rcvNxt := p.seq + UInt32.ofNat p.payload.length, fetched := true }
      let ack := c.segment listenPort ACK []
      let resp := lanFetch p.payload
      if resp = [] then
        ({ c with sndNxt := c.sndNxt + 1 }, [ack, c.segment listenPort (FIN ||| ACK) []])
      else
        let (c, out) := stream listenPort c (resp.toChunks proxyMss)
        (c, ack :: out)
    else if p.flags &&& FIN ≠ 0 then
      let c := { c with rcvNxt := p.seq + 1 }
      (.default, [c.segment listenPort ACK []])
    else (c, [])

end ProxyConn

end Proxy
