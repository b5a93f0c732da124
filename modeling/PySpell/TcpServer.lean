/-
# The in-tunnel TCP server

`TcpServer` of `tcp.rs`: one connection at a time, a response that is read on demand,
a send window and go-back-N retransmission.  Every function returns the new state
and the packets that it hands to `send`; with each of them the connection as it was
when the packet was made, which only the theorems look at.

The random initial sequence number of a connection is an argument of the packet that
opens it.
-/
import PySpell.Http
import PySpell.Lib.SeqNumber

open Text Http

/-! ## Constants -/

namespace Tcp

def FIN : UInt8 := 0x01
def SYN : UInt8 := 0x02
def RST : UInt8 := 0x04
def PSH : UInt8 := 0x08
def ACK : UInt8 := 0x10

def protoTcp : UInt8 := 6
def httpPort : ℕ := 80

/-- `MSS`. -/
def mss : ℕ := 512
/-- `CWND`. -/
def cwnd : ℕ := 4 * mss
def rtoBaseMs : ℕ := 1000
def rtoMaxMs : ℕ := 8000
def maxConnMs : ℕ := 30000
def maxRtoAttempts : ℕ := 8

end Tcp

/-! ## State -/

/-- An IPv4 address. -/
structure Ip where
  a : UInt8
  b : UInt8
  c : UInt8
  d : UInt8
  deriving DecidableEq, Repr

def Ip.bytes (ip : Ip) : List UInt8 := [ip.a, ip.b, ip.c, ip.d]

/-- `TcpAction`. -/
inductive TcpAction where
  | ledOn | ledOff | screenOn | screenOff | flash | default
  | text (msg : String)
  deriving DecidableEq, Repr

/-- `Conn`. -/
structure Conn where
  active : Bool
  clientIp : Ip
  ourIp : Ip
  clientPort : ℕ
  rcvNxt : UInt32
  iss : UInt32
  /-- The oldest sequence number that is not acknowledged. -/
  sndUna : UInt32
  /-- The next sequence number to send. -/
  sndNxt : UInt32
  peerWin : ℕ
  rtoMs : ℕ
  rtoAttempts : ℕ
  lastSendMs : ℕ
  openedMs : ℕ
  resp : Option RespState

/-- `Conn::default`. -/
def Conn.default : Conn where
  active := false
  clientIp := ⟨0, 0, 0, 0⟩
  ourIp := ⟨0, 0, 0, 0⟩
  clientPort := 0
  rcvNxt := 0
  iss := 0
  sndUna := 0
  sndNxt := 0
  peerWin := 0
  rtoMs := 0
  rtoAttempts := 0
  lastSendMs := 0
  openedMs := 0
  resp := none

/-- `TcpServer`, with the requests that were routed since the connection was opened,
which only the theorems look at. -/
structure TcpServer where
  conn : Conn
  action : Option TcpAction
  handler : Option RouteFn
  requests : List (List UInt8)

/-- A packet that was sent, and the connection that it was made from. -/
structure Sent where
  packet : List UInt8
  conn : Conn

namespace Tcp

/-! ## Segments -/

/-- `u16::to_be_bytes`. -/
def be16 (n : ℕ) : List UInt8 := [UInt8.ofNat (n / 256), UInt8.ofNat n]

/-- `u32::to_be_bytes`. -/
def be32 (x : UInt32) : List UInt8 := be16 (x.toNat / 65536) ++ be16 (x.toNat % 65536)

/-- `sum16`. -/
def sum16 : List UInt8 → ℕ → ℕ
  | a :: b :: s, sum => sum16 s (sum + (a.toNat * 256 + b.toNat))
  | [a], sum => sum + a.toNat * 256
  | [], sum => sum

/-- The loop of `finish`: the carries are folded in. -/
def foldCarries : ℕ → ℕ → ℕ
  | 0, sum => sum
  | fuel + 1, sum =>
    if sum / 65536 ≠ 0 then foldCarries fuel (sum % 65536 + sum / 65536) else sum

/-- `finish`. -/
def finish (sum : ℕ) : ℕ := 0xffff - foldCarries sum sum

/-- `checksum`. -/
def checksum (data : List UInt8) : ℕ := finish (sum16 data 0)

/-- `tcp_checksum`. -/
def tcpChecksum (src dst : Ip) (tcp : List UInt8) : ℕ :=
  let ph := src.bytes ++ dst.bytes ++ [0, protoTcp] ++ be16 tcp.length
  finish (sum16 tcp (sum16 ph 0))

/-- The IPv4 header, around its checksum. -/
def ipHeader (c : Conn) (total sum : ℕ) : List UInt8 :=
  [0x45, 0] ++ be16 total ++ [0, 0, 0x40, 0, 64, protoTcp] ++ be16 sum ++
    c.ourIp.bytes ++ c.clientIp.bytes

/-- The TCP header, around its checksum. -/
def tcpHeader (c : Conn) (flags : UInt8) (sum : ℕ) : List UInt8 :=
  be16 httpPort ++ be16 c.clientPort ++ be32 c.sndNxt ++ be32 c.rcvNxt ++
    [0x50, flags] ++ be16 64240 ++ be16 sum ++ [0, 0]

end Tcp

open Tcp

/-- `segment`. -/
def Conn.segment (c : Conn) (flags : UInt8) (payload : List UInt8) : List UInt8 :=
  let total := 40 + payload.length
  let tcp := tcpHeader c flags 0 ++ payload
  ipHeader c total (checksum (ipHeader c total 0)) ++
    tcpHeader c flags (tcpChecksum c.ourIp c.clientIp tcp) ++ payload

/-- A packet made from the connection. -/
def Conn.send (c : Conn) (flags : UInt8) (payload : List UInt8) : Sent :=
  ⟨c.segment flags payload, c⟩

/-! ## Packets that come in -/

namespace Tcp

/-- `u16::from_be_bytes` at an offset. -/
def u16At (l : List UInt8) (i : ℕ) : ℕ := (l.getD i 0).toNat * 256 + (l.getD (i + 1) 0).toNat

/-- `u32::from_be_bytes` at an offset. -/
def u32At (l : List UInt8) (i : ℕ) : UInt32 := UInt32.ofNat (u16At l i * 65536 + u16At l (i + 2))

def ipAt (l : List UInt8) (i : ℕ) : Ip :=
  ⟨l.getD i 0, l.getD (i + 1) 0, l.getD (i + 2) 0, l.getD (i + 3) 0⟩

/-- What the server reads from a packet. -/
structure Packet where
  srcIp : Ip
  dstIp : Ip
  sport : ℕ
  dport : ℕ
  seq : UInt32
  ack : UInt32
  flags : UInt8
  win : ℕ
  payload : List UInt8

/-- The headers of a packet, if it is IPv4 and TCP and its lengths fit together. -/
def parsePacket (inner : List UInt8) : Option Packet :=
  if inner.length < 20 ∨ (inner.getD 0 0).toNat / 16 ≠ 4 ∨ inner.getD 9 0 ≠ protoTcp then none
  else
    let ihl := (inner.getD 0 0).toNat % 16 * 4
    let total := u16At inner 2
    if ihl < 20 ∨ total < ihl + 20 ∨ inner.length < total then none
    else
      let tcp := (inner.take total).drop ihl
      let dataOff := (tcp.getD 12 0).toNat / 16 * 4
      if dataOff < 20 ∨ tcp.length < dataOff then none
      else some {
        srcIp := ipAt inner 12
        dstIp := ipAt inner 16
        sport := u16At tcp 0
        dport := u16At tcp 2
        seq := u32At tcp 4
        ack := u32At tcp 8
        flags := tcp.getD 13 0
        win := u16At tcp 14
        payload := tcp.drop dataOff }

end Tcp

/-! ## Sending -/

namespace Conn

/-- `send_window`. -/
def sendWindow (c : Conn) : ℕ := min c.peerWin cwnd

/-- The bytes of the response before a sequence number, within `[0, total]`. -/
def bytesBefore (c : Conn) (x : UInt32) : ℕ :=
  let total := c.resp.elim 0 RespState.totalLen
  (max 0 (min (SeqNumber.asI32 (x - c.iss - 1)) total)).toNat

/-- `acked_bytes`. -/
def ackedBytes (c : Conn) : ℕ := c.bytesBefore c.sndUna

/-- `sent_bytes`. -/
def sentBytes (c : Conn) : ℕ := c.bytesBefore c.sndNxt

/-- `read_response`. -/
def readResponse (c : Conn) (abs want : ℕ) : List UInt8 :=
  c.resp.elim [] fun r => r.read abs want

/-- The loop of `pump`, in at most so many steps. -/
def pumpLoop (now window total : ℕ) : ℕ → Conn → Conn × List Sent
  | 0, c => (c, [])
  | fuel + 1, c =>
    let edge := min (c.ackedBytes + window) total
    let next := c.sentBytes
    if edge ≤ next then (c, [])
    else
      let bytes := c.readResponse next (min (edge - next) mss)
      let n := bytes.length
      if n = 0 then (c, [])
      else if total ≤ next + n then
        -- the last segment takes the FIN along, which counts as a byte
        ({ c with
            sndNxt := c.sndNxt + UInt32.ofNat n + 1
            lastSendMs := now
            resp := c.resp.map (·.withFin true) },
          [c.send (PSH ||| ACK ||| FIN) bytes])
      else
        let (c', sent) := pumpLoop now window total fuel
          { c with sndNxt := c.sndNxt + UInt32.ofNat n, lastSendMs := now }
        (c', c.send (PSH ||| ACK) bytes :: sent)

/-- No loop over fewer than `2^31` bytes takes more steps. -/
def pumpFuel : ℕ := 2 ^ 32

/-- `pump`. -/
def pump (c : Conn) (now window : ℕ) : Conn × List Sent :=
  match c.resp with
  | none => (c, [])
  | some r => pumpLoop now window r.totalLen pumpFuel c

/-- What an ACK does: the window, and the oldest number that is not acknowledged. -/
def onAck (c : Conn) (ack : UInt32) (win : ℕ) : Conn :=
  let c := { c with peerWin := win }
  if SeqNumber.lt c.sndUna ack && !SeqNumber.lt c.sndNxt ack then
    { c with
      sndUna := ack
      rtoMs := rtoBaseMs
      rtoAttempts := 0
      -- all of it is acknowledged, the FIN included
      resp := match c.resp with
        | some r => if r.finSent && ack == c.sndNxt then none else some r
        | none => none }
  else c

/-- The connection that a SYN opens, before its answer is sent. -/
def opened (p : Packet) (now : ℕ) (iss : UInt32) : Conn :=
  { Conn.default with
    active := true
    clientIp := p.srcIp
    ourIp := p.dstIp
    clientPort := p.sport
    rcvNxt := p.seq + 1
    iss := iss
    sndUna := iss
    sndNxt := iss
    peerWin := p.win
    rtoMs := rtoBaseMs
    openedMs := now }

/-! ## What the pump does -/

/-- The pieces that the pump sends of a response. -/
inductive Pumps (r : RespState) (now : ℕ) : Conn → Conn × List Sent → Prop
  | stop (c : Conn) : Pumps r now c (c, [])
  /-- The last piece takes the FIN along. -/
  | last (c : Conn) (bytes : List UInt8) (hpos : 0 < bytes.length) (hmss : bytes.length ≤ mss)
      (hlast : c.sentBytes + bytes.length = r.totalLen) :
      Pumps r now c
        ({ c with
            sndNxt := c.sndNxt + UInt32.ofNat bytes.length + 1
            lastSendMs := now
            resp := c.resp.map (·.withFin true) },
          [c.send (PSH ||| ACK ||| FIN) bytes])
  | more (c : Conn) (bytes : List UInt8) (hpos : 0 < bytes.length) (hmss : bytes.length ≤ mss)
      (hmore : c.sentBytes + bytes.length < r.totalLen) (out : Conn × List Sent)
      (hrest : Pumps r now
        { c with sndNxt := c.sndNxt + UInt32.ofNat bytes.length, lastSendMs := now } out) :
      Pumps r now c (out.1, c.send (PSH ||| ACK) bytes :: out.2)

/-- The loop of `pump` takes the steps of the relation, whatever its fuel: it may stop early, but
it does nothing else. -/
theorem pumpLoop_pumps {r : RespState} (now window fuel : ℕ) :
    ∀ {c : Conn}, c.resp = some r → Pumps r now c (c.pumpLoop now window r.totalLen fuel) := by
  induction fuel with
  | zero => exact fun _ => .stop _
  | succ fuel ih =>
    intro c hr
    rw [pumpLoop]
    dsimp only
    split
    · exact .stop c
    next hedge =>
    split
    · exact .stop c
    next hn =>
    have hread : (c.readResponse c.sentBytes
        (min (min (c.ackedBytes + window) r.totalLen - c.sentBytes) mss)).length ≤
        min (min (c.ackedBytes + window) r.totalLen - c.sentBytes) mss := by
      rw [readResponse, hr, Option.elim_some]
      exact (r.read_spec _ _).1
    split
    · exact .last c _ (by omega) (by omega) (by omega)
    · exact .more c _ (by omega) (by omega) (by omega) _ (ih hr)

/-- **What the pump does**: nothing without a response, and pieces of the response. -/
theorem pump_pumps (c : Conn) (now window : ℕ) :
    c.resp = none ∧ c.pump now window = (c, []) ∨
    ∃ r, c.resp = some r ∧ Pumps r now c (c.pump now window) := by
  unfold pump
  cases hr : c.resp with
  | none => exact Or.inl ⟨rfl, rfl⟩
  | some r => exact Or.inr ⟨r, rfl, pumpLoop_pumps now window pumpFuel hr⟩

/-- What the pump leaves as it was. -/
structure Frame (c c' : Conn) : Prop where
  active : c'.active = c.active
  iss : c'.iss = c.iss
  sndUna : c'.sndUna = c.sndUna
  rcvNxt : c'.rcvNxt = c.rcvNxt
  clientPort : c'.clientPort = c.clientPort
  total : c'.resp.map RespState.totalLen = c.resp.map RespState.totalLen

/-- Pumping moves the numbers that are sent, and leaves the peer, the window and what is
acknowledged alone. -/
theorem Pumps.frame {r : RespState} {now : ℕ} {c : Conn} {out : Conn × List Sent}
    (h : Pumps r now c out) : Frame c out.1 := by
  induction h with
  | stop c => exact ⟨rfl, rfl, rfl, rfl, rfl, rfl⟩
  | last c bytes =>
    refine ⟨rfl, rfl, rfl, rfl, rfl, ?_⟩
    rw [Option.map_map]
    rfl
  | more c bytes _ _ _ out _ ih =>
    exact ⟨ih.active, ih.iss, ih.sndUna, ih.rcvNxt, ih.clientPort, ih.total⟩

/-- So does `pump` itself, with or without a response. -/
theorem pump_frame (c : Conn) (now window : ℕ) : Frame c (c.pump now window).1 := by
  rcases c.pump_pumps now window with ⟨-, heq⟩ | ⟨r, -, hpumps⟩
  · rw [heq]
    exact ⟨rfl, rfl, rfl, rfl, rfl, rfl⟩
  · exact hpumps.frame

end Conn

/-! ## Routes -/

namespace Tcp

/-- `ok_page`. -/
def okPage : List UInt8 := utf8 ("<!doctype html><html><head><meta charset=utf-8>" ++
  "<meta http-equiv=refresh content=\"1;url=/\"></head>" ++
  "<body style=\"background:#111;color:#eee;font-family:sans-serif;text-align:center\">" ++
  "<p>OK</p><a href=/ style=color:#9cf>&larr; tilbake</a></body></html>")

/-- `control_page`. -/
def controlPage (ip : Ip) : List UInt8 :=
  let a := ip.a.toNat
  let b := ip.b.toNat
  let c := ip.c.toNat
  let d := ip.d.toNat
  utf8 ("<!doctype html><html><head><meta charset=utf-8>" ++
    "<meta name=viewport content=\"width=device-width,initial-scale=1\">" ++
    "<title>T-Dongle S3</title><style>" ++
    "body\x7bfont-family:sans-serif;background:#111;color:#eee;text-align:center;margin:1em\x7d" ++
    "a,button\x7bdisplay:inline-block;margin:5px;padding:11px 16px;background:#1e88e5;" ++
    "color:#fff;text-decoration:none;border:0;border-radius:7px;font-size:1em\x7d" ++
    "input\x7bpadding:10px;border-radius:7px;border:0;font-size:1em;width:60%\x7d" ++
    "</style></head><body><h2>T-Dongle S3</h2><p>" ++ s!"{a}.{b}.{c}.{d}</p>" ++
    "<a href=/screen/on>Skjerm på</a><a href=/screen/off>Skjerm av</a><br>" ++
    "<a href=/led/on>LED på</a><a href=/led/off>LED av</a><br>" ++
    "<a href=/flash>Blink s/h ×3</a><a href=/default>Standard info</a>" ++
    "<form action=/text><br><input name=msg placeholder=\"Tekst til skjerm\"><br>" ++
    "<button>Vis tekst</button></form></body></html>")

/-- `builtin_route`. -/
def builtinRoute (path query : String) (ourIp : Ip) : List UInt8 × Option TcpAction :=
  if path = "/led/on" then (okPage, some .ledOn)
  else if path = "/led/off" then (okPage, some .ledOff)
  else if path = "/screen/on" then (okPage, some .screenOn)
  else if path = "/screen/off" then (okPage, some .screenOff)
  else if path = "/flash" then (okPage, some .flash)
  else if path = "/default" then (okPage, some .default)
  else if path = "/text" then (okPage, some (.text (urlDecode (queryGet query "msg"))))
  else (controlPage ourIp, none)

/-- Method, path and query of the first line of a request. -/
def requestTarget (req : List UInt8) : String × String × String :=
  let parts := splitChar ' ' (firstLine req)
  let method := parts.getD 0 ""
  let target := parts.getD 1 "/"
  match splitOnce '?' target with
  | some (path, query) => (method, path, query)
  | none => (method, target, "")

end Tcp

namespace TcpServer

/-- `with_handler`, or `new` without one. -/
def new (handler : Option RouteFn) : TcpServer := ⟨Conn.default, none, handler, []⟩

/-- `route_request`. -/
def routeRequest (s : TcpServer) (req : List UInt8) : TcpServer × HttpReply :=
  let (method, path, query) := requestTarget req
  let s := { s with requests := s.requests ++ [req] }
  match s.handler.bind fun h => h method path query (httpBody req) with
  | some reply => (s, reply)
  | none =>
    let (page, action) := builtinRoute path query s.conn.ourIp
    ({ s with action := action }, .okOwned "text/html; charset=utf-8" page)

/-- `build_response`. -/
def buildResponse (s : TcpServer) (req : List UInt8) : TcpServer :=
  let (s, reply) := s.routeRequest req
  { s with conn := { s.conn with resp := some (stageResponse reply req) } }

/-! ## Entry points -/

/-- `process` up to its pump: the state, the packets sent, and whether it goes on to
send what the window admits. -/
def receive (s : TcpServer) (inner : List UInt8) (now : ℕ) (iss : UInt32) :
    TcpServer × List Sent × Bool :=
  match parsePacket inner with
  | none => (s, [], false)
  | some p =>
    if p.dport ≠ httpPort then (s, [], false)
    else if p.flags &&& SYN ≠ 0 then
      let c := Conn.opened p now iss
      ({ s with conn := { c with sndNxt := c.sndNxt + 1 }, requests := [] },
        [c.send (SYN ||| ACK) []], false)
    else if !s.conn.active || p.srcIp ≠ s.conn.clientIp || p.sport ≠ s.conn.clientPort then
      (s, [], false)
    else if p.flags &&& RST ≠ 0 then ({ s with conn := Conn.default }, [], false)
    else
      let s := if p.flags &&& ACK ≠ 0 then { s with conn := s.conn.onAck p.ack p.win } else s
      if p.payload ≠ [] then
        -- the request: route it once
        let s := { s with conn :=
          { s.conn with rcvNxt := p.seq + UInt32.ofNat p.payload.length } }
        (if s.conn.resp.isNone then s.buildResponse p.payload else s, [], true)
      else if p.flags &&& FIN ≠ 0 then
        let c := { s.conn with rcvNxt := p.seq + 1 }
        ({ s with conn := Conn.default }, [c.send ACK []], false)
      else (s, [], true)

/-- `process`; the window is the send window, or without bound for `blast`. -/
def process (s : TcpServer) (inner : List UInt8) (now : ℕ) (iss : UInt32) (blast : Bool) :
    TcpServer × List Sent :=
  match s.receive inner now iss with
  | (s, sent, false) => (s, sent)
  | (s, sent, true) =>
    let window := if blast then 2 ^ 32 - 1 else s.conn.sendWindow
    let (c, more) := s.conn.pump now window
    ({ s with conn := c }, sent ++ more)

/-- `handle_stream`. -/
def handleStream (s : TcpServer) (inner : List UInt8) (now : ℕ) (iss : UInt32) :
    TcpServer × List Sent :=
  s.process inner now iss false

/-- `reset_with_rst`. -/
def resetWithRst (s : TcpServer) : TcpServer × List Sent :=
  ({ s with conn := Conn.default }, [s.conn.send RST []])

/-- The retransmission timer fires. -/
def rtoFires (s : TcpServer) (now : ℕ) : Bool :=
  s.conn.active && !(maxConnMs < now - s.conn.openedMs) && s.conn.resp.isSome &&
    s.conn.sndUna != s.conn.sndNxt && !(now - s.conn.lastSendMs < s.conn.rtoMs)

/-- The timer fires once more than it may. -/
def rtoExhausted (s : TcpServer) : Bool := maxRtoAttempts < min (s.conn.rtoAttempts + 1) 255

/-- `tick`. -/
def tick (s : TcpServer) (now : ℕ) : TcpServer × List Sent :=
  if !s.conn.active then (s, [])
  else if maxConnMs < now - s.conn.openedMs then s.resetWithRst
  else if !s.rtoFires now then (s, [])
  else if s.rtoExhausted then s.resetWithRst
  else
    -- go back to the oldest number that is not acknowledged
    let c : Conn := { s.conn with
      rtoAttempts := min (s.conn.rtoAttempts + 1) 255
      rtoMs := min (s.conn.rtoMs * 2) rtoMaxMs
      sndNxt := s.conn.sndUna
      resp := s.conn.resp.map (·.withFin false) }
    let (c, sent) := c.pump now (max c.sendWindow 1)
    ({ s with conn := c }, sent)

/-- A timer asks for no action of the device. -/
theorem action_tick (s : TcpServer) (now : ℕ) : (s.tick now).1.action = s.action := by
  unfold tick
  split_ifs
  · rfl
  · rfl
  · rfl
  · rfl
  · rfl

/-- `take_action`. -/
def takeAction (s : TcpServer) : TcpServer × Option TcpAction := ({ s with action := none }, s.action)

/-! ## What a packet does -/

/-- A packet belongs to the connection. -/
def Matches (s : TcpServer) (p : Packet) : Prop :=
  s.conn.active = true ∧ p.srcIp = s.conn.clientIp ∧ p.sport = s.conn.clientPort

instance (s : TcpServer) (p : Packet) : Decidable (s.Matches p) :=
  inferInstanceAs (Decidable (_ ∧ _ ∧ _))

/-- The packet that opens a connection. -/
def opening (inner : List UInt8) : Option Packet :=
  (parsePacket inner).filter fun p => p.dport = httpPort ∧ p.flags &&& SYN ≠ 0

/-- The packet that the connection takes. -/
def taking (s : TcpServer) (inner : List UInt8) : Option Packet :=
  (parsePacket inner).filter fun p =>
    p.dport = httpPort ∧ p.flags &&& SYN = 0 ∧ s.Matches p ∧ p.flags &&& RST = 0

/-- The packets that the connection takes: for the port, of the connection, and
neither a SYN nor a RST. -/
structure Takes (s : TcpServer) (inner : List UInt8) (p : Packet) : Prop where
  parsed : parsePacket inner = some p
  port : p.dport = httpPort
  noSyn : p.flags &&& SYN = 0
  matched : s.Matches p
  noRst : p.flags &&& RST = 0

/-- Exactly the SYNs to the port of the server open a connection. -/
theorem opening_eq_some {inner : List UInt8} {p : Packet} :
    opening inner = some p ↔
      parsePacket inner = some p ∧ p.dport = httpPort ∧ p.flags &&& SYN ≠ 0 := by
  rw [opening, Option.filter_eq_some_iff, decide_eq_true_iff]

/-- The check that the connection makes of a packet, as a property. -/
theorem taking_eq_some {s : TcpServer} {inner : List UInt8} {p : Packet} :
    s.taking inner = some p ↔ s.Takes inner p := by
  rw [taking, Option.filter_eq_some_iff, decide_eq_true_iff]
  constructor
  · rintro ⟨hp, hport, hsyn, hmatch, hrst⟩
    exact ⟨hp, hport, hsyn, hmatch, hrst⟩
  · rintro ⟨hp, hport, hsyn, hmatch, hrst⟩
    exact ⟨hp, hport, hsyn, hmatch, hrst⟩

/-- A packet that is taken opens nothing. -/
theorem Takes.opening_eq_none {s : TcpServer} {inner : List UInt8} {p : Packet}
    (h : s.Takes inner p) : opening inner = none := by
  rw [opening, h.parsed, Option.filter_some, if_neg]
  rw [decide_eq_true_iff]
  rintro ⟨-, hsyn⟩
  exact hsyn h.noSyn

/-- The server after the ACK field of a packet. -/
def afterAck (s : TcpServer) (p : Packet) : TcpServer :=
  if p.flags &&& ACK ≠ 0 then { s with conn := s.conn.onAck p.ack p.win } else s

/-- The server after the sequence number and the data of a packet. -/
def afterData (s : TcpServer) (p : Packet) : TcpServer :=
  { s with conn := { s.conn with rcvNxt := p.seq + UInt32.ofNat p.payload.length } }

/-- The answer to a FIN. -/
def finAnswer (s : TcpServer) (p : Packet) : Sent :=
  Conn.send { s.conn with rcvNxt := p.seq + 1 } ACK []

/-! ### The cases of a segment -/

/-- What `receive` can do. -/
inductive Receives (s : TcpServer) (inner : List UInt8) (now : ℕ) (iss : UInt32) :
    TcpServer × List Sent × Bool → Prop
  | ignored (hopen : opening inner = none) (htake : s.taking inner = none) :
      Receives s inner now iss (s, [], false)
  | opened (p : Packet) (hopen : opening inner = some p) :
      Receives s inner now iss
        ({ s with
            conn := { Conn.opened p now iss with sndNxt := iss + 1 }
            requests := [] },
          [(Conn.opened p now iss).send (SYN ||| ACK) []], false)
  | reset (hopen : opening inner = none) (htake : s.taking inner = none) :
      Receives s inner now iss ({ s with conn := Conn.default }, [], false)
  | routed (p : Packet) (ht : s.Takes inner p) (hdata : p.payload ≠ [])
      (hresp : (s.afterAck p).conn.resp = none) :
      Receives s inner now iss (((s.afterAck p).afterData p).buildResponse p.payload, [], true)
  | data (p : Packet) (r : RespState) (ht : s.Takes inner p) (hdata : p.payload ≠ [])
      (hresp : (s.afterAck p).conn.resp = some r) :
      Receives s inner now iss ((s.afterAck p).afterData p, [], true)
  | closed (p : Packet) (ht : s.Takes inner p) (hdata : p.payload = [])
      (hfin : p.flags &&& FIN ≠ 0) :
      Receives s inner now iss
        ({ s.afterAck p with conn := Conn.default }, [(s.afterAck p).finAnswer p], false)
  | ack (p : Packet) (ht : s.Takes inner p) (hdata : p.payload = [])
      (hfin : p.flags &&& FIN = 0) :
      Receives s inner now iss (s.afterAck p, [], true)

/-- **What a packet does before the pump.** -/
theorem receives (s : TcpServer) (inner : List UInt8) (now : ℕ) (iss : UInt32) :
    s.Receives inner now iss (s.receive inner now iss) := by
  -- what is no SYN to the port opens nothing
  have hnone : ∀ p, parsePacket inner = some p → ¬ (p.dport = httpPort ∧ p.flags &&& SYN ≠ 0) →
      opening inner = none := by
    intro p hp hno
    rw [opening, hp, Option.filter_some, if_neg]
    rwa [decide_eq_true_iff]
  have hnot : ∀ p, parsePacket inner = some p → ¬ s.Takes inner p → s.taking inner = none := by
    intro p hp hno
    cases htake : s.taking inner with
    | none => rfl
    | some q =>
      have hq := taking_eq_some.mp htake
      have hqp : q = p := Option.some_inj.mp (hq.parsed.symm.trans hp)
      rw [hqp] at hq
      exact absurd hq hno
  -- the checks of `receive`, in their order
  unfold receive
  split
  · next hp =>
    refine .ignored ?_ ?_
    · rw [opening, hp, Option.filter_none]
    · rw [taking, hp, Option.filter_none]
  next p hp =>
  split
  · next hport => exact .ignored (hnone p hp fun h => hport h.1) (hnot p hp fun h => hport h.port)
  next hport =>
  rw [ne_eq, not_not] at hport
  split
  · next hsyn => exact .opened p (opening_eq_some.mpr ⟨hp, hport, hsyn⟩)
  next hsyn =>
  have hopen := hnone p hp fun h => hsyn h.2
  rw [ne_eq, not_not] at hsyn
  split
  · next hmatch =>
    refine .ignored hopen (hnot p hp fun h => ?_)
    obtain ⟨hactive, hip, hsport⟩ := h.matched
    simp [hactive, hip, hsport] at hmatch
  -- a segment of the open connection
  next hmatch =>
  have hm : s.Matches p := by
    simp only [Bool.or_eq_true, Bool.not_eq_true', decide_eq_true_iff, not_or, not_not,
      Bool.not_eq_false, ne_eq] at hmatch
    exact ⟨hmatch.1.1, hmatch.1.2, hmatch.2⟩
  split
  · next hrst => exact .reset hopen (hnot p hp fun h => hrst h.noRst)
  next hrst =>
  rw [ne_eq, not_not] at hrst
  have ht : s.Takes inner p := ⟨hp, hport, hsyn, hm, hrst⟩
  dsimp only
  -- what is left is its data or its FIN
  change Receives s inner now iss (if p.payload ≠ [] then
      (if ((s.afterAck p).afterData p).conn.resp.isNone then
        ((s.afterAck p).afterData p).buildResponse p.payload else (s.afterAck p).afterData p, [], true)
    else if p.flags &&& FIN ≠ 0 then
      ({ s.afterAck p with conn := Conn.default }, [(s.afterAck p).finAnswer p], false)
    else (s.afterAck p, [], true))
  have hsame : ((s.afterAck p).afterData p).conn.resp = (s.afterAck p).conn.resp := rfl
  split
  · next hdata =>
    cases hresp : (s.afterAck p).conn.resp with
    | none =>
      rw [hsame, hresp]
      exact .routed p ht hdata hresp
    | some r =>
      rw [hsame, hresp]
      exact .data p r ht hdata hresp
  next hdata =>
  rw [ne_eq, not_not] at hdata
  split
  · next hfin => exact .closed p ht hdata hfin
  next hfin =>
  rw [ne_eq, not_not] at hfin
  exact .ack p ht hdata hfin

/-- Routing a request stages a response, and touches nothing else of the connection. -/
theorem buildResponse_eq (s : TcpServer) (req : List UInt8) :
    ∃ r action, s.buildResponse req =
      { s with
        conn := { s.conn with resp := some r }
        action := action
        requests := s.requests ++ [req] } := by
  unfold buildResponse routeRequest
  dsimp only
  split
  · exact ⟨_, _, rfl⟩
  · exact ⟨_, _, rfl⟩

end TcpServer
