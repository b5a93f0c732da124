/-
# Sessions with the TCP server

Packets arrive and the timer ticks, in any order and at any times.  `Session` is the
server with the history that the theorems speak of: every packet that was sent, and of
the connection that is open the client's initial sequence number, the packets that it
took, those among them that were routed, and what was sent on it.

`Session.steps` says once what an event can do; the invariants are derived from it.
-/
import PySpell.TcpServer
import PySpell.Lib.Runs

open Text Http Tcp Runs SeqNumber

/-! ## Reading a packet that was sent -/

namespace Tcp

/-- The sequence number of a packet that the server made. -/
def seqOf (packet : List UInt8) : UInt32 := u32At packet 24

def ackOf (packet : List UInt8) : UInt32 := u32At packet 28

def flagsOf (packet : List UInt8) : UInt8 := packet.getD 33 0

def payloadOf (packet : List UInt8) : List UInt8 := packet.drop 40

/-- The number after the data of a packet: that of its FIN, if it has one. -/
def dataEnd (packet : List UInt8) : UInt32 :=
  seqOf packet + UInt32.ofNat (payloadOf packet).length

/-- The number after a packet: its data, and its SYN and its FIN, which count as a
byte each. -/
def endSeq (packet : List UInt8) : UInt32 :=
  dataEnd packet + UInt32.ofNat ((if flagsOf packet &&& SYN ≠ 0 then 1 else 0) +
    (if flagsOf packet &&& FIN ≠ 0 then 1 else 0))

/-- A number of 32 bits is read back from its four bytes. -/
theorem u32_of_be32 (x : UInt32) :
    UInt32.ofNat (((UInt8.ofNat (x.toNat / 65536 / 256)).toNat * 256 +
        (UInt8.ofNat (x.toNat / 65536)).toNat) * 65536 +
      ((UInt8.ofNat (x.toNat % 65536 / 256)).toNat * 256 +
        (UInt8.ofNat (x.toNat % 65536)).toNat)) = x := by
  have hx := x.toNat_lt
  apply UInt32.toNat_inj.mp
  rw [UInt32.toNat_ofNat']
  simp only [UInt8.toNat_ofNat']
  omega

/-- A segment carries the number that is sent next. -/
theorem seqOf_segment (c : Conn) (flags : UInt8) (payload : List UInt8) :
    seqOf (c.segment flags payload) = c.sndNxt := u32_of_be32 c.sndNxt

/-- A segment acknowledges the number that is expected next, whatever it is sent for. -/
theorem ackOf_segment (c : Conn) (flags : UInt8) (payload : List UInt8) :
    ackOf (c.segment flags payload) = c.rcvNxt := u32_of_be32 c.rcvNxt

/-- The flags of a segment are read back where the receiver looks for them. -/
theorem flagsOf_segment (c : Conn) (flags : UInt8) (payload : List UInt8) :
    flagsOf (c.segment flags payload) = flags := rfl

/-- So are its bytes: the header is twenty bytes behind the twenty of IPv4. -/
theorem payloadOf_segment (c : Conn) (flags : UInt8) (payload : List UInt8) :
    payloadOf (c.segment flags payload) = payload := rfl

end Tcp

/-! ## Packets of a client -/

namespace Tcp

/-- The bytes of a packet for the server, its checksums left out: the server does not
read them. -/
def Packet.bytes (p : Packet) : List UInt8 :=
  [0x45, 0] ++ (be16 (40 + p.payload.length) ++ ([0, 0, 0, 0, 64, protoTcp, 0, 0] ++
    (p.srcIp.bytes ++ (p.dstIp.bytes ++ (be16 p.sport ++ (be16 p.dport ++ (be32 p.seq ++
    (be32 p.ack ++ ([0x50, p.flags] ++ (be16 p.win ++ ([0, 0, 0, 0] ++ p.payload)))))))))))

/-- A field of two bytes is below 65536, also beyond the end of the packet. -/
theorem u16At_lt (l : List UInt8) (i : ℕ) : u16At l i < 65536 := by
  have h0 := (l.getD i 0).toNat_lt
  have h1 := (l.getD (i + 1) 0).toNat_lt
  unfold u16At
  omega

/-- A number behind a first part. -/
theorem u16At_append (pre l : List UInt8) (i : ℕ) :
    u16At (pre ++ l) (pre.length + i) = u16At l i := by
  have hget : ∀ j, (pre ++ l).getD (pre.length + j) 0 = l.getD j 0 := by
    intro j
    rw [List.getD_eq_getElem?_getD, List.getElem?_append_right (Nat.le_add_right _ _),
      Nat.add_sub_cancel_left, List.getD_eq_getElem?_getD]
  unfold u16At
  rw [hget, Nat.add_assoc, hget]

/-- The port of a parsed packet fits its field. -/
theorem sport_lt {inner : List UInt8} {p : Packet} (h : parsePacket inner = some p) :
    p.sport < 65536 := by
  unfold parsePacket at h
  split at h
  · cases h
  dsimp only at h
  split at h
  · cases h
  split at h
  · cases h
  rw [← Option.some_inj.mp h]
  exact u16At_lt _ _

/-- A packet carries fewer bytes than the total length of IPv4 can count; sequence arithmetic
needs it. -/
theorem payload_lt {inner : List UInt8} {p : Packet} (h : parsePacket inner = some p) :
    p.payload.length < 65536 := by
  have htotal := u16At_lt inner 2
  unfold parsePacket at h
  split at h
  · cases h
  dsimp only at h
  split at h
  · cases h
  split at h
  · cases h
  rw [← Option.some_inj.mp h]
  dsimp only
  rw [List.length_drop, List.length_drop, List.length_take]
  omega

/-- A number of 16 bits is read back from its two bytes. -/
theorem u16_of_be16 {n : ℕ} (h : n < 65536) :
    (UInt8.ofNat (n / 256)).toNat * 256 + (UInt8.ofNat n).toNat = n := by
  simp only [UInt8.toNat_ofNat']
  omega

/-- A packet is its two headers without options, and its payload. -/
theorem Packet.length_bytes (p : Packet) : p.bytes.length = 40 + p.payload.length := by
  simp only [bytes, List.length_append, Ip.bytes, be16, be32, List.length_cons, List.length_nil]
  omega

/-- The server reads the packet back. -/
theorem parsePacket_bytes {p : Packet} (hlen : 40 + p.payload.length < 65536)
    (hsport : p.sport < 65536) (hdport : p.dport < 65536) (hwin : p.win < 65536) :
    parsePacket p.bytes = some p := by
  have hversion : p.bytes.getD 0 0 = 0x45 := rfl
  have hproto : p.bytes.getD 9 0 = protoTcp := rfl
  have hoff : (p.bytes.drop 20).getD 12 0 = 0x50 := rfl
  have hflags : (p.bytes.drop 20).getD 13 0 = p.flags := rfl
  have hpayload : (p.bytes.drop 20).drop 20 = p.payload := rfl
  have hsrc : ipAt p.bytes 12 = p.srcIp := rfl
  have hdst : ipAt p.bytes 16 = p.dstIp := rfl
  have htotal : u16At p.bytes 2 = 40 + p.payload.length := u16_of_be16 hlen
  have hsp : u16At (p.bytes.drop 20) 0 = p.sport := u16_of_be16 hsport
  have hdp : u16At (p.bytes.drop 20) 2 = p.dport := u16_of_be16 hdport
  have hw : u16At (p.bytes.drop 20) 14 = p.win := u16_of_be16 hwin
  have hseq : u32At (p.bytes.drop 20) 4 = p.seq := u32_of_be32 p.seq
  have hack : u32At (p.bytes.drop 20) 8 = p.ack := u32_of_be32 p.ack
  have hbytes : p.bytes.length = 40 + p.payload.length := p.length_bytes
  have hihl : (0x45 : UInt8).toNat % 16 * 4 = 20 := by decide
  have hdataOff : (0x50 : UInt8).toNat / 16 * 4 = 20 := by decide
  have hfour : (0x45 : UInt8).toNat / 16 = 4 := by decide
  generalize p.bytes = b at *
  have htake : b.take (40 + p.payload.length) = b := List.take_of_length_le (by omega)
  have hdrop : (b.drop 20).length = 20 + p.payload.length := by
    rw [List.length_drop]
    omega
  unfold parsePacket
  rw [hversion, hproto, hfour, if_neg (by rintro (h | h | h) <;> [omega; exact h rfl; exact h rfl])]
  dsimp only
  rw [hihl, htotal, htake, if_neg (by omega), hoff, hdataOff, hdrop, if_neg (by omega)]
  rw [hsrc, hdst, hsp, hdp, hseq, hack, hflags, hw, hpayload]

end Tcp

/-! ## Events -/

/-- An event of a server. -/
inductive TcpEvent where
  /-- A packet at a time; a connection that it opens starts from this number. -/
  | packet (inner : List UInt8) (now : ℕ) (iss : UInt32)
  | tick (now : ℕ)

namespace TcpServer

/-- A packet that is taken is routed. -/
def routes (s : TcpServer) (p : Packet) : Bool :=
  p.payload ≠ [] && (s.afterAck p).conn.resp.isNone

/-- The response that an event stages. -/
def staged (s : TcpServer) : TcpEvent → Option RespState
  | .packet inner _ _ => (s.taking inner).bind fun p =>
    if s.routes p then (((s.afterAck p).afterData p).buildResponse p.payload).conn.resp else none
  | .tick _ => none

/-- The response that is staged when a request is routed is the one that `build_response` makes of
its payload. -/
theorem staged_of_routes {s : TcpServer} {inner : List UInt8} {p : Packet}
    (ht : s.Takes inner p) (hroutes : s.routes p = true) (now : ℕ) (iss : UInt32) :
    s.staged (.packet inner now iss) =
      (((s.afterAck p).afterData p).buildResponse p.payload).conn.resp := by
  rw [staged, taking_eq_some.mpr ht, Option.bind_some, if_pos hroutes]

/-- The server sends what the window admits. -/
def pumped (s : TcpServer) (now window : ℕ) : TcpServer × List Sent :=
  ({ s with conn := (s.conn.pump now window).1 }, (s.conn.pump now window).2)

/-- When `receive` asks for it, the connection is pumped within the client's window. -/
theorem handleStream_of_pumps {s t : TcpServer} {inner : List UInt8} {now : ℕ} {iss : UInt32}
    (h : s.receive inner now iss = (t, [], true)) :
    s.handleStream inner now iss = t.pumped now t.conn.sendWindow := by
  unfold handleStream process
  rw [h]
  rfl

/-- Otherwise what `receive` sends is all that is sent. -/
theorem handleStream_of_stops {s t : TcpServer} {inner : List UInt8} {now : ℕ} {iss : UInt32}
    {sent : List Sent} (h : s.receive inner now iss = (t, sent, false)) :
    s.handleStream inner now iss = (t, sent) := by
  unfold handleStream process
  rw [h]

/-- The server after a timeout: it goes back to the oldest number that is not
acknowledged. -/
def rewound (s : TcpServer) : TcpServer :=
  { s with conn := { s.conn with
      rtoAttempts := min (s.conn.rtoAttempts + 1) 255
      rtoMs := min (s.conn.rtoMs * 2) rtoMaxMs
      sndNxt := s.conn.sndUna
      resp := s.conn.resp.map (·.withFin false) } }

/-- The server without a connection. -/
def closed (s : TcpServer) : TcpServer := { s with conn := Conn.default }

/-- What the server makes of a packet that is taken, before the pump. -/
theorem Takes.receive_eq {s : TcpServer} {inner : List UInt8} {p : Packet}
    (ht : s.Takes inner p) (now : ℕ) (iss : UInt32) :
    s.receive inner now iss =
      if p.payload ≠ [] then
        (if (s.afterAck p).conn.resp.isNone then
            ((s.afterAck p).afterData p).buildResponse p.payload
          else (s.afterAck p).afterData p, [], true)
      else if p.flags &&& FIN ≠ 0 then
        ((s.afterAck p).closed, [(s.afterAck p).finAnswer p], false)
      else (s.afterAck p, [], true) := by
  obtain ⟨hparsed, hport, hsyn, ⟨hactive, hip, hsport⟩, hrst⟩ := ht
  have hmatch : ¬(!s.conn.active || decide (p.srcIp ≠ s.conn.clientIp) ||
      decide (p.sport ≠ s.conn.clientPort)) = true := by
    simp [hactive, hip, hsport]
  rw [receive, hparsed]
  dsimp only
  rw [if_neg fun h => h hport, if_neg fun h => h hsyn, if_neg hmatch, if_neg fun h => h hrst]
  rfl

/-- A SYN opens a connection. -/
theorem handleStream_syn {s : TcpServer} {inner : List UInt8} {p : Packet}
    (hopen : opening inner = some p) (now : ℕ) (iss : UInt32) :
    s.handleStream inner now iss =
      ({ s with conn := { Conn.opened p now iss with sndNxt := iss + 1 }, requests := [] },
        [(Conn.opened p now iss).send (SYN ||| ACK) []]) := by
  obtain ⟨hparsed, hport, hsyn⟩ := opening_eq_some.mp hopen
  have hreceive : s.receive inner now iss =
      ({ s with conn := { Conn.opened p now iss with sndNxt := iss + 1 }, requests := [] },
        [(Conn.opened p now iss).send (SYN ||| ACK) []], false) := by
    rw [receive, hparsed]
    dsimp only
    rw [if_neg fun h => h hport, if_pos hsyn]
    rfl
  exact handleStream_of_stops hreceive

/-- The first request stages a response, and the pump follows. -/
theorem Takes.handleStream_request {s : TcpServer} {inner : List UInt8} {p : Packet}
    (ht : s.Takes inner p) (hdata : p.payload ≠ []) (hnone : (s.afterAck p).conn.resp = none)
    (now : ℕ) (iss : UInt32) :
    s.handleStream inner now iss =
      (((s.afterAck p).afterData p).buildResponse p.payload).pumped now
        (((s.afterAck p).afterData p).buildResponse p.payload).conn.sendWindow := by
  refine handleStream_of_pumps ?_
  rw [ht.receive_eq, if_pos hdata, hnone]
  rfl

/-- After an acknowledgement without data the pump goes on. -/
theorem Takes.handleStream_ack {s : TcpServer} {inner : List UInt8} {p : Packet}
    (ht : s.Takes inner p) (hnil : p.payload = []) (hfin : p.flags &&& FIN = 0) (now : ℕ)
    (iss : UInt32) :
    s.handleStream inner now iss = (s.afterAck p).pumped now (s.afterAck p).conn.sendWindow := by
  refine handleStream_of_pumps ?_
  rw [ht.receive_eq, if_neg fun h => h hnil, if_neg fun h => h hfin]

/-- A FIN without data closes the connection. -/
theorem Takes.handleStream_fin {s : TcpServer} {inner : List UInt8} {p : Packet}
    (ht : s.Takes inner p) (hnil : p.payload = []) (hfin : p.flags &&& FIN ≠ 0) (now : ℕ)
    (iss : UInt32) :
    s.handleStream inner now iss = ((s.afterAck p).closed, [(s.afterAck p).finAnswer p]) := by
  refine handleStream_of_stops ?_
  rw [ht.receive_eq, if_neg fun h => h hnil, if_pos hfin]

/-- **What becomes of a packet that is taken**: it closes the connection, or the pump
follows the ACK and the data. -/
theorem Takes.handleStream_eq {s : TcpServer} {inner : List UInt8} {p : Packet}
    (ht : s.Takes inner p) (now : ℕ) (iss : UInt32) :
    (p.payload = [] ∧ p.flags &&& FIN ≠ 0 ∧
      s.handleStream inner now iss = ((s.afterAck p).closed, [(s.afterAck p).finAnswer p])) ∨
    ∃ t : TcpServer, t.conn.active = (s.afterAck p).conn.active ∧
      t.conn.sndUna = (s.afterAck p).conn.sndUna ∧
      s.handleStream inner now iss = t.pumped now t.conn.sendWindow := by
  by_cases hdata : p.payload = []
  · by_cases hfin : p.flags &&& FIN = 0
    · exact .inr ⟨_, rfl, rfl, ht.handleStream_ack hdata hfin now iss⟩
    · exact .inl ⟨hdata, hfin, ht.handleStream_fin hdata hfin now iss⟩
  · cases hresp : (s.afterAck p).conn.resp with
    | none =>
      obtain ⟨r, action, heq⟩ := ((s.afterAck p).afterData p).buildResponse_eq p.payload
      refine .inr ⟨_, ?_, ?_, ht.handleStream_request hdata hresp now iss⟩
      · rw [heq]
        rfl
      · rw [heq]
        rfl
    | some r =>
      refine .inr ⟨(s.afterAck p).afterData p, rfl, rfl, handleStream_of_pumps ?_⟩
      rw [ht.receive_eq, if_pos hdata, hresp]
      rfl

end TcpServer

open TcpServer

/-! ## Positions -/

namespace Conn

/-- The position of a number in the data of the connection. -/
abbrev rel (c : Conn) (x : UInt32) : ℤ := pos (c.iss + 1) x

/-- The server reads a position within the bounds of the response. -/
theorem bytesBefore_pos {c : Conn} {r : RespState} (hr : c.resp = some r) (x : UInt32) :
    (c.bytesBefore x : ℤ) = max 0 (min (c.rel x) r.totalLen) := by
  have hsub : x - c.iss - 1 = x - (c.iss + 1) := by
    apply UInt32.toNat_inj.mp
    have h1 := x.toNat_lt
    have h2 := c.iss.toNat_lt
    have hone : (1 : UInt32).toNat = 1 := rfl
    rw [UInt32.toNat_sub, UInt32.toNat_sub, UInt32.toNat_sub, UInt32.toNat_add, hone]
    omega
  rw [bytesBefore, hr, hsub, Option.elim_some]
  change ((max 0 (min (c.rel x) r.totalLen)).toNat : ℤ) = _
  omega

/-- What an ACK leaves as it was; and it may free the response. -/
theorem onAck_spec (c : Conn) (ack : UInt32) (win : ℕ) :
    (c.onAck ack win).iss = c.iss ∧ (c.onAck ack win).sndNxt = c.sndNxt ∧
      (∀ r, (c.onAck ack win).resp = some r → c.resp = some r) ∧
      (c.onAck ack win).active = c.active ∧ (c.onAck ack win).clientPort = c.clientPort ∧
      (c.onAck ack win).rcvNxt = c.rcvNxt := by
  unfold onAck
  dsimp only
  split
  · refine ⟨rfl, rfl, fun r hr => ?_, rfl, rfl, rfl⟩
    cases hresp : c.resp with
    | none =>
      rw [hresp] at hr
      cases hr
    | some r' =>
      rw [hresp] at hr
      dsimp only at hr
      split at hr
      · cases hr
      · exact hr
  · exact ⟨rfl, rfl, fun r hr => hr, rfl, rfl, rfl⟩

/-- The oldest number after an ACK: the acknowledged one, if it is accepted. -/
theorem sndUna_onAck (c : Conn) (ack : UInt32) (win : ℕ) :
    (c.onAck ack win).sndUna =
      if SeqNumber.lt c.sndUna ack && !SeqNumber.lt c.sndNxt ack then ack else c.sndUna := by
  unfold onAck
  dsimp only
  split
  · rfl
  · rfl

/-- **An ACK that is accepted moves the oldest number forward**, up to the next one. -/
theorem rel_onAck {c : Conn} (hle : c.rel c.sndUna ≤ c.rel c.sndNxt) (ack : UInt32) (win : ℕ) :
    c.rel c.sndUna ≤ c.rel (c.onAck ack win).sndUna ∧
      c.rel (c.onAck ack win).sndUna ≤ c.rel c.sndNxt := by
  rw [sndUna_onAck]
  split
  · next hack =>
    rw [Bool.and_eq_true, Bool.not_eq_true'] at hack
    have hpos := pos_of_ack (b := c.iss + 1) hle hack.1 hack.2
    exact ⟨hpos.1.le, hpos.2⟩
  · exact ⟨le_rfl, hle⟩

end Conn

/-! ## Sessions -/

/-- A server, and what happened to it. -/
structure Session where
  server : TcpServer
  /-- Every packet that was sent. -/
  sent : List Sent
  /-- The client's initial sequence number. -/
  isn : UInt32
  /-- The packets that the connection took. -/
  taken : List Packet
  /-- Those that were routed. -/
  routed : List Packet
  /-- The packets that were sent on the connection. -/
  flow : List Sent

namespace Session

/-- A server that nothing has happened to. -/
def start (handler : Option RouteFn) : Session := ⟨TcpServer.new handler, [], 0, [], [], []⟩

/-- The server goes on, and sends. -/
def emit (x : Session) (out : TcpServer × List Sent) : Session :=
  { x with server := out.1, sent := x.sent ++ out.2, flow := x.flow ++ out.2 }

/-- A packet is taken. -/
def take (x : Session) (p : Packet) : Session :=
  { x with
    taken := x.taken ++ [p]
    routed := if x.server.routes p then x.routed ++ [p] else x.routed }

/-- A connection is opened. -/
def renew (x : Session) (p : Packet) : Session :=
  { x with isn := p.seq, taken := [], routed := [], flow := [] }

/-- What a packet adds to the history. -/
def note (x : Session) (inner : List UInt8) : Session :=
  match opening inner with
  | some p => x.renew p
  | none =>
    match x.server.taking inner with
    | some p => x.take p
    | none => x

/-- One event. -/
def onEvent (x : Session) : TcpEvent → Session
  | .packet inner now iss => (x.note inner).emit (x.server.handleStream inner now iss)
  | .tick now => x.emit (x.server.tick now)

def step (x : Session) (e : TcpEvent) : Option Session := some (x.onEvent e)

/-- What an event can do. -/
inductive Steps (x : Session) : TcpEvent → Session → Prop
  | ignored (e : TcpEvent) : Steps x e x
  | opened (inner : List UInt8) (now : ℕ) (iss : UInt32) (p : Packet)
      (hp : opening inner = some p) :
      Steps x (.packet inner now iss) ((x.renew p).emit
        ({ x.server with
            conn := { Conn.opened p now iss with sndNxt := iss + 1 }
            requests := [] },
          [(Conn.opened p now iss).send (SYN ||| ACK) []]))
  | reset (inner : List UInt8) (now : ℕ) (iss : UInt32) :
      Steps x (.packet inner now iss) (x.emit (x.server.closed, []))
  | routed (inner : List UInt8) (now : ℕ) (iss : UInt32) (p : Packet)
      (ht : x.server.Takes inner p) (hroutes : x.server.routes p = true) (s : TcpServer)
      (hs : s = ((x.server.afterAck p).afterData p).buildResponse p.payload) :
      Steps x (.packet inner now iss) ((x.take p).emit (s.pumped now s.conn.sendWindow))
  | data (inner : List UInt8) (now : ℕ) (iss : UInt32) (p : Packet)
      (ht : x.server.Takes inner p) (hroutes : x.server.routes p = false)
      (hdata : p.payload ≠ []) (s : TcpServer) (hs : s = (x.server.afterAck p).afterData p) :
      Steps x (.packet inner now iss) ((x.take p).emit (s.pumped now s.conn.sendWindow))
  | closed (inner : List UInt8) (now : ℕ) (iss : UInt32) (p : Packet)
      (ht : x.server.Takes inner p) (hroutes : x.server.routes p = false)
      (hdata : p.payload = []) (hfin : p.flags &&& FIN ≠ 0) :
      Steps x (.packet inner now iss)
        ((x.take p).emit ((x.server.afterAck p).closed, [(x.server.afterAck p).finAnswer p]))
  | ack (inner : List UInt8) (now : ℕ) (iss : UInt32) (p : Packet)
      (ht : x.server.Takes inner p) (hroutes : x.server.routes p = false)
      (hdata : p.payload = []) (hfin : p.flags &&& FIN = 0) (s : TcpServer)
      (hs : s = x.server.afterAck p) :
      Steps x (.packet inner now iss) ((x.take p).emit (s.pumped now s.conn.sendWindow))
  | rst (now : ℕ) (hactive : x.server.conn.active = true) :
      Steps x (.tick now) (x.emit (x.server.closed, [x.server.conn.send RST []]))
  | resent (now : ℕ) (hfires : x.server.rtoFires now = true)
      (hexh : x.server.rtoExhausted = false) (s : TcpServer) (hs : s = x.server.rewound) :
      Steps x (.tick now) (x.emit (s.pumped now (max s.conn.sendWindow 1)))

/-! ### Its steps are steps of the relation -/

/-- A step that sends nothing and keeps the server keeps the session. -/
theorem emit_nil (x : Session) : x.emit (x.server, []) = x := by
  rw [emit, List.append_nil, List.append_nil]

/-- A packet that opens a connection starts the ghost record of a new one. -/
theorem note_of_opening {x : Session} {inner : List UInt8} {p : Packet}
    (h : opening inner = some p) : x.note inner = x.renew p := by
  rw [note, h]

/-- A packet that the connection takes is recorded. -/
theorem note_of_takes {x : Session} {inner : List UInt8} {p : Packet}
    (h : x.server.Takes inner p) : x.note inner = x.take p := by
  rw [note, h.opening_eq_none, taking_eq_some.mpr h]

/-- Any other packet leaves no record. -/
theorem note_of_not {x : Session} {inner : List UInt8} (hopen : opening inner = none)
    (htake : x.server.taking inner = none) : x.note inner = x := by
  rw [note, hopen, htake]

/-- Data is routed exactly when no response is staged behind its acknowledgement. -/
theorem routes_of_resp {s : TcpServer} {p : Packet} (hdata : p.payload ≠ []) :
    s.routes p = (s.afterAck p).conn.resp.isNone := by
  rw [routes, decide_eq_true hdata, Bool.true_and]

/-- A packet without data is never routed. -/
theorem routes_of_nil {s : TcpServer} {p : Packet} (hdata : p.payload = []) :
    s.routes p = false := by
  rw [routes, hdata, decide_eq_false (by simp), Bool.false_and]

/-- **What an event does.** -/
theorem steps (x : Session) (e : TcpEvent) : x.Steps e (x.onEvent e) := by
  cases e with
  -- a packet: the cases of `receive`, with what the record keeps of each
  | packet inner now iss =>
    rw [onEvent]
    have hstep := x.server.receives inner now iss
    generalize hout : x.server.receive inner now iss = out at hstep
    cases hstep with
    | ignored hopen htake =>
      rw [note_of_not hopen htake, handleStream_of_stops hout, emit_nil]
      exact .ignored _
    | opened p hopen =>
      rw [note_of_opening hopen, handleStream_of_stops hout]
      exact .opened inner now iss p hopen
    | reset hopen htake =>
      rw [note_of_not hopen htake, handleStream_of_stops hout]
      exact .reset inner now iss
    | routed p ht hdata hresp =>
      rw [note_of_takes ht, handleStream_of_pumps hout]
      exact .routed inner now iss p ht (by rw [routes_of_resp hdata, hresp]; rfl) _ rfl
    | data p r ht hdata hresp =>
      rw [note_of_takes ht, handleStream_of_pumps hout]
      exact .data inner now iss p ht (by rw [routes_of_resp hdata, hresp]; rfl) hdata _ rfl
    | closed p ht hdata hfin =>
      rw [note_of_takes ht, handleStream_of_stops hout]
      exact .closed inner now iss p ht (routes_of_nil hdata) hdata hfin
    | ack p ht hdata hfin =>
      rw [note_of_takes ht, handleStream_of_pumps hout]
      exact .ack inner now iss p ht (routes_of_nil hdata) hdata hfin _ rfl
  -- a timer: the checks of `tick`, in their order
  | tick now =>
    rw [onEvent]
    unfold tick
    split
    · rw [emit_nil]
      exact .ignored _
    next hactive =>
    rw [Bool.not_eq_true', Bool.not_eq_false] at hactive
    split
    · exact .rst now hactive
    split
    · rw [emit_nil]
      exact .ignored _
    next hfires =>
    rw [Bool.not_eq_true', Bool.not_eq_false] at hfires
    split
    · exact .rst now hactive
    next hexh =>
    rw [Bool.not_eq_true] at hexh
    exact .resent now hfires hexh _ rfl

end Session

/-! ## A client -/

/-- A site of one text. -/
def hiHandler : RouteFn := fun _ _ _ _ => some (.okStatic "text/plain" (utf8 "hi"))

/-- A packet of a client. -/
def clientPacket (seq ack : UInt32) (flags : UInt8) (payload : String) : Packet :=
  ⟨⟨10, 0, 0, 1⟩, ⟨10, 0, 0, 2⟩, 5000, httpPort, seq, ack, flags, 8192, utf8 payload⟩

/-- The client opens a connection. -/
def synEvent : TcpEvent := .packet (clientPacket 100 0 SYN "").bytes 0 1000

/-- A request, with a number that it acknowledges or without. -/
def requestEvent (ack : UInt32) (flags : UInt8) : TcpEvent :=
  .packet (clientPacket 101 ack flags "GET / HTTP/1.1\r\n\r\n").bytes 0 0

/-- An acknowledgement without data. -/
def ackEvent (ack : UInt32) : TcpEvent := .packet (clientPacket 119 ack ACK "").bytes 0 0

/-- A check of an optional value that can be evaluated, as the property that the conditions of a
run ask for. -/
theorem of_all {α : Type} {o : Option α} {P : α → Prop} [DecidablePred P]
    (h : o.all (fun a => decide (P a)) = true) : ∀ a, o = some a → P a := fun a ha => by
  rw [ha, Option.all_some, decide_eq_true_iff] at h
  exact h

/-- The response to the request is short. -/
theorem stagesShort_hi : Along Session.step
    (fun x e => ∀ r, x.server.staged e = some r → r.totalLen < 2 ^ 31 - 1)
    (Session.start hiHandler) [synEvent, requestEvent 1001 (PSH ||| ACK)] :=
  along_cons_of_step (of_all rfl) rfl (along_cons_of_step (of_all (by decide +kernel)) rfl trivial)
