/-
# Responses in one batch

The direct data path sends a response without a window, all segments at once:
`TcpServer::handle` with the pump, `TcpProxy::handle` with a loop of its own.  A `Batch`
is what both are to send: segments one behind the other that carry a text, with one
FIN, on the last.

The proxy does so for every answer (`ProxyConn.batch_handle`).  The server counts from
the number after its SYN, and does not start again for a second request of the same
connection: that one is answered with the tail that is longer than the first response,
or with nothing (`second_response_lost`).
-/
import PySpell.LocalServer
import PySpell.Outbound
import PySpell.TcpAck
import PySpell.Lib.Runs

open Text Http Tcp TcpServer Runs

/-! ## Batches -/

/-- Segments that carry `whole` from a number on: each one starts where the one before
ends, and the last one, and no other, has a FIN. -/
structure Batch (start : UInt32) (whole : List UInt8) (packets : List (List UInt8)) : Prop where
  first : ∀ x ∈ packets.head?, seqOf x = start
  next : packets.IsChain fun x y => seqOf y = dataEnd x
  whole : (packets.map payloadOf).flatten = whole
  fin : ∃ init last, packets = init ++ [last] ∧ flagsOf last &&& FIN ≠ 0 ∧
    ∀ x ∈ init, flagsOf x &&& FIN = 0

namespace Batch

/-- A single segment with a FIN. -/
theorem single {x : List UInt8} (hfin : flagsOf x &&& FIN ≠ 0) :
    Batch (seqOf x) (payloadOf x) [x] where
  first := fun y hy => by rw [Option.mem_some.mp hy]
  next := List.IsChain.singleton x
  whole := by simp
  fin := ⟨[], x, rfl, hfin, fun y hy => by cases hy⟩

/-- A segment without a FIN, in front of the rest. -/
theorem cons {x : List UInt8} {whole : List UInt8} {rest : List (List UInt8)}
    (hfin : flagsOf x &&& FIN = 0) (h : Batch (dataEnd x) whole rest) :
    Batch (seqOf x) (payloadOf x ++ whole) (x :: rest) where
  first := fun y hy => by rw [Option.mem_some.mp hy]
  next := by
    cases rest with
    | nil => exact List.IsChain.singleton x
    | cons y rest => exact List.isChain_cons_cons.mpr ⟨h.first y rfl, h.next⟩
  whole := by rw [List.map_cons, List.flatten_cons, h.whole]
  fin := by
    obtain ⟨init, last, rfl, hlast, hinit⟩ := h.fin
    refine ⟨x :: init, last, rfl, hlast, fun y hy => ?_⟩
    rcases List.mem_cons.mp hy with rfl | hy
    · exact hfin
    · exact hinit y hy

end Batch

/-! ## The pump -/

namespace Conn

/-- **The pump sends a batch**: without a window, the part of the response from the
next number on. -/
theorem pumpLoop_batch {r : RespState} (hsmall : r.totalLen < 2 ^ 31) (hfills : r.source.Fills)
    {window : ℕ} (hwindow : r.totalLen ≤ window) (now fuel : ℕ) :
    ∀ {c : Conn}, c.resp = some r → c.off c.sndNxt < r.totalLen →
      r.totalLen ≤ c.off c.sndNxt + fuel →
      Batch c.sndNxt (drain r.read mss fuel (c.off c.sndNxt) r.totalLen)
        ((c.pumpLoop now window r.totalLen fuel).2.map Sent.packet) := by
  induction fuel with
  | zero => intro c _ hlt hle; omega
  | succ fuel ih =>
    intro c hr hlt hle
    have hsent : c.sentBytes = min (c.off c.sndNxt) r.totalLen := bytesBefore_eq hr (by omega)
    have hnext : c.sentBytes = c.off c.sndNxt := by omega
    -- the window holds the whole response
    have hedge : min (c.ackedBytes + window) r.totalLen = r.totalLen := by omega
    rw [pumpLoop, drain]
    dsimp only
    have hstop : ¬ r.totalLen ≤ c.off c.sndNxt := by omega
    rw [hedge, hnext, if_neg hstop, if_neg hstop]
    have hread : c.readResponse (c.off c.sndNxt) (min (r.totalLen - c.off c.sndNxt) mss) =
        r.read (c.off c.sndNxt) (min (r.totalLen - c.off c.sndNxt) mss) := by
      rw [readResponse, hr, Option.elim_some]
    have hpos := List.length_pos_of_ne_nil ((RespState.readsAt hfills).ne_nil (c.off c.sndNxt)
      (min (r.totalLen - c.off c.sndNxt) mss) hlt (by rw [mss]; omega))
    have hbound := (r.read_spec (c.off c.sndNxt) (min (r.totalLen - c.off c.sndNxt) mss)).1
    rw [hread]
    generalize r.read (c.off c.sndNxt) _ = bytes at hpos hbound ⊢
    have hne : ¬ bytes.length = 0 := by omega
    rw [if_neg hne, if_neg hne]
    by_cases hlast : r.totalLen ≤ c.off c.sndNxt + bytes.length
    · -- behind the last segment nothing is left to drain
      have hnil : drain r.read mss fuel (c.off c.sndNxt + bytes.length) r.totalLen = [] := by
        cases fuel with
        | zero => rfl
        | succ fuel => rw [drain, if_pos hlast]
      rw [if_pos hlast, hnil, List.append_nil]
      have hbatch := Batch.single (x := c.segment (PSH ||| ACK ||| FIN) bytes)
        (by rw [flagsOf_segment]; decide)
      rw [seqOf_segment, payloadOf_segment] at hbatch
      exact hbatch
    · rw [if_neg hlast]
      have hadd : c.off (c.sndNxt + UInt32.ofNat bytes.length) = c.off c.sndNxt + bytes.length :=
        SeqNumber.offset_add (by change c.off c.sndNxt + bytes.length < 2 ^ 32; omega)
      -- the rest is drained from the next position
      have hrest := ih (c := { c with
          sndNxt := c.sndNxt + UInt32.ofNat bytes.length, lastSendMs := now }) hr
        (by change c.off (c.sndNxt + UInt32.ofNat bytes.length) < _; omega)
        (by change _ ≤ c.off (c.sndNxt + UInt32.ofNat bytes.length) + fuel; omega)
      change Batch _ (drain r.read mss fuel (c.off (c.sndNxt + UInt32.ofNat bytes.length)) _) _
        at hrest
      rw [hadd] at hrest
      have hbatch := Batch.cons (x := c.segment (PSH ||| ACK) bytes)
        (by rw [flagsOf_segment]; decide) (by
          rw [dataEnd, seqOf_segment, payloadOf_segment]
          exact hrest)
      rw [seqOf_segment, payloadOf_segment] at hbatch
      exact hbatch

/-- **A response is sent whole exactly from its start.** -/
theorem batch_iff {c : Conn} {r : RespState} (hr : c.resp = some r) (hpos : 0 < r.totalLen)
    (hsmall : r.totalLen < 2 ^ 31) (hfills : r.source.Fills) (hnxt : c.off c.sndNxt < 2 ^ 31)
    (now : ℕ) :
    Batch c.sndNxt r.stream ((c.pump now (2 ^ 32 - 1)).2.map Sent.packet) ↔
      c.sndNxt = c.iss + 1 := by
  constructor
  · intro h
    -- what is sent is as long as what is left
    have hlen := congrArg List.length h.whole
    have hdrain := fun off => (drain_spec (RespState.readsAt hfills) (by decide : 0 < mss)
      (r.totalLen + 1) off (by omega)).1
    have hsent := pump_drain hr hsmall hnxt now
    rw [List.map_map] at hlen
    change ((c.pump now (2 ^ 32 - 1)).2.map fun x => payloadOf x.packet).flatten.length = _ at hlen
    rw [hsent, RespState.stream, hdrain, hdrain] at hlen
    exact SeqNumber.offset_eq_zero.mp (by change c.off c.sndNxt = 0; omega)
  · intro hstart
    have hzero : c.off c.sndNxt = 0 := SeqNumber.offset_eq_zero.mpr hstart
    have hwindow : r.totalLen ≤ 2 ^ 32 - 1 := by omega
    have hbatch := pumpLoop_batch hsmall hfills hwindow now (r.totalLen + 1) hr (by omega)
      (by omega)
    rw [hzero] at hbatch
    rw [pump, hr]
    dsimp only
    rw [pumpLoop_fuel hsmall now _ pumpFuel (m := r.totalLen + 1) hr hnxt
      (by rw [pumpFuel]; omega) (by omega)]
    exact hbatch

end Conn

/-! ## The server -/

namespace Http

/-- A response: its headers, and the part of the body that it serves. -/
def RespState.whole (r : RespState) : List UInt8 :=
  r.headers ++ bytesFrom r.source.byteAt r.bodyBase (r.totalLen - r.hdrLen)

/-- A response always has headers, so there is always something to send. -/
theorem renderHeaders_ne_nil (status : ℕ) (type : String) (base len total : ℕ)
    (cc : Option String) : renderHeaders status type base len total cc ≠ [] := by
  unfold renderHeaders
  dsimp only
  rw [utf8_append]
  exact List.append_ne_nil_of_right_ne_nil _ (by decide)

/-- A response has headers. -/
theorem stageResponse_pos (reply : HttpReply) (req : List UInt8) :
    0 < (stageResponse reply req).totalLen ∧
      (stageResponse reply req).hdrLen ≤ (stageResponse reply req).totalLen := by
  have htotal : (stageResponse reply req).totalLen = (stageResponse reply req).hdrLen +
      (chooseSlice reply.status req reply.source.totalLen).len := by
    simp only [stageResponse]
  have hheaders : ∃ status type base len total cc, (stageResponse reply req).headers =
      renderHeaders status type base len total cc :=
    ⟨(chooseSlice reply.status req reply.source.totalLen).status, reply.contentType,
      (chooseSlice reply.status req reply.source.totalLen).base,
      (chooseSlice reply.status req reply.source.totalLen).len, reply.source.totalLen,
      reply.cacheControl, by simp only [stageResponse]⟩
  obtain ⟨status, type, base, len, total, cc, hheaders⟩ := hheaders
  have hpos : 0 < (stageResponse reply req).hdrLen := by
    rw [(stageResponse reply req).hdrLen_eq, hheaders]
    exact List.length_pos_of_ne_nil (renderHeaders_ne_nil _ _ _ _ _ _)
  omega

end Http

namespace TcpServer

/-- `handle`. -/
def handle (s : TcpServer) (inner : List UInt8) (iss : UInt32) : TcpServer × List Sent :=
  s.process inner 0 iss true

/-- The whole response is sent at once: the window of `handle` is the largest number. -/
theorem handle_of_pumps {s t : TcpServer} {inner : List UInt8} {iss : UInt32}
    (h : s.receive inner 0 iss = (t, [], true)) : s.handle inner iss = t.pumped 0 (2 ^ 32 - 1) := by
  unfold handle process
  rw [h]
  rfl

/-- When nothing is to be pumped, what `receive` sends is all. -/
theorem handle_of_stops {s t : TcpServer} {inner : List UInt8} {iss : UInt32} {sent : List Sent}
    (h : s.receive inner 0 iss = (t, sent, false)) : s.handle inner iss = (t, sent) := by
  unfold handle process
  rw [h]

theorem pumped_snd (s : TcpServer) (now window : ℕ) :
    (s.pumped now window).2 = (s.conn.pump now window).2 := rfl

/-! ### A request that is answered whole -/

/-- The server sends a response whole, as the answer to a packet. -/
def SendsWhole (s : TcpServer) (inner : List UInt8) (iss : UInt32) (r : RespState) : Prop :=
  Batch s.conn.sndNxt r.whole ((s.handle inner iss).2.map Sent.packet)

/-- The server with the response to a packet staged. -/
def requested (s : TcpServer) (p : Packet) : TcpServer :=
  ((s.afterAck p).afterData p).buildResponse p.payload

/-- The response to the request that is taken. -/
theorem requested_resp (s : TcpServer) (p : Packet) : (s.requested p).conn.resp =
    some (stageResponse (((s.afterAck p).afterData p).routeRequest p.payload).2 p.payload) := rfl

/-- Staging it leaves the numbers of the connection as they are. -/
theorem requested_conn (s : TcpServer) (p : Packet) :
    (s.requested p).conn.sndNxt = s.conn.sndNxt ∧ (s.requested p).conn.iss = s.conn.iss ∧
      (s.requested p).conn.active = s.conn.active := by
  obtain ⟨r, action, heq⟩ := ((s.afterAck p).afterData p).buildResponse_eq p.payload
  rw [requested, heq]
  change (s.afterAck p).conn.sndNxt = _ ∧ (s.afterAck p).conn.iss = _ ∧
    (s.afterAck p).conn.active = _
  rw [afterAck]
  split
  · obtain ⟨hiss, hnxt, -, hactive, -⟩ := s.conn.onAck_spec p.ack p.win
    exact ⟨hnxt, hiss, hactive⟩
  · exact ⟨rfl, rfl, rfl⟩

/-- What stages a response: a packet with data that the connection takes, and that
finds none. -/
theorem staged_eq_some {s : TcpServer} {inner : List UInt8} {now : ℕ} {iss : UInt32}
    {r : RespState} (h : s.staged (.packet inner now iss) = some r) :
    ∃ p reply, s.Takes inner p ∧ p.payload ≠ [] ∧ (s.afterAck p).conn.resp = none ∧
      (s.requested p).conn.resp = some r ∧ r = stageResponse reply p.payload := by
  rw [staged] at h
  obtain ⟨p, hp, h⟩ := Option.bind_eq_some_iff.mp h
  split at h
  · next hroutes =>
    rw [routes, Bool.and_eq_true, decide_eq_true_iff, Option.isNone_iff_eq_none] at hroutes
    rw [← requested] at h
    exact ⟨p, _, taking_eq_some.mp hp, hroutes.1, hroutes.2, h,
      Option.some_inj.mp (h.symm.trans (s.requested_resp p))⟩
  · cases h

/-- **A request is answered whole exactly if nothing was sent before**, on a connection
that counts forward. -/
theorem sendsWhole_iff {s : TcpServer} {inner : List UInt8} {iss : UInt32} {r : RespState}
    (hstaged : s.staged (.packet inner 0 iss) = some r) (hsmall : r.totalLen < 2 ^ 31)
    (hfills : r.source.Fills) (hnxt : s.conn.off s.conn.sndNxt < 2 ^ 31) :
    s.SendsWhole inner iss r ↔ s.conn.sndNxt = s.conn.iss + 1 := by
  obtain ⟨p, reply, ht, hdata, hnone, hresp, hr⟩ := staged_eq_some hstaged
  obtain ⟨hpos, hhdr⟩ := stageResponse_pos reply p.payload
  rw [← hr] at hpos hhdr
  obtain ⟨hsnd, hiss, -⟩ := s.requested_conn p
  have hhandle : s.handle inner iss = (s.requested p).pumped 0 (2 ^ 32 - 1) := by
    refine handle_of_pumps ?_
    rw [ht.receive_eq, if_pos hdata, hnone]
    rfl
  have hiff := Conn.batch_iff hresp hpos hsmall hfills
    (by rw [Conn.off, hsnd, hiss]; exact hnxt) 0
  rw [hsnd, hiss, RespState.stream_eq hfills hhdr] at hiff
  rw [SendsWhole, hhandle, pumped_snd]
  exact hiff

/-- A packet and the number that a connection it opens starts from. -/
def batchStep (s : TcpServer) (e : List UInt8 × UInt32) : Option TcpServer :=
  some (s.handle e.1 e.2).1

/-- A step of the batch server is one call of `handle`; it always goes on. -/
theorem batchStep_eq (s : TcpServer) (inner : List UInt8) (iss : UInt32) :
    batchStep s (inner, iss) = some (s.handle inner iss).1 := rfl

/-! ### What a batch leaves -/

/-- A connection counts forward: it never goes back behind its first number. -/
structure Forward (s : TcpServer) : Prop where
  nxt : s.conn.active = true → 0 ≤ s.conn.rel s.conn.sndNxt
  small : ∀ r, s.conn.resp = some r → r.totalLen + 1 < 2 ^ 31

/-- A new server has no connection yet. -/
theorem forward_new (handler : Option RouteFn) : (TcpServer.new handler).Forward where
  nxt := fun hactive => by cases hactive
  small := fun r hr => by cases hr

/-- An acknowledgement leaves the next number where it is, and stages nothing. -/
theorem forward_afterAck {s : TcpServer} (h : s.Forward) (p : Packet) :
    (s.afterAck p).Forward := by
  unfold afterAck
  split
  · obtain ⟨hiss, hnxt, hresp, hactive, -⟩ := s.conn.onAck_spec p.ack p.win
    constructor
    · intro hact
      dsimp only at hact ⊢
      rw [Conn.rel, hiss, hnxt]
      exact h.nxt (hactive.symm.trans hact)
    · exact fun r hr => h.small r (hresp r hr)
  · exact h

/-- The pump keeps a connection forward. -/
theorem forward_pumped {s : TcpServer} (h : s.Forward) (now window : ℕ) :
    (s.pumped now window).1.Forward := by
  unfold pumped
  rcases s.conn.pump_pumps now window with ⟨-, heq⟩ | ⟨r, hr, hpumps⟩
  · rw [heq]
    exact h
  generalize s.conn.pump now window = out at hpumps ⊢
  have hframe := hpumps.frame
  constructor
  · intro hactive
    have hlow := h.nxt (hframe.active.symm.trans hactive)
    obtain ⟨-, hle, -⟩ := Conn.ends_of_pumps hpumps (h.small r hr) hr (by omega)
    change 0 ≤ out.1.rel out.1.sndNxt
    rw [Conn.rel, hframe.iss]
    exact hlow.trans hle
  · intro r' hr'
    have htotal := hframe.total
    rw [hr', hr] at htotal
    rw [Option.some_inj.mp htotal]
    exact h.small r hr

/-- **A packet keeps a connection forward**, if the response that it stages is short. -/
theorem forward_handle {s : TcpServer} (h : s.Forward) {inner : List UInt8} {iss : UInt32}
    (hshort : ∀ r, s.staged (.packet inner 0 iss) = some r → r.totalLen + 1 < 2 ^ 31) :
    (s.handle inner iss).1.Forward := by
  have hclosed : ∀ t : TcpServer, t.closed.Forward := by
    intro t
    constructor
    · intro hactive
      cases hactive
    · intro r hr
      cases hr
  generalize hreceive : s.receive inner 0 iss = out
  have hcases := s.receives inner 0 iss
  rw [hreceive] at hcases
  cases hcases with
  | ignored hopen htake =>
    rw [handle_of_stops hreceive]
    exact h
  -- a SYN starts from its own numbers
  | opened p hopen =>
    rw [handle_of_stops hreceive]
    constructor
    · intro _
      change 0 ≤ SeqNumber.pos (iss + 1) (iss + 1)
      rw [SeqNumber.pos_self]
    · intro r hr
      cases hr
  | reset hopen htake =>
    rw [handle_of_stops hreceive]
    exact hclosed s
  -- a new response is as short as the condition says
  | routed p ht hdata hresp =>
    rw [handle_of_pumps hreceive, ← requested]
    obtain ⟨hnxt, hiss, hactive⟩ := s.requested_conn p
    refine forward_pumped ⟨fun hact => ?_, fun r hr => hshort r ?_⟩ 0 _
    · rw [Conn.rel, hnxt, hiss]
      exact h.nxt (hactive.symm.trans hact)
    · rw [staged_of_routes ht (by rw [routes, hresp]; simp [hdata]), ← requested]
      exact hr
  | data p r ht hdata hresp =>
    rw [handle_of_pumps hreceive]
    have hafter := forward_afterAck h p
    exact forward_pumped (s := (s.afterAck p).afterData p) ⟨hafter.nxt, hafter.small⟩ 0 _
  | closed p ht hdata hfin =>
    rw [handle_of_stops hreceive]
    exact hclosed (s.afterAck p)
  | ack p ht hdata hfin =>
    rw [handle_of_pumps hreceive]
    exact forward_pumped (forward_afterAck h p) 0 _

/-! ### The handler -/

/-- The handler stays the one that the server was made with. -/
theorem handler_afterAck (s : TcpServer) (p : Packet) : (s.afterAck p).handler = s.handler := by
  unfold afterAck
  split
  · rfl
  · rfl

/-- Also through a pump. -/
theorem handler_pumped (s : TcpServer) (now window : ℕ) :
    (s.pumped now window).1.handler = s.handler := rfl

/-- And so through every packet. -/
theorem handler_handle (s : TcpServer) (inner : List UInt8) (iss : UInt32) :
    (s.handle inner iss).1.handler = s.handler := by
  generalize hreceive : s.receive inner 0 iss = out
  have hcases := s.receives inner 0 iss
  rw [hreceive] at hcases
  cases hcases with
  | ignored hopen htake => rw [handle_of_stops hreceive]
  | opened p hopen => rw [handle_of_stops hreceive]
  | reset hopen htake => rw [handle_of_stops hreceive]
  | routed p ht hdata hresp =>
    obtain ⟨r, action, heq⟩ := ((s.afterAck p).afterData p).buildResponse_eq p.payload
    rw [handle_of_pumps hreceive, handler_pumped, heq]
    exact handler_afterAck s p
  | data p r ht hdata hresp =>
    rw [handle_of_pumps hreceive, handler_pumped]
    exact handler_afterAck s p
  | closed p ht hdata hfin =>
    rw [handle_of_stops hreceive]
    exact handler_afterAck s p
  | ack p ht hdata hfin =>
    rw [handle_of_pumps hreceive, handler_pumped]
    exact handler_afterAck s p

end TcpServer

/-! ## The proxy -/

namespace Proxy.ProxyConn

/-- The number of a packet of the proxy. -/
theorem seqOf_segment (c : ProxyConn) (port : ℕ) (flags : UInt8) (payload : List UInt8) :
    seqOf (c.segment port flags payload) = c.sndNxt := u32_of_be32 c.sndNxt

/-- Its flags. -/
theorem flagsOf_segment (c : ProxyConn) (port : ℕ) (flags : UInt8) (payload : List UInt8) :
    flagsOf (c.segment port flags payload) = flags := rfl

/-- Its bytes. -/
theorem payloadOf_segment (c : ProxyConn) (port : ℕ) (flags : UInt8) (payload : List UInt8) :
    payloadOf (c.segment port flags payload) = payload := rfl

/-- A segment with a FIN is a batch. -/
theorem batch_last (c : ProxyConn) (port : ℕ) {flags : UInt8} (hfin : flags &&& FIN ≠ 0)
    (payload : List UInt8) : Batch c.sndNxt payload [c.segment port flags payload] := by
  have h := Batch.single (x := c.segment port flags payload) (by rwa [flagsOf_segment])
  rwa [seqOf_segment, payloadOf_segment] at h

/-- A segment without a FIN, and what follows at the number behind it. -/
theorem batch_more (c : ProxyConn) (port : ℕ) {flags : UInt8} (hfin : flags &&& FIN = 0)
    {payload whole : List UInt8} {rest : List (List UInt8)}
    (h : Batch (c.sndNxt + UInt32.ofNat payload.length) whole rest) :
    Batch c.sndNxt (payload ++ whole) (c.segment port flags payload :: rest) := by
  have hcons := Batch.cons (x := c.segment port flags payload) (by rwa [flagsOf_segment])
    (by rwa [dataEnd, seqOf_segment, payloadOf_segment])
  rwa [seqOf_segment, payloadOf_segment] at hcons

/-- A segment without data in front changes nothing. -/
theorem batch_ack (c : ProxyConn) (port : ℕ) {whole : List UInt8} {rest : List (List UInt8)}
    (h : Batch c.sndNxt whole rest) : Batch c.sndNxt whole (c.segment port ACK [] :: rest) := by
  have hzero : c.sndNxt + UInt32.ofNat 0 = c.sndNxt := UInt32.add_zero _
  have hmore := @batch_more c port ACK (by decide) [] whole rest
  rw [List.length_nil, hzero] at hmore
  exact hmore h

/-- **The pieces of an answer make a batch.** -/
theorem batch_stream (port : ℕ) (pieces : List (List UInt8)) : ∀ {c : ProxyConn}, pieces ≠ [] →
    Batch c.sndNxt pieces.flatten (stream port c pieces).2 := by
  induction pieces with
  | nil => exact fun h => absurd rfl h
  | cons piece rest ih =>
    intro c _
    cases rest with
    | nil =>
      rw [stream, List.flatten_singleton]
      exact c.batch_last port (by decide) piece
    | cons next rest =>
      rw [stream, List.flatten_cons]
      · exact c.batch_more port (by decide)
          (ih (c := { c with sndNxt := c.sndNxt + UInt32.ofNat piece.length })
            (List.cons_ne_nil _ _))
      · exact fun h => List.cons_ne_nil _ _ h

/-- The packets with a request that the proxy forwards: for its port, of its connection,
with data, and the first of them. -/
structure Requests (c : ProxyConn) (port : ℕ) (inner : List UInt8) (p : Packet) : Prop where
  parsed : parsePacket inner = some p
  port : p.dport = port
  noSyn : p.flags &&& SYN = 0
  active : c.active = true
  ip : p.srcIp = c.clientIp
  sport : p.sport = c.clientPort
  noRst : p.flags &&& RST = 0
  data : p.payload ≠ []
  fresh : c.fetched = false

/-- **The proxy sends every answer whole**, also an empty one. -/
theorem batch_handle {c : ProxyConn} {port : ℕ} {inner : List UInt8} {p : Packet}
    (h : c.Requests port inner p) (lanFetch : List UInt8 → List UInt8) (iss : UInt32) :
    Batch c.sndNxt (lanFetch p.payload) (c.handle port lanFetch iss inner).2 := by
  have hmatch : ¬ ((!c.active) = true ∨ p.srcIp ≠ c.clientIp ∨ p.sport ≠ c.clientPort) := by
    simp [h.active, h.ip, h.sport]
  rw [handle, h.parsed]
  dsimp only
  rw [if_neg fun hne => hne h.port, if_neg fun hne => hne h.noSyn, if_neg hmatch,
    if_neg fun hne => hne h.noRst, if_pos ⟨h.data, h.fresh⟩]
  generalize hc : ({ c with rcvNxt := p.seq + UInt32.ofNat p.payload.length, fetched := true } :
    ProxyConn) = c'
  have hnxt : c.sndNxt = c'.sndNxt := by rw [← hc]
  rw [hnxt]
  by_cases hempty : lanFetch p.payload = []
  · rw [if_pos hempty, hempty]
    exact c'.batch_ack port (c'.batch_last port (by decide) [])
  · have hpieces : (lanFetch p.payload).toChunks proxyMss ≠ [] := by
      intro hnil
      have hflat := Bytes.flatten_toChunks proxyMss (lanFetch p.payload)
      rw [hnil] at hflat
      exact hempty hflat.symm
    have hstream := batch_stream port ((lanFetch p.payload).toChunks proxyMss) (c := c') hpieces
    rw [Bytes.flatten_toChunks] at hstream
    rw [if_neg hempty]
    exact c'.batch_ack port hstream

end Proxy.ProxyConn

/-! ## A request that is answered, and one that is not -/

/-- The request of the client, as a packet. -/
def getPacket (ack : UInt32) : Packet :=
  clientPacket 101 ack (PSH ||| ACK) "GET / HTTP/1.1\r\n\r\n"

/-- The packet that opens the connection, and its first number. -/
def synBatch : List UInt8 × UInt32 := ((clientPacket 100 0 SYN "").bytes, 1000)

/-- What the server stages for it. -/
def hiResponse : RespState :=
  stageResponse (.okStatic "text/plain" (utf8 "hi")) (getPacket 0).payload

theorem routeRequest_hi {s : TcpServer} (h : s.handler = some hiHandler) (req : List UInt8) :
    (s.routeRequest req).2 = .okStatic "text/plain" (utf8 "hi") := by
  rw [routeRequest, h]
  rfl

theorem getPacket_payload (ack : UInt32) : (getPacket ack).payload ≠ [] :=
  show utf8 "GET / HTTP/1.1\r\n\r\n" ≠ [] by decide

theorem parsePacket_getPacket (ack : UInt32) :
    parsePacket (getPacket ack).bytes = some (getPacket ack) :=
  parsePacket_bytes (show 40 + 18 < 65536 by decide) (show 5000 < 65536 by decide)
    (show httpPort < 65536 by decide) (show 8192 < 65536 by decide)

theorem staged_get {s : TcpServer} (hhandler : s.handler = some hiHandler)
    (hactive : s.conn.active = true) (hip : s.conn.clientIp = ⟨10, 0, 0, 1⟩)
    (hport : s.conn.clientPort = 5000) {ack : UInt32}
    (hnone : (s.afterAck (getPacket ack)).conn.resp = none) :
    s.staged (.packet (getPacket ack).bytes 0 0) = some hiResponse := by
  have ht : s.Takes (getPacket ack).bytes (getPacket ack) :=
    { parsed := parsePacket_getPacket ack
      port := rfl
      noSyn := show (PSH ||| ACK) &&& SYN = 0 by decide
      matched := ⟨hactive, hip.symm, hport.symm⟩
      noRst := show (PSH ||| ACK) &&& RST = 0 by decide }
  have hroutes : s.routes (getPacket ack) = true := by
    rw [routes, hnone, decide_eq_true (getPacket_payload ack)]
    rfl
  have hreply := routeRequest_hi (s := (s.afterAck (getPacket ack)).afterData (getPacket ack))
    (by
      rw [afterData, afterAck]
      split
      · exact hhandler
      · exact hhandler) (getPacket ack).payload
  rw [staged_of_routes ht hroutes, buildResponse]
  dsimp only
  rw [hreply]
  rfl

/-- The server after a SYN. -/
def openedBatch : TcpServer :=
  ((TcpServer.new (some hiHandler)).handle synBatch.1 synBatch.2).1

/-- The response of the example is short. -/
theorem hiResponse_small : hiResponse.totalLen < 2 ^ 31 := by
  have hstaged := @staged_get ((Session.start hiHandler).onEvent synEvent).server
    rfl rfl rfl rfl 1001 rfl
  have hlt := (stagesShort_hi.2 _ rfl).1 hiResponse hstaged
  omega


/-- A proxy with a connection of the same client. -/
def openedProxy : Proxy.ProxyConn := ⟨true, ⟨10, 0, 0, 1⟩, ⟨10, 0, 0, 2⟩, 5000, 101, 7, false⟩

/-! ## Both -/

/-- **Batch segmentation.**  The proxy sends every answer whole.  The server does so from
every state in which nothing of a connection but its SYN was sent, and in no other state
of a run. -/
theorem batch_segments (handler : Option RouteFn) (es : List (List UInt8 × UInt32))
    {s : TcpServer} (hrun : run batchStep (TcpServer.new handler) es = some s)
    (hshort : Along batchStep (fun t e => ∀ r, t.staged (.packet e.1 0 e.2) = some r →
      r.totalLen + 1 < 2 ^ 31) (TcpServer.new handler) es) :
    (∀ (inner : List UInt8) (iss : UInt32) (r : RespState),
      s.staged (.packet inner 0 iss) = some r → r.totalLen < 2 ^ 31 → r.source.Fills →
      (s.SendsWhole inner iss r ↔ s.conn.sndNxt = s.conn.iss + 1)) ∧
    (∀ (t : TcpServer) (inner : List UInt8) (iss : UInt32) (r : RespState),
      t.staged (.packet inner 0 iss) = some r → r.totalLen < 2 ^ 31 → r.source.Fills →
      t.conn.sndNxt = t.conn.iss + 1 → t.SendsWhole inner iss r) ∧
    ∀ (c : Proxy.ProxyConn) (port : ℕ) (inner : List UInt8) (p : Packet)
      (lanFetch : List UInt8 → List UInt8) (iss : UInt32), c.Requests port inner p →
      Batch c.sndNxt (lanFetch p.payload) (c.handle port lanFetch iss inner).2 := by
  refine ⟨?_, ?_, fun c port inner p lanFetch iss h => Proxy.ProxyConn.batch_handle h lanFetch iss⟩
  · intro inner iss r hstaged hsmall hfills
    have hforward : s.Forward := by
      refine run_inv_along (fun t e t' ht hok hstep => ?_) (forward_new handler) hshort hrun
      rw [← Option.some_inj.mp hstep]
      exact forward_handle ht hok
    obtain ⟨p, -, ht, -⟩ := staged_eq_some hstaged
    have hnxt := hforward.nxt ht.matched.1
    have hoff : (s.conn.off s.conn.sndNxt : ℤ) = s.conn.rel s.conn.sndNxt := by
      have hsub := SeqNumber.toNat_sub_of_pos (b := s.conn.iss + 1) (x := s.conn.iss + 1)
        (y := s.conn.sndNxt) (by rw [SeqNumber.pos_self]; exact hnxt)
      rw [SeqNumber.pos_self, sub_zero] at hsub
      exact hsub
    have hlt := SeqNumber.pos_lt (s.conn.iss + 1) s.conn.sndNxt
    refine sendsWhole_iff hstaged hsmall hfills ?_
    change s.conn.rel s.conn.sndNxt < 2 ^ 31 at hlt
    omega
  · intro t inner iss r hstaged hsmall hfills hstart
    have hzero : t.conn.off t.conn.sndNxt = 0 := SeqNumber.offset_eq_zero.mpr hstart
    exact (sendsWhole_iff hstaged hsmall hfills (by omega)).mpr hstart

/-- The first request, and an answer of the proxy. -/
theorem batch_segments_hi : openedBatch.SendsWhole (getPacket 1001).bytes 0 hiResponse ∧
    (openedBatch.SendsWhole (getPacket 1001).bytes 0 hiResponse ↔
      openedBatch.conn.sndNxt = openedBatch.conn.iss + 1) ∧
    Batch 7 (utf8 "hi") (Proxy.ProxyConn.handle openedProxy httpPort (fun _ => utf8 "hi") 0
      (getPacket 8).bytes).2 := by
  have hstaged := @staged_get openedBatch rfl rfl rfl rfl 1001 rfl
  have hshort : Along batchStep (fun t e => ∀ r, t.staged (.packet e.1 0 e.2) = some r →
      r.totalLen + 1 < 2 ^ 31) (TcpServer.new (some hiHandler)) [synBatch] :=
    along_cons_of_step (of_all rfl) rfl trivial
  obtain ⟨hiff, hwhole, hproxy⟩ := @batch_segments (some hiHandler) [synBatch] openedBatch rfl hshort
  refine ⟨hwhole openedBatch _ 0 hiResponse hstaged hiResponse_small trivial rfl,
    hiff _ 0 hiResponse hstaged hiResponse_small trivial,
    hproxy openedProxy httpPort _ (getPacket 8) (fun _ => utf8 "hi") 0 ?_⟩
  · exact ⟨parsePacket_getPacket 8, rfl, by decide, rfl, rfl, rfl, by decide, getPacket_payload 8, rfl⟩

/-- The server after the request was answered, and all of it acknowledged. -/
def servedBatch : TcpServer :=
  ((openedBatch.handle (getPacket 1001).bytes 0).1.handle (clientPacket 119 1141 ACK "").bytes 0).1

theorem servedBatch_facts : servedBatch.conn.active = true ∧
    servedBatch.conn.clientIp = ⟨10, 0, 0, 1⟩ ∧ servedBatch.conn.clientPort = 5000 ∧
    (servedBatch.afterAck (getPacket 1141)).conn.resp.isNone = true ∧
    servedBatch.conn.sndNxt = 1141 ∧ servedBatch.conn.iss = 1000 := by
  decide +kernel

theorem servedBatch_handler : servedBatch.handler = some hiHandler := by
  rw [servedBatch, handler_handle, handler_handle, openedBatch, handler_handle]
  rfl

/-- **The second response of a connection is lost.** -/
theorem second_response_lost : ∃ (handler : Option RouteFn) (es : List (List UInt8 × UInt32))
    (s : TcpServer) (inner : List UInt8) (r : RespState),
    run batchStep (TcpServer.new handler) es = some s ∧ s.staged (.packet inner 0 0) = some r ∧
      r.totalLen < 2 ^ 31 ∧ r.source.Fills ∧ ¬ s.SendsWhole inner 0 r := by
  obtain ⟨hactive, hip, hport, hnone, hnxt, hiss⟩ := servedBatch_facts
  have hstaged := staged_get servedBatch_handler hactive hip hport
    (Option.isNone_iff_eq_none.mp hnone)
  refine ⟨some hiHandler,
    [synBatch, ((getPacket 1001).bytes, 0), ((clientPacket 119 1141 ACK "").bytes, 0)],
    servedBatch, (getPacket 1141).bytes, hiResponse, ?_, hstaged, hiResponse_small, trivial,
    fun h => ?_⟩
  · have hopened : batchStep (TcpServer.new (some hiHandler)) synBatch = some openedBatch := rfl
    rw [servedBatch, run_cons_of_step hopened, run_cons_of_step (batchStep_eq _ _ _),
      run_cons_of_step (batchStep_eq _ _ _), run_nil]
  have hoff : servedBatch.conn.off servedBatch.conn.sndNxt = 140 := by
    rw [Conn.off, hnxt, hiss]
    rfl
  have hstart := (sendsWhole_iff hstaged hiResponse_small trivial (by omega)).mp h
  rw [hnxt, hiss] at hstart
  exact absurd hstart (by decide)
