/-
# Acknowledgements

An acknowledgement past the oldest number that is not acknowledged, and not past the
highest number that was sent, should move the former to it.  The server compares with
the next number to send instead, which a timeout takes back to the oldest.  Until the
window lets everything be sent again, an acknowledgement of what was sent before is
refused (`ack_refused`).

`Reach` relates the three numbers: oldest, next, highest, in this order.  With it every
such acknowledgement is honoured exactly when the next number is the highest
(`acks_honoured_iff`).
-/
import PySpell.TcpSession

open Text Http Tcp TcpServer Runs SeqNumber

/-- The number after everything that was sent. -/
structure Highest (flow : List Sent) (h : UInt32) : Prop where
  sent : ∃ y ∈ flow, endSeq y.packet = h
  le : ∀ y ∈ flow, SeqNumber.lt h (endSeq y.packet) = false

namespace Conn

/-- Where a segment ends: behind its bytes, its SYN and its FIN. -/
theorem endSeq_segment (c : Conn) (flags : UInt8) (payload : List UInt8) :
    endSeq (c.segment flags payload) = c.sndNxt + UInt32.ofNat payload.length +
      UInt32.ofNat ((if flags &&& SYN ≠ 0 then 1 else 0) +
        (if flags &&& FIN ≠ 0 then 1 else 0)) := by
  rw [endSeq, dataEnd, seqOf_segment, payloadOf_segment, flagsOf_segment]

/-- **What the pump adds to what was sent** ends at the next number, or before it. -/
theorem ends_of_pumps {r : RespState} {now : ℕ} {c : Conn} {out : Conn × List Sent}
    (h : Pumps r now c out) (htotal : r.totalLen + 1 < 2 ^ 31) :
    c.resp = some r → -1 ≤ c.rel c.sndNxt →
      (∀ y ∈ out.2, 0 ≤ c.rel (endSeq y.packet) ∧
        c.rel (endSeq y.packet) ≤ c.rel out.1.sndNxt) ∧
      c.rel c.sndNxt ≤ c.rel out.1.sndNxt ∧
      (out.1.sndNxt = c.sndNxt ∨ ∃ y ∈ out.2, endSeq y.packet = out.1.sndNxt) := by
  induction h with
  | stop c =>
    intro _ _
    exact ⟨by simp, le_rfl, Or.inl rfl⟩
  -- the FIN takes a number of its own
  | last c bytes hpos _ hlast =>
    intro hr hlow
    have hsent := bytesBefore_pos hr c.sndNxt
    rw [show c.bytesBefore c.sndNxt = c.sentBytes from rfl] at hsent
    have hadd : c.rel (c.sndNxt + UInt32.ofNat bytes.length) =
        c.rel c.sndNxt + bytes.length := pos_add (by change c.rel _ + _ < _; omega)
    have hone : c.rel (c.sndNxt + UInt32.ofNat bytes.length + 1) =
        c.rel (c.sndNxt + UInt32.ofNat bytes.length) + 1 :=
      pos_add (n := 1) (by change c.rel _ + _ < _; omega)
    have hend : endSeq (c.send (PSH ||| ACK ||| FIN) bytes).packet =
        c.sndNxt + UInt32.ofNat bytes.length + 1 := endSeq_segment c _ bytes
    refine ⟨fun y hy => ?_, by dsimp only; omega, Or.inr ⟨_, List.mem_singleton_self _, hend⟩⟩
    rw [List.mem_singleton.mp hy, hend]
    exact ⟨by omega, le_rfl⟩
  | more c bytes hpos _ hmore out _ ih =>
    intro hr hlow
    have hsent := bytesBefore_pos hr c.sndNxt
    rw [show c.bytesBefore c.sndNxt = c.sentBytes from rfl] at hsent
    have hadd : c.rel (c.sndNxt + UInt32.ofNat bytes.length) =
        c.rel c.sndNxt + bytes.length := pos_add (by change c.rel _ + _ < _; omega)
    have hend : endSeq (c.send (PSH ||| ACK) bytes).packet =
        c.sndNxt + UInt32.ofNat bytes.length :=
      (endSeq_segment c _ bytes).trans (UInt32.add_zero _)
    obtain ⟨hall, hle, hlast⟩ := ih hr
      (by change -1 ≤ c.rel (c.sndNxt + UInt32.ofNat bytes.length); omega)
    change c.rel (c.sndNxt + UInt32.ofNat bytes.length) ≤ c.rel out.1.sndNxt at hle
    refine ⟨fun y hy => ?_, by dsimp only; omega, Or.inr ?_⟩
    · rcases List.mem_cons.mp hy with rfl | hy
      · rw [hend]
        exact ⟨by omega, hle⟩
      · exact hall y hy
    · rcases hlast with heq | ⟨y, hy, heq⟩
      · exact ⟨_, List.mem_cons_self, hend.trans heq.symm⟩
      · exact ⟨y, List.mem_cons_of_mem _ hy, heq⟩

/-! ## Oldest, next, highest -/

/-- The oldest number that is not acknowledged, the next one to send and the highest
that was sent, in this order. -/
structure Reach (c : Conn) (flow : List Sent) (top : UInt32) : Prop where
  una : -1 ≤ c.rel c.sndUna
  nxt : c.rel c.sndUna ≤ c.rel c.sndNxt
  high : c.rel c.sndNxt ≤ c.rel top
  sent : ∃ y ∈ flow, endSeq y.packet = top
  ends : ∀ y ∈ flow, 0 ≤ c.rel (endSeq y.packet) ∧ c.rel (endSeq y.packet) ≤ c.rel top
  small : ∀ r, c.resp = some r → r.totalLen + 1 < 2 ^ 31

/-- The highest number is the one that `Reach` speaks of. -/
theorem Reach.highest_iff {c : Conn} {flow : List Sent} {top : UInt32} (h : c.Reach flow top)
    (x : UInt32) : Highest flow x ↔ x = top := by
  have htop : c.rel top < 2 ^ 31 := pos_lt _ _
  constructor
  · rintro ⟨⟨y, hy, rfl⟩, hle⟩
    obtain ⟨z, hz, rfl⟩ := h.sent
    have hyz := h.ends y hy
    by_contra hne
    -- otherwise it is below the highest
    have hrel : c.rel (endSeq y.packet) ≠ c.rel (endSeq z.packet) := fun heq => hne (pos_inj heq)
    have hlt := lt_eq_true_of_pos (b := c.iss + 1) (x := endSeq y.packet)
      (y := endSeq z.packet) (lt_of_le_of_ne hyz.2 hrel)
      (by change c.rel (endSeq z.packet) - c.rel (endSeq y.packet) ≤ _; omega)
    rw [hle z hz] at hlt
    cases hlt
  · rintro rfl
    refine ⟨h.sent, fun y hy => ?_⟩
    have hy' := h.ends y hy
    exact lt_eq_false_of_pos (b := c.iss + 1) hy'.2
      (by change c.rel x - c.rel (endSeq y.packet) < _; omega)

/-- An acknowledgement moves neither what was sent nor how far it reached. -/
theorem Reach.onAck {c : Conn} {flow : List Sent} {top : UInt32} (h : c.Reach flow top)
    (ack : UInt32) (win : ℕ) : (c.onAck ack win).Reach flow top := by
  obtain ⟨hiss, hnxt, hresp, -⟩ := c.onAck_spec ack win
  obtain ⟨hlow, hhigh⟩ := rel_onAck h.nxt ack win
  have hrel : ∀ x, (c.onAck ack win).rel x = c.rel x := fun x => by rw [rel, rel, hiss]
  refine ⟨?_, ?_, ?_, h.sent, fun y hy => ?_, fun r hr => h.small r (hresp r hr)⟩
  · rw [hrel]
    exact h.una.trans hlow
  · rw [hrel, hrel, hnxt]
    exact hhigh
  · rw [hrel, hrel, hnxt]
    exact h.high
  · rw [hrel, hrel]
    exact h.ends y hy

/-- The pump takes the next number on, and the highest with it. -/
theorem Reach.pump {c : Conn} {flow : List Sent} {top : UInt32} (h : c.Reach flow top)
    (now window : ℕ) :
    ∃ top', (c.pump now window).1.Reach (flow ++ (c.pump now window).2) top' := by
  rcases c.pump_pumps now window with ⟨-, heq⟩ | ⟨r, hr, hpumps⟩
  · rw [heq, List.append_nil]
    exact ⟨top, h⟩
  generalize c.pump now window = out at hpumps ⊢
  have hframe := hpumps.frame
  obtain ⟨hall, hle, hlast⟩ := ends_of_pumps hpumps (h.small r hr) hr (h.una.trans h.nxt)
  have hrel : ∀ x, out.1.rel x = c.rel x := fun x => by rw [rel, rel, hframe.iss]
  have hsmall : ∀ r', out.1.resp = some r' → r'.totalLen + 1 < 2 ^ 31 := by
    intro r' hr'
    have htotal := hframe.total
    rw [hr', hr] at htotal
    rw [Option.some_inj.mp htotal]
    exact h.small r hr
  have huna : -1 ≤ out.1.rel out.1.sndUna := by
    rw [hrel, hframe.sndUna]
    exact h.una
  have hnxt : out.1.rel out.1.sndUna ≤ out.1.rel out.1.sndNxt := by
    rw [hrel, hrel, hframe.sndUna]
    exact h.nxt.trans hle
  -- the numbers that are sent now may repeat earlier ones
  rcases le_total (c.rel out.1.sndNxt) (c.rel top) with hbelow | habove
  · -- what was sent before goes further
    obtain ⟨y, hy, heq⟩ := h.sent
    refine ⟨top, huna, hnxt, ?_, ⟨y, List.mem_append_left _ hy, heq⟩, fun z hz => ?_, hsmall⟩
    · rw [hrel, hrel]
      exact hbelow
    · rw [hrel, hrel]
      rcases List.mem_append.mp hz with hz | hz
      · exact h.ends z hz
      · exact ⟨(hall z hz).1, (hall z hz).2.trans hbelow⟩
  · refine ⟨out.1.sndNxt, huna, hnxt, le_rfl, ?_, fun z hz => ?_, hsmall⟩
    · rcases hlast with heq | ⟨y, hy, heq⟩
      · -- nothing was sent, and the next number was the highest
        have htop : top = out.1.sndNxt := by
          rw [heq] at habove ⊢
          exact pos_inj (b := c.iss + 1) (le_antisymm habove h.high)
        obtain ⟨y, hy, heq'⟩ := h.sent
        exact ⟨y, List.mem_append_left _ hy, heq'.trans htop⟩
      · exact ⟨y, List.mem_append_right _ hy, heq⟩
    · rw [hrel, hrel]
      rcases List.mem_append.mp hz with hz | hz
      · exact ⟨(h.ends z hz).1, (h.ends z hz).2.trans habove⟩
      · exact hall z hz

end Conn

/-! ## Runs -/

namespace Session

/-- What holds of a session whose responses are short enough for their offsets. -/
structure Ordered (x : Session) : Prop where
  port : x.server.conn.active = true → x.server.conn.clientPort < 65536
  reach : x.server.conn.active = true → ∃ top, x.server.conn.Reach x.flow top

/-- Before the first packet nothing was sent. -/
theorem ordered_start (handler : Option RouteFn) : (start handler).Ordered where
  port := fun hactive => by cases hactive
  reach := fun hactive => by cases hactive

/-- A connection that ends leaves no demand on what was sent. -/
theorem ordered_closed (x : Session) (s : TcpServer) (sent : List Sent) :
    (x.emit (s.closed, sent)).Ordered where
  port := fun hactive => by cases hactive
  reach := fun hactive => by cases hactive

/-- **Pumping keeps the order**: each piece ends where the next begins, and the highest number
goes along. -/
theorem ordered_pumped {x : Session} {s : TcpServer} (top : UInt32)
    (hport : s.conn.clientPort < 65536) (hreach : s.conn.Reach x.flow top) (now window : ℕ) :
    (x.emit (s.pumped now window)).Ordered where
  port := fun _ => by
    change (s.conn.pump now window).1.clientPort < 65536
    rw [(s.conn.pump_frame now window).clientPort]
    exact hport
  reach := fun _ => hreach.pump now window

/-- The server's handling of an acknowledgement keeps how far the packets reached, and the
port. -/
theorem reach_afterAck {s : TcpServer} {flow : List Sent} {top : UInt32}
    (h : s.conn.Reach flow top) (p : Packet) :
    (s.afterAck p).conn.Reach flow top ∧ (s.afterAck p).conn.clientPort = s.conn.clientPort := by
  unfold afterAck
  split
  · exact ⟨h.onAck _ _, (s.conn.onAck_spec p.ack p.win).2.2.2.2.1⟩
  · exact ⟨h, rfl⟩

/-- **An event that stages no response of `2^31 - 1` bytes or more keeps the order.** -/
theorem ordered_step {x : Session} (h : x.Ordered) {e : TcpEvent}
    (hsmall : ∀ r, x.server.staged e = some r → r.totalLen < 2 ^ 31 - 1) :
    (x.onEvent e).Ordered := by
  have hstep := x.steps e
  generalize x.onEvent e = x' at hstep ⊢
  cases hstep with
  | ignored => exact h
  -- the SYN takes one number, which the peer may acknowledge
  | opened inner now iss p hopen =>
    have hzero : pos (iss + 1) (iss + 1) = 0 := by
      rw [pos, UInt32.sub_self]
      decide
    have hone : pos (iss + 1) iss = -1 := by
      have hiss := iss.toNat_lt
      have h1 : (1 : UInt32).toNat = 1 := rfl
      rw [pos, asI32, UInt32.toNat_sub, UInt32.toNat_add, h1]
      split <;> omega
    have hend : endSeq ((Conn.opened p now iss).send (SYN ||| ACK) []).packet = iss + 1 := by
      refine (Conn.endSeq_segment _ _ _).trans ?_
      rw [List.length_nil]
      exact congrArg (· + 1) (UInt32.add_zero iss)
    refine ⟨fun _ => Tcp.sport_lt (opening_eq_some.mp hopen).1, fun _ => ⟨iss + 1, ?_⟩⟩
    refine ⟨hone.ge, ?_, le_rfl, ⟨_, List.mem_singleton_self _, hend⟩, fun y hy => ?_,
      fun r hr => by cases hr⟩
    · change pos (iss + 1) iss ≤ pos (iss + 1) (iss + 1)
      omega
    · rw [List.mem_singleton.mp hy, hend]
      exact ⟨hzero.ge, le_rfl⟩
  -- a closed connection has nothing to order
  | reset => exact ordered_closed x x.server []
  -- a new response is short enough for the numbers to stay apart
  | routed inner now iss p ht hroutes s hs =>
    obtain ⟨top, hreach⟩ := h.reach ht.matched.1
    obtain ⟨hack, hport⟩ := reach_afterAck hreach p
    rw [staged_of_routes ht hroutes] at hsmall
    obtain ⟨r, action, heq⟩ := ((x.server.afterAck p).afterData p).buildResponse_eq p.payload
    have hr := hsmall r (by rw [heq])
    refine ordered_pumped (x := x.take p) top ?_ ?_ now _
    · rw [hs, heq]
      exact hport.trans_lt (h.port ht.matched.1)
    · rw [hs, heq]
      refine ⟨hack.una, hack.nxt, hack.high, hack.sent, hack.ends, fun r' hr' => ?_⟩
      rw [← Option.some_inj.mp hr']
      omega
  | data inner now iss p ht hroutes hdata s hs =>
    obtain ⟨top, hreach⟩ := h.reach ht.matched.1
    obtain ⟨hack, hport⟩ := reach_afterAck hreach p
    refine ordered_pumped (x := x.take p) top ?_ ?_ now _
    · rw [hs]
      exact hport.trans_lt (h.port ht.matched.1)
    · rw [hs]
      exact ⟨hack.una, hack.nxt, hack.high, hack.sent, hack.ends, hack.small⟩
  | closed inner now iss p => exact ordered_closed (x.take p) _ _
  | ack inner now iss p ht hroutes hdata hfin s hs =>
    obtain ⟨top, hreach⟩ := h.reach ht.matched.1
    obtain ⟨hack, hport⟩ := reach_afterAck hreach p
    refine ordered_pumped (x := x.take p) top ?_ ?_ now _
    · rw [hs]
      exact hport.trans_lt (h.port ht.matched.1)
    · rw [hs]
      exact hack
  | rst now => exact ordered_closed x _ _
  -- going back to the first byte keeps what was sent
  | resent now hfires hexh s hs =>
    simp only [rtoFires, Bool.and_eq_true] at hfires
    have hactive := hfires.1.1.1.1
    obtain ⟨top, hreach⟩ := h.reach hactive
    refine ordered_pumped top ?_ ?_ now _
    · rw [hs]
      exact h.port hactive
    · rw [hs]
      refine ⟨hreach.una, le_rfl, hreach.nxt.trans hreach.high, hreach.sent, hreach.ends,
        fun r hr => ?_⟩
      obtain ⟨r', hr', rfl⟩ := Option.map_eq_some_iff.mp hr
      exact hreach.small r' hr'

/-! ### Acknowledgements that count -/

/-- Every acknowledgement past the oldest number that is not acknowledged, up to the
highest that was sent, moves the former to it. -/
def AcksHonoured (x : Session) : Prop :=
  ∀ (inner : List UInt8) (now : ℕ) (iss : UInt32) (p : Packet) (h : UInt32),
    x.server.Takes inner p → p.flags &&& ACK ≠ 0 → Highest x.flow h →
    SeqNumber.lt x.server.conn.sndUna p.ack = true → SeqNumber.lt h p.ack = false →
    (x.server.handleStream inner now iss).1.conn.active = true →
    (x.server.handleStream inner now iss).1.conn.sndUna = p.ack

/-- An acknowledgement for the connection, without data. -/
def ackPacket (c : Conn) (ack : UInt32) : Packet :=
  ⟨c.clientIp, c.ourIp, c.clientPort, httpPort, c.rcvNxt, ack, ACK, 0, []⟩

/-- An open connection takes the acknowledgement of its client. -/
theorem takes_ackPacket {s : TcpServer} (hactive : s.conn.active = true)
    (hport : s.conn.clientPort < 65536) (ack : UInt32) :
    s.Takes (ackPacket s.conn ack).bytes (ackPacket s.conn ack) where
  parsed := parsePacket_bytes (show 40 + 0 < 65536 by decide) hport
    (show httpPort < 65536 by decide) (show 0 < 65536 by decide)
  port := rfl
  noSyn := show ACK &&& SYN = 0 by decide
  matched := ⟨hactive, rfl, rfl⟩
  noRst := show ACK &&& RST = 0 by decide

/-- The oldest number after a packet that leaves the connection open. -/
theorem sndUna_handleStream {s : TcpServer} {inner : List UInt8} {p : Packet}
    (ht : s.Takes inner p) (hack : p.flags &&& ACK ≠ 0) {now : ℕ} {iss : UInt32}
    (hactive : (s.handleStream inner now iss).1.conn.active = true) :
    (s.handleStream inner now iss).1.conn.sndUna =
      if SeqNumber.lt s.conn.sndUna p.ack && !SeqNumber.lt s.conn.sndNxt p.ack then p.ack
      else s.conn.sndUna := by
  have hafter : (s.afterAck p).conn.sndUna = (s.conn.onAck p.ack p.win).sndUna := by
    rw [afterAck, if_pos hack]
  rw [← s.conn.sndUna_onAck p.ack p.win, ← hafter]
  rcases ht.handleStream_eq now iss with ⟨-, -, heq⟩ | ⟨t, -, huna, heq⟩
  · rw [heq] at hactive
    cases hactive
  · rw [heq, ← huna]
    exact (t.conn.pump_frame now _).sndUna

end Session

/-! ### The main results -/

/-- **When every acknowledgement is honoured**: exactly in the states whose next number
is the highest that was sent, in every run with responses that are short enough. -/
theorem acks_honoured_iff {handler : Option RouteFn} {es : List TcpEvent} {x : Session}
    (hsmall : Along Session.step
      (fun x e => ∀ r, x.server.staged e = some r → r.totalLen < 2 ^ 31 - 1)
      (Session.start handler) es)
    (hrun : run Session.step (Session.start handler) es = some x)
    (hactive : x.server.conn.active = true) :
    x.AcksHonoured ↔ Highest x.flow x.server.conn.sndNxt := by
  have hinv : x.Ordered := by
    refine run_inv_along (fun x e x' h hok hstep => ?_) (Session.ordered_start handler) hsmall hrun
    rw [← Option.some_inj.mp hstep]
    exact Session.ordered_step h hok
  obtain ⟨top, hreach⟩ := hinv.reach hactive
  have htop : x.server.conn.rel top < 2 ^ 31 := pos_lt _ _
  have huna := hreach.una
  have hnxt := hreach.nxt
  rw [hreach.highest_iff]
  constructor
  · -- the acknowledgement of everything that was sent
    intro hall
    by_contra hne
    have hrel : x.server.conn.rel x.server.conn.sndNxt ≠ x.server.conn.rel top :=
      fun heq => hne (pos_inj heq)
    have hlt := lt_of_le_of_ne hreach.high hrel
    have hback : SeqNumber.lt x.server.conn.sndNxt top = true :=
      lt_eq_true_of_pos (b := x.server.conn.iss + 1) hlt
        (by change x.server.conn.rel top - x.server.conn.rel x.server.conn.sndNxt ≤ _; omega)
    have hvalid : SeqNumber.lt x.server.conn.sndUna top = true :=
      lt_eq_true_of_pos (b := x.server.conn.iss + 1) (hnxt.trans_lt hlt)
        (by change x.server.conn.rel top - x.server.conn.rel x.server.conn.sndUna ≤ _; omega)
    have ht := Session.takes_ackPacket hactive (hinv.port hactive) top
    -- it does not close the connection
    have hopen : (x.server.handleStream (Session.ackPacket x.server.conn top).bytes 0
        0).1.conn.active = true := by
      rcases ht.handleStream_eq 0 0 with ⟨-, hfin, -⟩ | ⟨t, ht', -, heq⟩
      · exact absurd (by decide : ACK &&& FIN = 0) hfin
      · rw [heq]
        change (t.conn.pump 0 _).1.active = true
        rw [(t.conn.pump_frame 0 _).active, ht', afterAck]
        split
        · exact (x.server.conn.onAck_spec _ _).2.2.2.1.trans hactive
        · exact hactive
    have hack : ACK &&& ACK ≠ 0 := by decide
    have hsame : SeqNumber.lt top top = false :=
      lt_eq_false_of_pos (b := x.server.conn.iss + 1) le_rfl (by omega)
    -- so it counts, although it is beyond what the server sends next
    have hmoved := hall _ 0 0 _ top ht hack ((hreach.highest_iff top).mpr rfl) hvalid hsame hopen
    rw [Session.sndUna_handleStream ht hack hopen] at hmoved
    change (if SeqNumber.lt x.server.conn.sndUna top && !SeqNumber.lt x.server.conn.sndNxt top
      then top else x.server.conn.sndUna) = top at hmoved
    rw [hback, Bool.not_true, Bool.and_false, if_neg Bool.false_ne_true] at hmoved
    rw [hmoved] at hvalid
    rw [hsame] at hvalid
    cases hvalid
  · -- only the numbers up to the next one are acknowledged
    intro heq inner now iss p h ht hack hhigh hlt hle hopen
    rw [hreach.highest_iff] at hhigh
    rw [hhigh, ← heq] at hle
    rw [Session.sndUna_handleStream ht hack hopen, hlt, hle]
    rfl

/-- A request, and its response once. -/
theorem acks_honoured_iff_hi :
    (((Session.start hiHandler).onEvent synEvent).onEvent
      (requestEvent 1001 (PSH ||| ACK))).AcksHonoured ↔
    Highest (((Session.start hiHandler).onEvent synEvent).onEvent
      (requestEvent 1001 (PSH ||| ACK))).flow
      (((Session.start hiHandler).onEvent synEvent).onEvent
        (requestEvent 1001 (PSH ||| ACK))).server.conn.sndNxt := by
  exact @acks_honoured_iff hiHandler [synEvent, requestEvent 1001 (PSH ||| ACK)] _ stagesShort_hi rfl
    (by decide +kernel)

/-- The client closes its window. -/
def closeWindowEvent : TcpEvent := .packet { clientPacket 119 1001 ACK "" with win := 0 }.bytes 0 0

/-- The client acknowledges everything. -/
def ackAll : Packet := clientPacket 119 1141 ACK ""

/-- **An acknowledgement is refused**: the client closes its window, the timeout sends
one byte again, and the acknowledgement of the first transmission arrives after it. -/
theorem ack_refused : ∃ (handler : Option RouteFn) (es : List TcpEvent) (x : Session),
    run Session.step (Session.start handler) es = some x ∧
    x.server.conn.active = true ∧ ¬ x.AcksHonoured := by
  refine ⟨hiHandler, [synEvent, requestEvent 1001 (PSH ||| ACK), closeWindowEvent, .tick 2000],
    ((((Session.start hiHandler).onEvent synEvent).onEvent
      (requestEvent 1001 (PSH ||| ACK))).onEvent closeWindowEvent).onEvent (.tick 2000), rfl, ?_⟩
  generalize hx : ((((Session.start hiHandler).onEvent synEvent).onEvent
      (requestEvent 1001 (PSH ||| ACK))).onEvent closeWindowEvent).onEvent (.tick 2000) = x
  obtain ⟨hmatch, hends, huna, hopen, hkept⟩ : x.server.Matches ackAll ∧
      x.flow.map (fun y => endSeq y.packet) = [1001, 1141, 1002] ∧
      x.server.conn.sndUna = 1001 ∧
      (x.server.handleStream ackAll.bytes 3000 0).1.conn.active = true ∧
      (x.server.handleStream ackAll.bytes 3000 0).1.conn.sndUna = 1001 := by
    rw [← hx]
    decide +kernel
  refine ⟨hmatch.1, fun hall => ?_⟩
  have hhigh : Highest x.flow 1141 := by
    constructor
    · have hmem : (1141 : UInt32) ∈ [1001, 1141, 1002] := by decide
      rw [← hends] at hmem
      exact List.mem_map.mp hmem
    · intro y hy
      have hmem := List.mem_map_of_mem (f := fun y : Sent => endSeq y.packet) hy
      rw [hends] at hmem
      have hle : [(1001 : UInt32), 1141, 1002].all (fun n => !SeqNumber.lt 1141 n) = true := by
        decide
      exact (Bool.not_eq_true' _).mp (List.all_eq_true.mp hle _ hmem)
  have hparsed : parsePacket ackAll.bytes = some ackAll :=
    parsePacket_bytes (by decide) (by decide) (by decide) (by decide)
  have hvalid : SeqNumber.lt x.server.conn.sndUna 1141 = true := by
    rw [huna]
    decide
  have hmoved := hall ackAll.bytes 3000 0 ackAll 1141
    ⟨hparsed, rfl, by decide, hmatch, by decide⟩ (by decide) hhigh hvalid (by decide) hopen
  rw [hkept] at hmoved
  revert hmoved
  decide
