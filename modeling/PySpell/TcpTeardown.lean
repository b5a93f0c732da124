/-
# How a connection ends

While the response is not acknowledged to its end, a connection should end only by a RST
of the client, by a new SYN, by the watchdog or when the retransmissions are exhausted.  A
FIN without data ends it at once, also when the client has only finished sending and still
waits for the rest of the response (`half_close_discards`); a FIN that comes with data does
not.

`Lawful` are the events that may end a connection.  No connection ends early exactly along
the runs whose FINs without data find the response acknowledged (`teardown_iff`).
-/
import PySpell.TcpTimer

open Text Http Tcp TcpServer Runs

namespace Conn

/-- A byte of the response is not acknowledged. -/
def Unfinished (c : Conn) : Prop := ∃ r, c.resp = some r ∧ c.rel c.sndUna < r.totalLen

end Conn

namespace TcpServer

variable {s : TcpServer} {inner : List UInt8} {now : ℕ} {iss : UInt32}

/-! ## Ends -/

/-- A RST of the client of the connection. -/
def IsRst (s : TcpServer) (inner : List UInt8) : Prop :=
  ∃ p, parsePacket inner = some p ∧ p.dport = httpPort ∧ p.flags &&& SYN = 0 ∧ s.Matches p ∧
    p.flags &&& RST ≠ 0

/-- A FIN without data for the connection. -/
def IsFin (s : TcpServer) (inner : List UInt8) (p : Packet) : Prop :=
  s.Takes inner p ∧ p.payload = [] ∧ p.flags &&& FIN ≠ 0

/-- A packet that opens nothing, and that the connection neither takes nor is reset by, does
nothing. -/
theorem receive_eq_self (hopen : opening inner = none) (htake : s.taking inner = none)
    (hrst : ¬s.IsRst inner) (now : ℕ) (iss : UInt32) :
    s.receive inner now iss = (s, [], false) := by
  cases hparse : parsePacket inner with
  | none => rw [receive, hparse]
  | some p =>
    rw [receive, hparse]
    dsimp only
    by_cases hport : p.dport = httpPort
    · rw [if_neg fun h => h hport]
      have hsyn : p.flags &&& SYN = 0 := by
        by_contra hne
        rw [opening_eq_some.mpr ⟨hparse, hport, hne⟩] at hopen
        cases hopen
      rw [if_neg fun h => h hsyn]
      split
      · rfl
      next hmatch =>
      have hm : s.Matches p := by
        simp only [Bool.or_eq_true, Bool.not_eq_true', decide_eq_true_iff, not_or, not_not,
          Bool.not_eq_false, ne_eq] at hmatch
        exact ⟨hmatch.1.1, hmatch.1.2, hmatch.2⟩
      by_cases hflag : p.flags &&& RST = 0
      · rw [taking_eq_some.mpr ⟨hparse, hport, hsyn, hm, hflag⟩] at htake
        cases htake
      · exact absurd ⟨p, hparse, hport, hsyn, hm, hflag⟩ hrst
    · rw [if_pos hport]

/-- The ACK field does not end the connection. -/
theorem active_afterAck (s : TcpServer) (p : Packet) :
    (s.afterAck p).conn.active = s.conn.active := by
  unfold afterAck
  split
  · exact (s.conn.onAck_spec p.ack p.win).2.2.2.1
  · rfl

/-- **What ends a connection**, of the packets that open none: a RST, or a FIN without
data. -/
theorem ends_cases (hactive : s.conn.active = true) (hopen : opening inner = none)
    (hends : (s.handleStream inner now iss).1.conn.active = false) :
    s.IsRst inner ∨ ∃ p, s.IsFin inner p := by
  cases htake : s.taking inner with
  | some p =>
    have ht := taking_eq_some.mp htake
    rcases ht.handleStream_eq now iss with ⟨hdata, hfin, -⟩ | ⟨t, hact, -, heq⟩
    · exact .inr ⟨p, ht, hdata, hfin⟩
    · rw [heq, active_pumped, hact, active_afterAck, hactive] at hends
      cases hends
  | none =>
    by_contra hnot
    rw [not_or] at hnot
    rw [handleStream_of_stops (receive_eq_self hopen htake hnot.1 now iss), hactive] at hends
    cases hends

/-- A FIN without data always does. -/
theorem ends_of_fin {p : Packet} (h : s.IsFin inner p) :
    (s.handleStream inner now iss).1.conn.active = false := by
  rw [h.1.handleStream_fin h.2.1 h.2.2]
  rfl

/-- **What ends a connection of the timer**: the watchdog, or retransmissions without an
answer. -/
theorem tick_ends_iff (hactive : s.conn.active = true) :
    (s.tick now).1.conn.active = false ↔
      s.WatchdogResets now ∨ (s.rtoFires now = true ∧ s.rtoExhausted = true) := by
  rw [watchdogResets_iff]
  have hticks := s.ticks now
  generalize s.tick now = out at hticks
  cases hticks with
  | idle hdue hfires =>
    rw [hactive, hfires]
    exact iff_of_false Bool.noConfusion fun h => h.elim hdue fun h => Bool.noConfusion h.1
  | lifetime hdue => exact iff_of_true rfl (.inl hdue)
  | exhausted _ hfires hexh => exact iff_of_true rfl (.inr ⟨hfires, hexh⟩)
  | resent hdue _ hexh =>
    have hopen : (s.rewound.pumped now (max s.rewound.conn.sendWindow 1)).1.conn.active = true :=
      (active_pumped _ _ _).trans hactive
    rw [hopen, hexh]
    exact iff_of_false Bool.noConfusion fun h => h.elim hdue fun h => Bool.noConfusion h.2

/-! ## Early ends -/

/-- The connection after the ACK field of an event. -/
def ackedConn (s : TcpServer) : TcpEvent → Conn
  | .packet inner _ _ => (s.taking inner).elim s.conn fun p => (s.afterAck p).conn
  | .tick _ => s.conn

/-- The event ends the connection: it is gone, or another one is in its place. -/
def EndsConn (s : TcpServer) : TcpEvent → Prop
  | .packet inner now iss =>
    (opening inner).isSome = true ∨ (s.handleStream inner now iss).1.conn.active = false
  | .tick now => (s.tick now).1.conn.active = false

/-- The events that may end a connection while its response is not acknowledged. -/
def Lawful (s : TcpServer) : TcpEvent → Prop
  | .packet inner _ _ => (opening inner).isSome = true ∨ s.IsRst inner
  | .tick now => s.WatchdogResets now ∨ (s.rtoFires now = true ∧ s.rtoExhausted = true)

/-- No connection ends early. -/
def EndsLate (s : TcpServer) (e : TcpEvent) : Prop :=
  s.conn.active = true → (s.ackedConn e).Unfinished → s.EndsConn e → s.Lawful e

/-- A FIN without data comes when the response is acknowledged. -/
def FinLate (s : TcpServer) (e : TcpEvent) : Prop :=
  ∀ ⦃inner now iss p⦄, e = .packet inner now iss → s.IsFin inner p →
    ¬(s.afterAck p).conn.Unfinished

/-- What the acknowledgement of the FIN does, by the state before it. -/
theorem endsLate_iff (s : TcpServer) (e : TcpEvent) : s.EndsLate e ↔ s.FinLate e := by
  cases e with
  | tick now =>
    refine iff_of_true (fun hactive _ hends => (tick_ends_iff hactive).mp hends) ?_
    rintro inner now iss p ⟨⟩
  | packet inner now iss =>
    constructor
    · rintro hlate _ _ _ p ⟨⟩ hfin hunfinished
      have hacked : s.ackedConn (.packet inner now iss) = (s.afterAck p).conn := by
        rw [ackedConn, taking_eq_some.mpr hfin.1, Option.elim_some]
      have hlawful := hlate hfin.1.matched.1 (hacked ▸ hunfinished) (.inr (ends_of_fin hfin))
      rcases hlawful with hopen | ⟨q, hq, -, -, -, hrst⟩
      · rw [hfin.1.opening_eq_none] at hopen
        cases hopen
      · obtain rfl := Option.some.inj (hfin.1.parsed.symm.trans hq)
        exact hrst hfin.1.noRst
    · intro hlate hactive hunfinished hends
      rcases hends with hopen | hends
      · exact .inl hopen
      cases hopen : opening inner with
      | some p => exact .inl (by rw [hopen]; rfl)
      | none =>
        rcases ends_cases hactive hopen hends with hrst | ⟨p, hfin⟩
        · exact .inr hrst
        · rw [ackedConn, taking_eq_some.mpr hfin.1, Option.elim_some] at hunfinished
          exact absurd hunfinished (hlate rfl hfin)

end TcpServer

/-- **No connection ends early exactly along the runs whose FINs without data find the
response acknowledged.** -/
theorem teardown_iff (handler : Option RouteFn) (es : List TcpEvent) :
    Along Session.step (fun x e => x.server.EndsLate e) (Session.start handler) es ↔
      Along Session.step (fun x e => x.server.FinLate e) (Session.start handler) es :=
  along_congr (fun x e => x.server.endsLate_iff e) _ es

/-- The client has sent its request, and finishes sending. -/
def halfClose : Packet := clientPacket 119 1001 (FIN ||| ACK) ""

/-- **A client that finishes sending does not get the response.** -/
theorem half_close_discards :
    ¬Along Session.step (fun x e => x.server.EndsLate e) (Session.start hiHandler)
      [synEvent, requestEvent 1001 (PSH ||| ACK), .packet halfClose.bytes 0 0] := by
  rintro ⟨-, h⟩
  obtain ⟨-, h⟩ := h _ rfl
  obtain ⟨hlate, -⟩ := h _ rfl
  generalize hx : ((Session.start hiHandler).onEvent synEvent).onEvent
    (requestEvent 1001 (PSH ||| ACK)) = x at hlate
  obtain ⟨hmatch, htotal, huna⟩ : x.server.Matches halfClose ∧
      (x.server.afterAck halfClose).conn.resp.map RespState.totalLen = some 139 ∧
      (x.server.afterAck halfClose).conn.rel (x.server.afterAck halfClose).conn.sndUna = 0 := by
    rw [← hx]
    decide +kernel
  have hparsed : parsePacket halfClose.bytes = some halfClose :=
    parsePacket_bytes (by decide) (by decide) (by decide) (by decide)
  have hfin : x.server.IsFin halfClose.bytes halfClose :=
    ⟨⟨hparsed, rfl, by decide, hmatch, by decide⟩, rfl, by decide⟩
  obtain ⟨r, hr, hlen⟩ := Option.map_eq_some_iff.mp htotal
  refine (x.server.endsLate_iff _).mp hlate rfl hfin ⟨r, hr, ?_⟩
  rw [huna, hlen]
  decide
