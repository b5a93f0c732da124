/-
# The timer of the server

A tick looks at two clocks.  The watchdog compares the time with when the connection was
opened; it should ask when the connection last made progress, and so it resets one that
does after `maxConnMs` (`watchdog_kills_progress`).  The retransmission timer goes back to
the oldest number that is not acknowledged and runs the pump from there.  Where only the
FIN is outstanding the pump has no piece to send, so the FIN is never sent again
(`fin_not_resent`).

`Ticks` says once what a tick can do.  With it the watchdog is right exactly along the runs
without a tick between the end of the lifetime and `maxConnMs` after the last progress
(`watchdog_iff`), and a timeout sends something again exactly when a byte of the response
can be read for it (`timeout_resends_iff`).
-/
import PySpell.TcpSession

open Text Http Tcp TcpServer Runs

namespace TcpServer

/-! ## What a tick does -/

/-- The lifetime of the connection is over. -/
def Overdue (s : TcpServer) (now : ℕ) : Prop :=
  s.conn.active = true ∧ s.conn.openedMs + maxConnMs < now

/-- What a tick can do. -/
inductive Ticks (s : TcpServer) (now : ℕ) : TcpServer × List Sent → Prop
  | idle (hdue : ¬s.Overdue now) (hfires : s.rtoFires now = false) : Ticks s now (s, [])
  | lifetime (hdue : s.Overdue now) (hfires : s.rtoFires now = false) :
      Ticks s now s.resetWithRst
  | exhausted (hdue : ¬s.Overdue now) (hfires : s.rtoFires now = true)
      (hexh : s.rtoExhausted = true) : Ticks s now s.resetWithRst
  | resent (hdue : ¬s.Overdue now) (hfires : s.rtoFires now = true)
      (hexh : s.rtoExhausted = false) :
      Ticks s now (s.rewound.pumped now (max s.rewound.conn.sendWindow 1))

/-- **What a tick does.** -/
theorem ticks (s : TcpServer) (now : ℕ) : s.Ticks now (s.tick now) := by
  have hlife : maxConnMs < now - s.conn.openedMs ↔ s.conn.openedMs + maxConnMs < now := by
    omega
  unfold tick
  split
  · next hactive =>
    rw [Bool.not_eq_true'] at hactive
    refine .idle (fun h => ?_) ?_
    · rw [h.1] at hactive
      cases hactive
    · rw [rtoFires, hactive]
      rfl
  next hactive =>
  rw [Bool.not_eq_true', Bool.not_eq_false] at hactive
  split
  · next hdue =>
    refine .lifetime ⟨hactive, hlife.mp hdue⟩ ?_
    rw [rtoFires, decide_eq_true hdue, Bool.not_true, Bool.and_false]
    rfl
  next hdue =>
  have hdue' : ¬s.Overdue now := fun h => hdue (hlife.mpr h.2)
  split
  · next hfires => exact .idle hdue' ((Bool.not_eq_true' _).mp hfires)
  next hfires =>
  rw [Bool.not_eq_true', Bool.not_eq_false] at hfires
  split
  · next hexh => exact .exhausted hdue' hfires hexh
  next hexh =>
  rw [Bool.not_eq_true] at hexh
  exact .resent hdue' hfires hexh

/-- The timer fires for an open connection only. -/
theorem active_of_rtoFires {s : TcpServer} {now : ℕ} (h : s.rtoFires now = true) :
    s.conn.active = true := by
  simp only [rtoFires, Bool.and_eq_true] at h
  exact h.1.1.1.1

/-- Pumping does not end a connection. -/
theorem active_pumped (s : TcpServer) (now window : ℕ) :
    (s.pumped now window).1.conn.active = s.conn.active :=
  (s.conn.pump_frame now window).active

/-- **The watchdog resets a connection**: a tick ends it, and not for the retransmission
timer. -/
def WatchdogResets (s : TcpServer) (now : ℕ) : Prop :=
  s.conn.active = true ∧ (s.tick now).1.conn.active = false ∧ s.rtoFires now = false

/-- The watchdog resets exactly the connections that are overdue: it looks at the time of the SYN
and at nothing that happened since. -/
theorem watchdogResets_iff (s : TcpServer) (now : ℕ) : s.WatchdogResets now ↔ s.Overdue now := by
  have hticks := s.ticks now
  unfold WatchdogResets
  generalize s.tick now = out at hticks
  cases hticks with
  | idle hdue =>
    refine iff_of_false (fun h => ?_) hdue
    rw [h.1] at h
    exact Bool.noConfusion h.2.1
  | lifetime hdue hfires => exact iff_of_true ⟨hdue.1, rfl, hfires⟩ hdue
  | exhausted hdue hfires =>
    refine iff_of_false (fun h => ?_) hdue
    rw [hfires] at h
    exact Bool.noConfusion h.2.2
  | resent hdue hfires =>
    refine iff_of_false (fun h => ?_) hdue
    rw [hfires] at h
    exact Bool.noConfusion h.2.2

end TcpServer

/-! ## The watchdog -/

/-- A server, and when its connection was opened or last made progress. -/
structure Watched where
  server : TcpServer
  progressMs : ℕ

namespace Watched

def start (handler : Option RouteFn) : Watched := ⟨TcpServer.new handler, 0⟩

/-- The connection is new, or its oldest number that is not acknowledged has moved. -/
def progresses (s : TcpServer) (inner : List UInt8) (s' : TcpServer) : Bool :=
  (opening inner).isSome || s'.conn.active && s'.conn.sndUna != s.conn.sndUna

/-- One event. -/
def onEvent (x : Watched) : TcpEvent → Watched
  | .packet inner now iss =>
    let s := (x.server.handleStream inner now iss).1
    ⟨s, if progresses x.server inner s then now else x.progressMs⟩
  | .tick now => ⟨(x.server.tick now).1, x.progressMs⟩

def step (x : Watched) (e : TcpEvent) : Option Watched := some (x.onEvent e)

/-- The watchdog resets only a connection that has long made no progress. -/
def KillsOnlyStuck (x : Watched) (e : TcpEvent) : Prop :=
  ∀ ⦃now⦄, e = .tick now → x.server.WatchdogResets now → x.progressMs + maxConnMs < now

/-- No tick comes at the end of the lifetime while the last progress is recent. -/
def NotBetween (x : Watched) (e : TcpEvent) : Prop :=
  ∀ ⦃now⦄, e = .tick now → x.server.conn.active = true →
    ¬(x.server.conn.openedMs + maxConnMs < now ∧ now ≤ x.progressMs + maxConnMs)

/-- So it spares a connection that makes progress exactly when the tick is not between the two
times. -/
theorem killsOnlyStuck_iff (x : Watched) (e : TcpEvent) : x.KillsOnlyStuck e ↔ x.NotBetween e := by
  constructor
  · rintro hkills now he hactive ⟨hdue, hrecent⟩
    have hstuck := hkills he ((x.server.watchdogResets_iff now).mpr ⟨hactive, hdue⟩)
    omega
  · intro hnot now he hresets
    obtain ⟨hactive, hdue⟩ := (x.server.watchdogResets_iff now).mp hresets
    have hbetween := hnot he hactive
    omega

end Watched

/-- **The watchdog only kills stuck connections exactly along the runs without a tick between
the end of a lifetime and `maxConnMs` after the last progress.** -/
theorem watchdog_iff (handler : Option RouteFn) (es : List TcpEvent) :
    Along Watched.step Watched.KillsOnlyStuck (Watched.start handler) es ↔
      Along Watched.step Watched.NotBetween (Watched.start handler) es :=
  along_congr Watched.killsOnlyStuck_iff _ es

/-- An acknowledgement without data, at a time. -/
def ackAt (now : ℕ) (ack : UInt32) : TcpEvent :=
  .packet (clientPacket 101 ack ACK "").bytes now 0

/-- **The watchdog kills a connection that makes progress**: it was opened 30001 ms ago, and
an acknowledgement came 1001 ms ago. -/
theorem watchdog_kills_progress :
    ¬Along Watched.step Watched.KillsOnlyStuck (Watched.start none)
      [synEvent, ackAt 29000 1001, .tick 30001] := by
  rintro ⟨-, h⟩
  obtain ⟨-, h⟩ := h _ rfl
  obtain ⟨hkills, -⟩ := h _ rfl
  have hstuck := hkills rfl ⟨rfl, rfl, rfl⟩
  revert hstuck
  decide

/-! ## The retransmission timer -/

namespace Conn

/-- The piece that is due from the oldest number that is not acknowledged. -/
def duePiece (c : Conn) (window : ℕ) : List UInt8 :=
  let total := c.resp.elim 0 RespState.totalLen
  c.readResponse c.ackedBytes (min (min (c.ackedBytes + window) total - c.ackedBytes) mss)

/-- One turn of the pump, with a response staged. -/
theorem pump_eq {c : Conn} {r : RespState} (hr : c.resp = some r) (now window : ℕ) :
    ∃ fuel, c.pump now window = c.pumpLoop now window r.totalLen (fuel + 1) :=
  ⟨2 ^ 32 - 1, by rw [pump, hr]; rfl⟩

/-- **A pump that starts from the oldest number sends exactly when a piece is due.** -/
theorem pump_sends_iff {c : Conn} (hback : c.sndNxt = c.sndUna) (now window : ℕ) :
    (∃ y rest, (c.pump now window).2 = y :: rest ∧ seqOf y.packet = c.sndUna) ↔
      c.duePiece window ≠ [] := by
  have hsent : c.sentBytes = c.ackedBytes := by rw [sentBytes, hback, ackedBytes]
  have hseq : ∀ flags bytes, seqOf (c.send flags bytes).packet = c.sndUna := fun flags bytes =>
    (seqOf_segment c flags bytes).trans hback
  cases hr : c.resp with
  | none =>
    have hnil : c.duePiece window = [] := by
      rw [duePiece, readResponse, hr]
      rfl
    have hpump : c.pump now window = (c, []) := by rw [pump, hr]
    rw [hpump, hnil]
    refine iff_of_false ?_ fun h => h rfl
    rintro ⟨y, rest, hcons, -⟩
    cases hcons
  | some r =>
    obtain ⟨fuel, heq⟩ := pump_eq hr now window
    have hdue : c.duePiece window = c.readResponse c.ackedBytes
        (min (min (c.ackedBytes + window) r.totalLen - c.ackedBytes) mss) := by
      rw [duePiece, hr]
      rfl
    rw [heq, pumpLoop, hsent, hdue]
    dsimp only
    split
    · next hedge =>
      -- nothing is left to read, so nothing is read
      refine iff_of_false ?_ fun h => h ?_
      · rintro ⟨y, rest, hcons, -⟩
        cases hcons
      · have hzero : min (min (c.ackedBytes + window) r.totalLen - c.ackedBytes) mss = 0 := by
          omega
        rw [hzero, readResponse, hr, Option.elim_some]
        exact List.eq_nil_of_length_eq_zero (Nat.le_zero.mp (r.read_spec _ _).1)
    split
    · next hn =>
      refine iff_of_false ?_ fun h => h (List.eq_nil_of_length_eq_zero hn)
      rintro ⟨y, rest, hcons, -⟩
      cases hcons
    next hn =>
    have hne : c.readResponse c.ackedBytes
      (min (min (c.ackedBytes + window) r.totalLen - c.ackedBytes) mss) ≠ [] :=
    fun h => hn (congrArg List.length h)
    split
    · exact iff_of_true ⟨_, _, rfl, hseq _ _⟩ hne
    · exact iff_of_true ⟨_, _, rfl, hseq _ _⟩ hne

end Conn

namespace TcpServer

/-- The timer has expired, and may still fire. -/
def Retries (s : TcpServer) (now : ℕ) : Prop := s.rtoFires now = true ∧ s.rtoExhausted = false

/-- A timeout sends something, and first of all from the oldest number that is not
acknowledged. -/
def Resends (s : TcpServer) (e : TcpEvent) : Prop :=
  ∀ ⦃now⦄, e = .tick now → s.Retries now →
    ∃ y rest, (s.tick now).2 = y :: rest ∧ seqOf y.packet = s.conn.sndUna

/-- A timeout comes while a byte of the response can be read from the oldest number that is
not acknowledged. -/
def HasPiece (s : TcpServer) (e : TcpEvent) : Prop :=
  ∀ ⦃now⦄, e = .tick now → s.Retries now → s.conn.duePiece (max s.conn.sendWindow 1) ≠ []

/-- Going back to the oldest number does not change which piece is due from it. -/
theorem duePiece_rewound (s : TcpServer) (window : ℕ) :
    s.rewound.conn.duePiece window = s.conn.duePiece window := by
  unfold Conn.duePiece Conn.readResponse Conn.ackedBytes Conn.bytesBefore rewound
  cases s.conn.resp with
  | none => rfl
  | some r => rfl

/-- **The timer sends again exactly when there is a piece**: its conditions do not ask whether the
response has one left, the pump does. -/
theorem resends_iff (s : TcpServer) (e : TcpEvent) : s.Resends e ↔ s.HasPiece e := by
  refine forall_congr' fun now => forall_congr' fun _ => forall_congr' fun hretries => ?_
  have hticks := s.ticks now
  generalize s.tick now = out at hticks ⊢
  cases hticks with
  | idle _ hfires =>
    rw [hretries.1] at hfires
    cases hfires
  | lifetime _ hfires =>
    rw [hretries.1] at hfires
    cases hfires
  | exhausted _ _ hexh =>
    rw [hretries.2] at hexh
    cases hexh
  | resent =>
    rw [← s.duePiece_rewound]
    exact s.rewound.conn.pump_sends_iff rfl now _

end TcpServer

/-- **Every timeout sends something again exactly along the runs whose timeouts come while
there is a byte to send.** -/
theorem timeout_resends_iff (handler : Option RouteFn) (es : List TcpEvent) :
    Along Session.step (fun x e => x.server.Resends e) (Session.start handler) es ↔
      Along Session.step (fun x e => x.server.HasPiece e) (Session.start handler) es :=
  along_congr (fun x e => x.server.resends_iff e) _ es

/-- **The FIN is not sent again**: the response is acknowledged, but not its FIN, and the
timeout sends nothing. -/
theorem fin_not_resent :
    ¬Along Session.step (fun x e => x.server.Resends e) (Session.start hiHandler)
      [synEvent, requestEvent 1001 (PSH ||| ACK), ackEvent 1140, .tick 2000] := by
  rintro ⟨-, h⟩
  obtain ⟨-, h⟩ := h _ rfl
  obtain ⟨-, h⟩ := h _ rfl
  obtain ⟨hresends, -⟩ := h _ rfl
  generalize hx : (((Session.start hiHandler).onEvent synEvent).onEvent
    (requestEvent 1001 (PSH ||| ACK))).onEvent (ackEvent 1140) = x at hresends
  obtain ⟨hfires, hexh, hnil⟩ : x.server.rtoFires 2000 = true ∧ x.server.rtoExhausted = false ∧
      (x.server.tick 2000).2.isEmpty = true := by
    rw [← hx]
    decide +kernel
  obtain ⟨y, rest, hcons, -⟩ := hresends rfl ⟨hfires, hexh⟩
  rw [hcons] at hnil
  cases hnil
