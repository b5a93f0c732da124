/-
# The send window

The pump sends as long as fewer bytes are outstanding than the window admits.  What is
outstanding after a segment is counted here by sequence numbers, from the oldest one that
is not acknowledged to the end of its data (`Sent.outstanding`).  For responses of fewer
than `2^31 - 1` bytes it stays within the window along every run (`flow_control`).  The
server counts with offsets that it reads as `i32`: at the offset `2^31` of a longer
response it starts again from the first byte, and no window stops it (`window_overrun`).
-/
import PySpell.TcpAck
import PySpell.TcpTimer

open Text Http Tcp TcpServer Runs SeqNumber

/-- The response bytes from the oldest number that is not acknowledged to the end of a
segment, the SYN left out; and those of the segment itself, which starts at the number of
the SYN when a timeout fires before that is acknowledged. -/
def Sent.outstanding (y : Sent) : ℕ :=
  max (payloadOf y.packet).length
    ((dataEnd y.packet - y.conn.sndUna).toNat - if y.conn.sndUna = y.conn.iss then 1 else 0)

namespace Conn

/-- The three numbers are in order, and the response is short enough for its offsets. -/
structure Aligned (c : Conn) : Prop where
  una : -1 ≤ c.rel c.sndUna
  nxt : c.rel c.sndUna ≤ c.rel c.sndNxt
  small : ∀ r, c.resp = some r → r.totalLen + 1 < 2 ^ 31

/-- The numbers of a connection that has only sent in order are aligned with its response. -/
theorem Reach.aligned {c : Conn} {flow : List Sent} {top : UInt32} (h : c.Reach flow top) :
    c.Aligned := ⟨h.una, h.nxt, h.small⟩

/-- The next number after a piece. -/
theorem rel_add {c : Conn} {r : RespState} (hr : c.resp = some r) {n : ℕ}
    (hsmall : r.totalLen + 1 < 2 ^ 31) (hlen : c.sentBytes + n ≤ r.totalLen)
    (hsent : c.sentBytes < r.totalLen) :
    c.rel (c.sndNxt + UInt32.ofNat n) = c.rel c.sndNxt + n := by
  have hnext := bytesBefore_pos hr c.sndNxt
  rw [show c.bytesBefore c.sndNxt = c.sentBytes from rfl] at hnext
  exact pos_add (by change c.rel _ + _ < _; omega)

/-- A piece in the window. -/
theorem outstanding_send {c : Conn} {r : RespState} (h : c.Aligned) (hr : c.resp = some r)
    {window : ℕ} {bytes : List UInt8} (flags : UInt8) (hsent : c.sentBytes < r.totalLen)
    (hlen : c.sentBytes + bytes.length ≤ min (c.ackedBytes + window) r.totalLen) :
    (c.send flags bytes).outstanding ≤ window := by
  have hadd := rel_add hr (h.small r hr) (hlen.trans (min_le_right _ _)) hsent
  have hdist := toNat_sub_of_pos (b := c.iss + 1) (x := c.sndUna)
    (y := c.sndNxt + UInt32.ofNat bytes.length)
    (by have := h.nxt; change c.rel c.sndUna ≤ c.rel (c.sndNxt + _); omega)
  change ((c.sndNxt + UInt32.ofNat bytes.length - c.sndUna).toNat : ℤ) =
    c.rel (c.sndNxt + UInt32.ofNat bytes.length) - c.rel c.sndUna at hdist
  have hend : dataEnd (c.send flags bytes).packet = c.sndNxt + UInt32.ofNat bytes.length := by
    rw [dataEnd, send, seqOf_segment, payloadOf_segment]
  have hnext := bytesBefore_pos hr c.sndNxt
  rw [show c.bytesBefore c.sndNxt = c.sentBytes from rfl] at hnext
  have hback := bytesBefore_pos hr c.sndUna
  rw [show c.bytesBefore c.sndUna = c.ackedBytes from rfl] at hback
  have huna := h.una
  have hle := h.nxt
  rw [Sent.outstanding, hend, send, payloadOf_segment]
  dsimp only
  refine max_le (by omega) ?_
  split
  next hsyn =>
    have hsyn' : c.rel c.sndUna = -1 := hsyn ▸ pos_pred c.iss
    omega
  next hsyn =>
    -- the SYN is acknowledged
    have hsyn' : c.rel c.sndUna ≠ -1 := fun heq => hsyn (pos_inj (heq.trans (pos_pred c.iss).symm))
    omega

/-- **The pump keeps to the window.** -/
theorem pumpLoop_outstanding {r : RespState} (now window fuel : ℕ) : ∀ {c : Conn}, c.Aligned →
    c.resp = some r → ∀ y ∈ (c.pumpLoop now window r.totalLen fuel).2,
      y.outstanding ≤ window ∧ y.conn.peerWin = c.peerWin := by
  induction fuel with
  | zero => exact fun _ _ y hy => by simp [pumpLoop] at hy
  | succ fuel ih =>
    intro c h hr
    rw [pumpLoop]
    dsimp only
    split
    · exact fun y hy => by simp at hy
    next hedge =>
    have hread : (c.readResponse c.sentBytes
        (min (min (c.ackedBytes + window) r.totalLen - c.sentBytes) mss)).length ≤
        min (min (c.ackedBytes + window) r.totalLen - c.sentBytes) mss := by
      rw [readResponse, hr, Option.elim_some]
      exact (r.read_spec _ _).1
    generalize c.readResponse c.sentBytes _ = bytes at hread
    have hsmall := h.small r hr
    have hpiece : ∀ flags, (c.send flags bytes).outstanding ≤ window := fun flags =>
      outstanding_send h hr flags (by omega) (by omega)
    split
    · exact fun y hy => by simp at hy
    split
    · intro y hy
      rw [List.mem_singleton.mp hy]
      exact ⟨hpiece _, rfl⟩
    next hmore =>
    intro y hy
    rcases List.mem_cons.mp hy with rfl | hy
    · exact ⟨hpiece _, rfl⟩
    · have hadd := rel_add hr hsmall (n := bytes.length) (by omega) (by omega)
      have hle := h.nxt
      exact ih (c := { c with
          sndNxt := c.sndNxt + UInt32.ofNat bytes.length, lastSendMs := now })
        ⟨h.una, by change c.rel c.sndUna ≤ c.rel (c.sndNxt + _); omega, h.small⟩ hr y hy

end Conn

namespace Conn

/-- Every packet of a pump keeps what is outstanding within the window that the pump was given. -/
theorem pump_outstanding {c : Conn} (h : c.Aligned) (now window : ℕ) :
    ∀ y ∈ (c.pump now window).2, y.outstanding ≤ window ∧ y.conn.sendWindow = c.sendWindow := by
  unfold pump
  cases hr : c.resp with
  | none => exact fun y hy => by simp at hy
  | some r =>
    intro y hy
    obtain ⟨hout, hwin⟩ := pumpLoop_outstanding now window pumpFuel h hr y hy
    exact ⟨hout, by rw [sendWindow, hwin, sendWindow]⟩

end Conn

/-! ## Runs -/

namespace TcpServer

/-- The data that an event sends keeps to the window that is in force; a timeout may send
one byte more than a closed window admits. -/
def KeepsWindow (s : TcpServer) : TcpEvent → Prop
  | .packet inner now iss => ∀ y ∈ (s.handleStream inner now iss).2,
    payloadOf y.packet ≠ [] → y.outstanding ≤ y.conn.sendWindow
  | .tick now => ∀ y ∈ (s.tick now).2,
    payloadOf y.packet ≠ [] → y.outstanding ≤ max y.conn.sendWindow 1

/-- The responses that an event stages are short enough for their offsets. -/
def StagesShort (s : TcpServer) (e : TcpEvent) : Prop :=
  ∀ r, s.staged e = some r → r.totalLen < 2 ^ 31 - 1

/-- What the pump sends of a packet keeps to the window. -/
theorem keepsWindow_pumped {t : TcpServer} (h : t.conn.Aligned) (now : ℕ) :
    ∀ y ∈ (t.pumped now t.conn.sendWindow).2, y.outstanding ≤ y.conn.sendWindow := by
  intro y hy
  obtain ⟨hout, hwin⟩ := t.conn.pump_outstanding h now _ y hy
  rw [hwin]
  exact hout

end TcpServer

namespace Session

/-- Along a run the numbers of an open connection are aligned. -/
theorem Ordered.aligned {x : Session} (h : x.Ordered) (hactive : x.server.conn.active = true) :
    x.server.conn.Aligned := by
  obtain ⟨top, hreach⟩ := h.reach hactive
  exact hreach.aligned

/-- They stay so when the connection takes an acknowledgement. -/
theorem Ordered.aligned_afterAck {x : Session} (h : x.Ordered) {inner : List UInt8} {p : Packet}
    (ht : x.server.Takes inner p) : (x.server.afterAck p).conn.Aligned := by
  obtain ⟨top, hreach⟩ := h.reach ht.matched.1
  exact (reach_afterAck hreach p).1.aligned

/-- **An event keeps to the window.** -/
theorem Ordered.keepsWindow {x : Session} (h : x.Ordered) {e : TcpEvent}
    (hsmall : x.server.StagesShort e) : x.server.KeepsWindow e := by
  cases e with
  | packet inner now iss =>
    -- segments without data keep to any window
    have hsilent : ∀ {s : TcpServer} {sent : List Sent},
        x.server.receive inner now iss = (s, sent, false) →
        (∀ y ∈ sent, payloadOf y.packet = []) → x.server.KeepsWindow (.packet inner now iss) := by
      intro s sent hout hnil y hy hne
      rw [handleStream_of_stops hout] at hy
      exact absurd (hnil y hy) hne
    -- and so does the pump, when its numbers are in order
    have hpumps : ∀ {t : TcpServer}, x.server.receive inner now iss = (t, [], true) →
        t.conn.Aligned → x.server.KeepsWindow (.packet inner now iss) := by
      intro t hout hal y hy _
      rw [handleStream_of_pumps hout] at hy
      exact keepsWindow_pumped hal now y hy
    have hstep := x.server.receives inner now iss
    generalize hout : x.server.receive inner now iss = out at hstep
    cases hstep with
    | ignored => exact hsilent hout (by simp)
    | opened p => exact hsilent hout fun y hy => by rw [List.mem_singleton.mp hy]; rfl
    | reset => exact hsilent hout (by simp)
    | closed p => exact hsilent hout fun y hy => by rw [List.mem_singleton.mp hy]; rfl
    | data p r ht =>
      have hal := h.aligned_afterAck ht
      exact hpumps hout ⟨hal.una, hal.nxt, hal.small⟩
    | ack p ht => exact hpumps hout (h.aligned_afterAck ht)
    -- the response that is staged now is as short as the condition says
    | routed p ht hdata hresp =>
      have hal := h.aligned_afterAck ht
      have hroutes : x.server.routes p = true := by
        rw [routes_of_resp hdata, hresp]
        rfl
      obtain ⟨r, action, heq⟩ := ((x.server.afterAck p).afterData p).buildResponse_eq p.payload
      have hr : r.totalLen < 2 ^ 31 - 1 :=
        hsmall r (by rw [staged_of_routes ht hroutes, heq])
      refine hpumps hout ?_
      rw [heq]
      refine ⟨hal.una, hal.nxt, fun r' hr' => ?_⟩
      rw [← Option.some_inj.mp hr']
      omega
  | tick now =>
    intro y hy hne
    have hticks := x.server.ticks now
    generalize x.server.tick now = out at hy hticks
    cases hticks with
    | idle => simp at hy
    | lifetime =>
      rw [List.mem_singleton.mp hy] at hne
      exact absurd rfl hne
    | exhausted =>
      rw [List.mem_singleton.mp hy] at hne
      exact absurd rfl hne
    -- from the first unacknowledged byte, the same pieces again
    | resent _ hfires =>
      have hal := h.aligned (active_of_rtoFires hfires)
      have hback : x.server.rewound.conn.Aligned := by
        refine ⟨hal.una, le_rfl, fun r hr => ?_⟩
        obtain ⟨r', hr', rfl⟩ := Option.map_eq_some_iff.mp hr
        exact hal.small r' hr'
      obtain ⟨hout, hwin⟩ := x.server.rewound.conn.pump_outstanding hback now _ y hy
      rw [hwin]
      exact hout

end Session

/-- **Flow control**: along every run with responses that are short enough, the data that is
sent keeps to the window. -/
theorem flow_control {handler : Option RouteFn} {es : List TcpEvent}
    (hsmall : Along Session.step (fun x e => x.server.StagesShort e) (Session.start handler) es) :
    Along Session.step (fun x e => x.server.KeepsWindow e) (Session.start handler) es := by
  have hstep : ∀ (x : Session) (e : TcpEvent) (x' : Session), x.Ordered →
      x.server.StagesShort e → x.step e = some x' → x'.Ordered := by
    rintro x e _ h hok ⟨⟩
    exact Session.ordered_step h hok
  exact along_of_inv hstep (fun x e h hok => h.keepsWindow hok) (Session.ordered_start handler)
    hsmall

/-- The run of a small request keeps the window. -/
theorem flow_control_hi :
    Along Session.step (fun x e => x.server.KeepsWindow e) (Session.start hiHandler)
      [synEvent, requestEvent 1001 (PSH ||| ACK)] :=
  flow_control stagesShort_hi

/-! ## A response that is too long for its offsets -/

/-- A reader of zeros. -/
def zeroReader : FlashReader where
  content := fun _ => 0
  readAt := fun _ want => List.replicate want 0
  length_le := fun _ _ => (List.length_replicate ..).le
  getElem_eq := fun _ _ _ _ => List.getElem_replicate ..

/-- A body of more than `2^31` bytes. -/
def hugeReply : HttpReply := ⟨200, "", .flash zeroReader (2 ^ 31 + 4096), none⟩

def hugeHandler : RouteFn := fun _ _ _ _ => some hugeReply

/-- A request of one byte. -/
def hugeRequest : Packet := { clientPacket 101 1001 (PSH ||| ACK) "" with payload := [255] }

def hugeResponse : RespState := stageResponse hugeReply [255]

/-- A request that is not a text asks for no range. -/
theorem parseRange_hugeRequest (total : ℕ) : parseRange [255] total = .ok none := by
  have hnone : decodeChar [255] = none := rfl
  have hpre : validPrefix [255] = ([], 0) := by
    rw [validPrefix]
    split
    · rfl
    next h => cases hnone.symm.trans h
  rw [parseRange, fromUtf8, hpre]
  rfl

/-- The whole body is served. -/
theorem slice_hugeRequest (status total : ℕ) :
    (chooseSlice status [255] total).base = 0 ∧ (chooseSlice status [255] total).len = total := by
  have hnone := parseRange_hugeRequest total
  unfold chooseSlice
  split
  · exact ⟨rfl, rfl⟩
  next h => cases hnone.symm.trans h
  next h => cases hnone.symm.trans h

theorem bodyBase_hugeResponse : hugeResponse.bodyBase = 0 :=
  (slice_hugeRequest 200 (2 ^ 31 + 4096)).1

theorem totalLen_hugeResponse :
    hugeResponse.totalLen = hugeResponse.hdrLen + (2 ^ 31 + 4096) :=
  congrArg (hugeResponse.hdrLen + ·) (slice_hugeRequest 200 (2 ^ 31 + 4096)).2

/-- A read of the response fills its buffer. -/
theorem length_read_hugeResponse {abs want : ℕ} (h : abs + want ≤ hugeResponse.totalLen) :
    (hugeResponse.read abs want).length = want := by
  have htotal := totalLen_hugeResponse
  have hhdr := hugeResponse.hdrLen_eq
  have hbody : ∀ {off n}, off + n ≤ 2 ^ 31 + 4096 →
      (hugeResponse.source.readAt off n).length = n := by
    intro off n hle
    change (if 2 ^ 31 + 4096 ≤ off then [] else
      zeroReader.readAt off (min (2 ^ 31 + 4096 - off) n)).length = n
    split
    · rw [List.length_nil]
      omega
    · change (List.replicate _ _).length = n
      rw [List.length_replicate]
      omega
  rw [RespState.read, bodyBase_hugeResponse]
  by_cases hhead : abs < hugeResponse.hdrLen
  · rw [if_pos hhead]
    have htake : ((hugeResponse.headers.drop abs).take
        (min (hugeResponse.hdrLen - abs) want)).length = min (hugeResponse.hdrLen - abs) want := by
      rw [List.length_take, List.length_drop]
      omega
    rw [htake]
    split
    next hall => exact htake.trans hall.2
    next hsome =>
    have hlt : hugeResponse.hdrLen - abs < want := by
      by_contra hge
      exact hsome ⟨hhead, by omega⟩
    rw [if_pos ⟨by omega, by omega⟩, List.length_append, htake, hbody (by omega)]
    omega
  · rw [if_neg hhead, List.length_nil, if_neg fun h => hhead h.1]
    split
    · rw [List.nil_append, hbody (by omega)]
      omega
    · rw [List.length_nil]
      omega

/-! ### Any response of that length -/

/-- A response that is too long for its offsets, and can be read everywhere. -/
structure Http.RespState.IsHuge (r : RespState) : Prop where
  long : 2 ^ 31 + 4096 ≤ r.totalLen
  full : ∀ {abs want}, abs + want ≤ r.totalLen → (r.read abs want).length = want
  noFin : r.finSent = false

/-- The response is longer than the sequence numbers can tell apart. -/
theorem isHuge_hugeResponse : hugeResponse.IsHuge := by
  refine ⟨?_, length_read_hugeResponse, rfl⟩
  rw [totalLen_hugeResponse]
  exact Nat.le_add_left (2 ^ 31 + 4096) hugeResponse.hdrLen

/-! ### The stream in flight -/

namespace Conn

/-- The connection has so many bytes of the response acknowledged and so many sent. -/
structure Streams (r : RespState) (acked sent : ℕ) (c : Conn) : Prop where
  active : c.active = true
  ip : c.clientIp = ⟨10, 0, 0, 1⟩
  port : c.clientPort = 5000
  una : c.sndUna = c.iss + 1 + UInt32.ofNat acked
  nxt : c.sndNxt = c.iss + 1 + UInt32.ofNat sent
  win : c.peerWin = 8192
  resp : c.resp = some r

/-- After another piece. -/
def pieceSent (c : Conn) (now n : ℕ) : Conn :=
  { c with sndNxt := c.sndNxt + UInt32.ofNat n, lastSendMs := now }

namespace Streams

variable {c : Conn} {r : RespState} {acked sent : ℕ}

/-- Below half of the numbers, the position of a number is read back. -/
theorem rel_eq (c : Conn) {n : ℕ} (hn : n < 2 ^ 31) : c.rel (c.iss + 1 + UInt32.ofNat n) = n := by
  have hself := pos_self (c.iss + 1)
  rw [rel, pos_add (by omega), hself, zero_add]

/-- While the stream is short, the bytes before a number are counted rightly. -/
theorem bytesBefore (h : c.Streams r acked sent) (hr : r.IsHuge) {n : ℕ} (hn : n < 2 ^ 31) :
    c.bytesBefore (c.iss + 1 + UInt32.ofNat n) = n := by
  have hpos := bytesBefore_pos h.resp (c.iss + 1 + UInt32.ofNat n)
  have htotal := hr.long
  rw [rel_eq c hn] at hpos
  omega

/-- A piece takes the stream on by its length. -/
theorem pieceSent (h : c.Streams r acked sent) (now n : ℕ) :
    (c.pieceSent now n).Streams r acked (sent + n) := by
  have hnxt : c.sndNxt + UInt32.ofNat n = c.iss + 1 + UInt32.ofNat (sent + n) := by
    rw [UInt32.ofNat_add sent n, ← UInt32.add_assoc, ← h.nxt]
  exact ⟨h.active, h.ip, h.port, h.una, hnxt, h.win, h.resp⟩

/-! ### Turns of the pump -/

/-- One turn of the pump, in the window. -/
theorem turn (h : c.Streams r acked sent) (hr : r.IsHuge) (hacked : acked < 2 ^ 31)
    (hwin : sent + mss ≤ acked + cwnd) (hsent : sent < 2 ^ 31) (now fuel : ℕ) :
    ∃ y, c.pumpLoop now cwnd r.totalLen (fuel + 1) =
      (((c.pieceSent now mss).pumpLoop now cwnd r.totalLen fuel).1,
        y :: ((c.pieceSent now mss).pumpLoop now cwnd r.totalLen fuel).2) := by
  have htotal := hr.long
  have hmss : mss = 512 := rfl
  have hcwnd : cwnd = 2048 := rfl
  have hnext : c.sentBytes = sent := by
    rw [sentBytes, h.nxt, h.bytesBefore hr hsent]
  have hback : c.ackedBytes = acked := by
    rw [ackedBytes, h.una, h.bytesBefore hr hacked]
  rw [pumpLoop, hnext, hback]
  dsimp only
  have hwant : min (min (acked + cwnd) r.totalLen - sent) mss = mss := by omega
  have hread : (c.readResponse sent mss).length = mss := by
    rw [readResponse, h.resp, Option.elim_some]
    exact hr.full (by omega)
  rw [if_neg (by omega), hwant, hread, if_neg (by omega), if_neg (by omega)]
  exact ⟨_, rfl⟩

/-- So many turns. -/
theorem turns (hr : r.IsHuge) (hacked : acked < 2 ^ 31) (now fuel k : ℕ) :
    ∀ {c : Conn} {sent : ℕ}, c.Streams r acked sent → sent + k * mss ≤ acked + cwnd →
      sent + k * mss ≤ 2 ^ 31 →
      ∃ (c' : Conn) (ys : List Sent), c'.Streams r acked (sent + k * mss) ∧
        c.pumpLoop now cwnd r.totalLen (fuel + k) =
          ((c'.pumpLoop now cwnd r.totalLen fuel).1,
            ys ++ (c'.pumpLoop now cwnd r.totalLen fuel).2) := by
  induction k with
  | zero =>
    intro c sent h _ _
    exact ⟨c, [], by rwa [Nat.zero_mul, Nat.add_zero], rfl⟩
  | succ k ih =>
    intro c sent h hwin hend
    have hmss : mss = 512 := rfl
    rw [Nat.succ_mul] at hwin hend ⊢
    obtain ⟨y, hy⟩ := h.turn hr hacked (by omega) (by omega) now (fuel + k)
    obtain ⟨c', ys, hc', heq⟩ := ih (h.pieceSent now mss) (by omega) (by omega)
    have hsum : sent + mss + k * mss = sent + (k * mss + mss) := by omega
    rw [hsum] at hc'
    refine ⟨c', y :: ys, hc', ?_⟩
    rw [← Nat.add_assoc, hy, heq]
    rfl

/-- **The pump sends four pieces**, and stops in the window. -/
theorem pump (h : c.Streams r acked acked) (hr : r.IsHuge) (hsmall : acked + cwnd < 2 ^ 31)
    (now : ℕ) : (c.pump now cwnd).1.Streams r acked (acked + cwnd) := by
  have hfour : 4 * mss = cwnd := rfl
  obtain ⟨fuel, hfuel⟩ : ∃ fuel, pumpFuel = fuel + 1 + 4 := ⟨2 ^ 32 - 5, rfl⟩
  obtain ⟨c', ys, hc', heq⟩ := turns hr (by omega) now (fuel + 1) 4 h (by omega) (by omega)
  rw [hfour] at hc'
  have hpump : c.pump now cwnd = c.pumpLoop now cwnd r.totalLen pumpFuel := by
    rw [Conn.pump, h.resp]
  have hstop : c'.pumpLoop now cwnd r.totalLen (fuel + 1) = (c', []) := by
    have hnext : c'.sentBytes = acked + cwnd := by
      rw [sentBytes, hc'.nxt, hc'.bytesBefore hr hsmall]
    have hback : c'.ackedBytes = acked := by
      rw [ackedBytes, hc'.una, hc'.bytesBefore hr (by omega)]
    rw [pumpLoop, hnext, hback]
    dsimp only
    rw [if_pos (by omega)]
  rw [hpump, hfuel, heq, hstop]
  exact hc'

/-- **At the offset `2^31` the window does not hold.** -/
theorem pump_overruns (h : c.Streams r acked acked) (hr : r.IsHuge)
    (hend : acked + cwnd = 2 ^ 31) (now : ℕ) :
    ∃ y ∈ (c.pump now cwnd).2, payloadOf y.packet ≠ [] ∧ y.conn.sendWindow < y.outstanding := by
  have hfour : 4 * mss = cwnd := rfl
  have hmss : mss = 512 := rfl
  have hcwnd : cwnd = 2048 := rfl
  obtain ⟨fuel, hfuel⟩ : ∃ fuel, pumpFuel = fuel + 1 + 4 := ⟨2 ^ 32 - 5, rfl⟩
  obtain ⟨c', ys, hc', heq⟩ := turns hr (by omega) now (fuel + 1) 4 h (by omega) (by omega)
  rw [hfour, hend] at hc'
  have hpump : c.pump now cwnd = c.pumpLoop now cwnd r.totalLen pumpFuel := by
    rw [Conn.pump, h.resp]
  -- the server starts again from the first byte
  have hnext : c'.sentBytes = 0 := by
    have hpos := bytesBefore_pos hc'.resp c'.sndNxt
    have hrel : c'.rel c'.sndNxt = -2 ^ 31 := by
      rw [hc'.nxt, rel, pos, UInt32.add_comm, UInt32.add_sub_cancel]
      decide
    rw [hrel] at hpos
    rw [sentBytes]
    omega
  have hback : c'.ackedBytes = acked := by
    rw [ackedBytes, hc'.una, hc'.bytesBefore hr (by omega)]
  have htotal := hr.long
  have hread : (c'.readResponse 0 mss).length = mss := by
    rw [readResponse, hc'.resp, Option.elim_some]
    exact hr.full (by omega)
  have hsends : c'.send (PSH ||| ACK) (c'.readResponse 0 mss) ∈
      (c'.pumpLoop now cwnd r.totalLen (fuel + 1)).2 := by
    have hwant : min (min (acked + cwnd) r.totalLen - 0) mss = mss := by omega
    rw [pumpLoop, hnext, hback]
    dsimp only
    rw [if_neg (by omega), hwant, hread, if_neg (by omega), if_neg (by omega)]
    exact List.mem_cons_self
  rw [hpump, hfuel, heq]
  refine ⟨_, List.mem_append_right _ hsends, fun hnil => ?_, ?_⟩
  · rw [send, payloadOf_segment] at hnil
    rw [hnil, List.length_nil] at hread
    omega
  · have hwindow : c'.sendWindow = cwnd := by
      rw [sendWindow, hc'.win]
      rfl
    have hout : cwnd < (c'.sndNxt + UInt32.ofNat mss - c'.sndUna).toNat - 1 := by
      rw [hc'.nxt, hc'.una]
      generalize c'.iss + 1 = base
      have hbase := base.toNat_lt
      rw [UInt32.toNat_sub, UInt32.toNat_add, UInt32.toNat_add, UInt32.toNat_add base,
        UInt32.toNat_ofNat', UInt32.toNat_ofNat', UInt32.toNat_ofNat']
      omega
    have hend' : dataEnd (c'.send (PSH ||| ACK) (c'.readResponse 0 mss)).packet =
        c'.sndNxt + UInt32.ofNat mss := by
      rw [dataEnd, send, seqOf_segment, payloadOf_segment, hread]
    rw [Sent.outstanding, hend']
    change c'.sendWindow < max _ ((c'.sndNxt + UInt32.ofNat mss - c'.sndUna).toNat - _)
    rw [hwindow]
    split
    · omega
    · omega

end Streams

end Conn

namespace TcpServer

/-- Building a response stages it and changes nothing else of the connection. -/
theorem conn_buildResponse {s : TcpServer} {handler : RouteFn} {reply : HttpReply}
    (hhandler : s.handler = some handler) (hreply : ∀ m pa q b, handler m pa q b = some reply)
    (req : List UInt8) :
    (s.buildResponse req).conn = { s.conn with resp := some (stageResponse reply req) } := by
  unfold buildResponse routeRequest
  rw [hhandler]
  simp only [Option.bind_some, hreply]

end TcpServer

/-! ### The client's acknowledgements -/

/-- The client acknowledges everything. -/
def ackNext (c : Conn) : Packet := clientPacket 102 c.sndNxt ACK ""

/-- The client's acknowledgements of the stream are taken. -/
theorem takes_client {s : TcpServer} {r : RespState} {acked sent : ℕ}
    (h : s.conn.Streams r acked sent) : s.Takes (ackNext s.conn).bytes (ackNext s.conn) where
  parsed := parsePacket_bytes (show 40 + 0 < 65536 by decide) (show 5000 < 65536 by decide)
    (show httpPort < 65536 by decide) (show 8192 < 65536 by decide)
  port := rfl
  noSyn := show ACK &&& SYN = 0 by decide
  matched := ⟨h.active, h.ip.symm, h.port.symm⟩
  noRst := show ACK &&& RST = 0 by decide

/-- Everything that was sent is acknowledged. -/
theorem streams_afterAck {s : TcpServer} {r : RespState} {acked sent : ℕ}
    (h : s.conn.Streams r acked sent) (hr : r.IsHuge) (hlt : acked < sent)
    (hsent : sent < 2 ^ 31) : (s.afterAck (ackNext s.conn)).conn.Streams r sent sent := by
  have hrel : ∀ n < 2 ^ 31, s.conn.rel (s.conn.iss + 1 + UInt32.ofNat n) = n := fun n hn =>
    Conn.Streams.rel_eq s.conn hn
  have huna := hrel acked (by omega)
  have hnxt := hrel sent hsent
  rw [← h.una] at huna
  rw [← h.nxt] at hnxt
  have hnew : SeqNumber.lt s.conn.sndUna s.conn.sndNxt = true :=
    lt_eq_true_of_pos (b := s.conn.iss + 1) (by change s.conn.rel _ < s.conn.rel _; omega)
      (by change s.conn.rel _ - s.conn.rel _ ≤ _; omega)
  have hold : SeqNumber.lt s.conn.sndNxt s.conn.sndNxt = false :=
    lt_eq_false_of_pos (b := s.conn.iss + 1) le_rfl (by omega)
  have hack : (s.afterAck (ackNext s.conn)).conn = s.conn.onAck s.conn.sndNxt 8192 := by
    have hflag : (ackNext s.conn).flags &&& ACK ≠ 0 := (by decide : ACK &&& ACK ≠ 0)
    rw [afterAck, if_pos hflag]
    rfl
  rw [hack, Conn.onAck]
  dsimp only
  rw [hnew, hold, h.resp, Bool.not_false, Bool.and_true, if_pos rfl]
  dsimp only
  rw [hr.noFin, Bool.false_and, if_neg Bool.false_ne_true]
  exact ⟨h.active, h.ip, h.port, h.nxt, h.nxt, rfl, rfl⟩

/-- An acknowledgement in the stream makes the server pump within its own window. -/
theorem handleStream_ackNext {s : TcpServer} {r : RespState} {acked sent : ℕ}
    (h : s.conn.Streams r acked sent) (hr : r.IsHuge) (hlt : acked < sent)
    (hsent : sent < 2 ^ 31) : s.handleStream (ackNext s.conn).bytes 0 0 =
      (s.afterAck (ackNext s.conn)).pumped 0 cwnd := by
  have hwin : (s.afterAck (ackNext s.conn)).conn.sendWindow = cwnd := by
    rw [Conn.sendWindow, (streams_afterAck h hr hlt hsent).win]
    rfl
  rw [(takes_client h).handleStream_ack rfl (show ACK &&& FIN = 0 by decide), hwin]

/-- **One round**: the client acknowledges, and the server sends the next four pieces. -/
theorem streams_round {s : TcpServer} {r : RespState} {acked sent : ℕ}
    (h : s.conn.Streams r acked sent) (hr : r.IsHuge) (hlt : acked < sent)
    (hsent : sent + cwnd < 2 ^ 31) :
    (s.handleStream (ackNext s.conn).bytes 0 0).1.conn.Streams r sent (sent + cwnd) := by
  rw [handleStream_ackNext h hr hlt (by omega)]
  exact (streams_afterAck h hr hlt (by omega)).pump hr hsent 0

/-! ### Rounds -/

/-- One event more, at the end of a run. -/
theorem run_concat {s : Session} {es : List TcpEvent} {x : Session}
    (h : run Session.step s es = some x) (e : TcpEvent) :
    run Session.step s (es ++ [e]) = some (x.onEvent e) := by
  rw [run_append, h]
  rfl

/-- The first request of a connection. -/
theorem streams_first : ∃ es x, run Session.step (Session.start (some hugeHandler)) es = some x ∧
    x.server.conn.Streams hugeResponse 0 cwnd := by
  refine ⟨[synEvent, .packet hugeRequest.bytes 0 0], _, rfl, ?_⟩
  -- the SYN
  have hsyn : opening (clientPacket 100 0 SYN "").bytes = some (clientPacket 100 0 SYN "") :=
    opening_eq_some.mpr ⟨parsePacket_bytes (by decide) (by decide) (by decide) (by decide), rfl,
      by decide⟩
  generalize hx : (Session.start (some hugeHandler)).onEvent synEvent = x
  have hserver : x.server = { TcpServer.new (some hugeHandler) with
      conn := { Conn.opened (clientPacket 100 0 SYN "") 0 1000 with sndNxt := 1001 }
      requests := [] } := by
    rw [← hx]
    exact congrArg Prod.fst (handleStream_syn hsyn 0 1000)
  -- the request
  have ht : x.server.Takes hugeRequest.bytes hugeRequest := by
    rw [hserver]
    exact ⟨parsePacket_bytes (by decide) (by decide) (by decide) (by decide), rfl, by decide,
      ⟨rfl, rfl, rfl⟩, by decide⟩
  have hack : (x.server.afterAck hugeRequest).conn =
      { Conn.opened (clientPacket 100 0 SYN "") 0 1000 with
        sndNxt := 1001, sndUna := 1001, peerWin := 8192 } := by
    rw [hserver]
    rfl
  have hhandler : ((x.server.afterAck hugeRequest).afterData hugeRequest).handler =
      some hugeHandler := by
    rw [hserver]
    rfl
  generalize ht' : ((x.server.afterAck hugeRequest).afterData hugeRequest).buildResponse [255] = t
  have hconn := conn_buildResponse hhandler (fun _ _ _ _ => rfl) [255]
  rw [ht'] at hconn
  have hstreams : t.conn.Streams hugeResponse 0 0 := by
    rw [hconn]
    change Conn.Streams hugeResponse 0 0 { (x.server.afterAck hugeRequest).conn with
      rcvNxt := _, resp := some hugeResponse }
    rw [hack]
    exact ⟨rfl, rfl, rfl, rfl, rfl, rfl, rfl⟩
  have hwin : t.conn.sendWindow = cwnd := by
    rw [Conn.sendWindow, hstreams.win]
    rfl
  have hstream : x.server.handleStream hugeRequest.bytes 0 0 = t.pumped 0 cwnd := by
    rw [ht.handleStream_request (List.cons_ne_nil 255 []) (by rw [hack]; rfl), ← hwin, ← ht']
    rfl
  change (x.server.handleStream hugeRequest.bytes 0 0).1.conn.Streams hugeResponse 0 cwnd
  have hpump := hstreams.pump isHuge_hugeResponse (by decide) 0
  rw [zero_add] at hpump
  rw [hstream]
  exact hpump

/-- So many rounds. -/
theorem streams_rounds (k : ℕ) (hk : k * cwnd + cwnd < 2 ^ 31) : ∃ es x,
    run Session.step (Session.start (some hugeHandler)) es = some x ∧
      x.server.conn.Streams hugeResponse (k * cwnd) (k * cwnd + cwnd) := by
  induction k with
  | zero =>
    obtain ⟨es, x, hrun, h⟩ := streams_first
    rw [Nat.zero_mul, Nat.zero_add]
    exact ⟨es, x, hrun, h⟩
  | succ k ih =>
    rw [Nat.succ_mul] at hk ⊢
    have hcwnd : cwnd = 2048 := rfl
    obtain ⟨es, x, hrun, h⟩ := ih (by omega)
    exact ⟨_, _, run_concat hrun (.packet (ackNext x.server.conn).bytes 0 0),
      streams_round h isHuge_hugeResponse (by omega) hk⟩

/-- **A window is overrun** in the middle of a response of more than `2^31` bytes. -/
theorem window_overrun : ∃ handler es,
    ¬Along Session.step (fun x e => x.server.KeepsWindow e) (Session.start handler) es := by
  have hcwnd : cwnd = 2048 := rfl
  obtain ⟨es, x, hrun, h⟩ := streams_rounds (2 ^ 20 - 2) (by decide)
  refine ⟨some hugeHandler, es ++ [.packet (ackNext x.server.conn).bytes 0 0], fun hall => ?_⟩
  have hkeeps := along_concat hall hrun
  generalize hsent : (2 ^ 20 - 2) * cwnd + cwnd = sent at h
  have hacked := streams_afterAck h isHuge_hugeResponse (by omega) (by omega)
  obtain ⟨y, hy, hdata, hover⟩ := hacked.pump_overruns isHuge_hugeResponse (by omega) 0
  have hstream := handleStream_ackNext h isHuge_hugeResponse (by omega) (by omega)
  have hle := hkeeps y (by rw [hstream]; exact hy) hdata
  omega
