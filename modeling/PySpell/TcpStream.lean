/-
# The stream that the server sends

Every data segment should carry the bytes of the response at the offset that its
sequence number stands for.  `Faithful` says so of one packet, read from its bytes.

The invariant (`Conn.Ok`) is that the next number to send is at an offset from the
start of the data, at most `2^31`, and the oldest one that is not acknowledged is
before it: at such an offset too, or still at the SYN.  Two steps leave it.  A timeout
that fires while the SYN is not acknowledged rewinds to the SYN's own number, and the
response is sent one number too early; and the FIN of a response of `2^31 - 1` bytes
takes the next number to `2^31`, which the server reads as negative.  These are the
steps that `Slips` names; along the runs without them every segment is faithful
(`stream_integrity`).
-/
import PySpell.TcpSession

open Text Http Tcp TcpServer Runs

/-! ## Faithful packets -/

/-- A packet does what it should for the stream: data is the response at the offset
of the sequence number, in pieces of at most the segment size, and only the piece
that ends the response carries a FIN. -/
def Sent.Faithful (x : Sent) : Prop :=
  (payloadOf x.packet ≠ [] → ∃ r, x.conn.resp = some r ∧
    (payloadOf x.packet).length ≤ mss ∧
    BytesAt (payloadOf x.packet) r.byteAt
      (SeqNumber.offset (x.conn.iss + 1) (seqOf x.packet)) ∧
    SeqNumber.offset (x.conn.iss + 1) (seqOf x.packet) + (payloadOf x.packet).length ≤
      r.totalLen ∧
    (flagsOf x.packet &&& FIN ≠ 0 →
      SeqNumber.offset (x.conn.iss + 1) (seqOf x.packet) + (payloadOf x.packet).length =
        r.totalLen)) ∧
  (flagsOf x.packet &&& FIN ≠ 0 → payloadOf x.packet ≠ [])

/-- No packet is out of place when none is sent. -/
theorem faithful_nil : ∀ x ∈ ([] : List Sent), x.Faithful := by simp

/-- A packet without data and without FIN. -/
theorem faithful_send_nil (c : Conn) {flags : UInt8} (h : flags &&& FIN = 0) :
    (c.send flags []).Faithful := by
  refine ⟨fun hne => absurd (payloadOf_segment c flags []) hne, fun hfin => ?_⟩
  rw [Conn.send, flagsOf_segment] at hfin
  exact absurd h hfin

namespace Conn

/-! ## One segment -/

/-- The offset of a number in the data of the connection. -/
abbrev off (c : Conn) (x : UInt32) : ℕ := SeqNumber.offset (c.iss + 1) x

/-- Below `2^31` the server reads an offset as it is. -/
theorem bytesBefore_eq {c : Conn} {r : RespState} (hr : c.resp = some r) {x : UInt32}
    (hx : c.off x < 2 ^ 31) : c.bytesBefore x = min (c.off x) r.totalLen := by
  have hsub : x - c.iss - 1 = x - (c.iss + 1) := by
    apply UInt32.toNat_inj.mp
    have h1 := x.toNat_lt
    have h2 := c.iss.toNat_lt
    rw [UInt32.toNat_sub, UInt32.toNat_sub, UInt32.toNat_sub, UInt32.toNat_add]
    have hone : (1 : UInt32).toNat = 1 := rfl
    rw [hone]
    omega
  rw [bytesBefore, hr, hsub, SeqNumber.asI32_of_offset_lt hx]
  rw [Option.elim_some]
  rcases Nat.le_total (c.off x) r.totalLen with h | h
  · rw [min_eq_left (Int.ofNat_le.mpr h), min_eq_left h, max_eq_right (Int.natCast_nonneg _),
      Int.toNat_natCast]
  · rw [min_eq_right (Int.ofNat_le.mpr h), min_eq_right h, max_eq_right (Int.natCast_nonneg _),
      Int.toNat_natCast]

/-- A piece of the response that starts at the next number makes a faithful segment. -/
theorem faithful_send {c : Conn} {r : RespState} (hr : c.resp = some r) {bytes : List UInt8}
    {flags : UInt8} (hne : bytes ≠ []) (hlen : bytes.length ≤ mss)
    (hbytes : BytesAt bytes r.byteAt (c.off c.sndNxt))
    (htotal : c.off c.sndNxt + bytes.length ≤ r.totalLen)
    (hfin : flags &&& FIN ≠ 0 → c.off c.sndNxt + bytes.length = r.totalLen) :
    (c.send flags bytes).Faithful := by
  unfold Sent.Faithful
  simp only [send, payloadOf_segment, flagsOf_segment, seqOf_segment]
  exact ⟨fun _ => ⟨r, hr, hlen, hbytes, htotal, hfin⟩, fun _ => hne⟩

/-! ## The pump -/

/-- What the pump leaves as it was. -/
structure SameConn (c c' : Conn) : Prop where
  active : c'.active = c.active
  iss : c'.iss = c.iss
  sndUna : c'.sndUna = c.sndUna
  resp : ∃ sent, c'.resp = c.resp.map (·.withFin sent) ∨ c'.resp = c.resp

/-- **One turn of the pump**: it stops, or sends a faithful piece from the next
number on. -/
theorem pumpLoop_succ {c : Conn} {r : RespState} (hr : c.resp = some r)
    (hsmall : r.totalLen < 2 ^ 31) (hnxt : c.off c.sndNxt < 2 ^ 31) (now window fuel : ℕ) :
    c.pumpLoop now window r.totalLen (fuel + 1) = (c, []) ∨
    ∃ bytes flags c', (c.send flags bytes).Faithful ∧ SameConn c c' ∧
      0 < bytes.length ∧ c.off c.sndNxt + bytes.length ≤ r.totalLen ∧
      ((c'.off c'.sndNxt = r.totalLen + 1 ∧
        c.pumpLoop now window r.totalLen (fuel + 1) = (c', [c.send flags bytes])) ∨
      (c'.resp = some r ∧ c'.off c'.sndNxt = c.off c.sndNxt + bytes.length ∧
        c.off c.sndNxt + bytes.length < r.totalLen ∧
        c.pumpLoop now window r.totalLen (fuel + 1) =
          ((c'.pumpLoop now window r.totalLen fuel).1,
            c.send flags bytes :: (c'.pumpLoop now window r.totalLen fuel).2))) := by
  have hsent : c.sentBytes = min (c.off c.sndNxt) r.totalLen := bytesBefore_eq hr hnxt
  rw [pumpLoop]
  dsimp only
  by_cases hedge : min (c.ackedBytes + window) r.totalLen ≤ c.sentBytes
  · left
    rw [if_pos hedge]
  rw [if_neg hedge]
  -- what is next is the next number itself
  have hnext : c.sentBytes = c.off c.sndNxt := by omega
  rw [hnext] at hedge ⊢
  generalize hw : min (min (c.ackedBytes + window) r.totalLen - c.off c.sndNxt) mss = want
  obtain ⟨hlen, hbytes⟩ := r.read_spec (c.off c.sndNxt) want
  have hread : c.readResponse (c.off c.sndNxt) want = r.read (c.off c.sndNxt) want := by
    rw [readResponse, hr, Option.elim_some]
  rw [hread]
  generalize r.read (c.off c.sndNxt) want = bytes at hlen hbytes ⊢
  by_cases hn : bytes.length = 0
  · left
    rw [if_pos hn]
  rw [if_neg hn]
  have hmss : bytes.length ≤ mss := by omega
  have htotal : c.off c.sndNxt + bytes.length ≤ r.totalLen := by omega
  have hne : bytes ≠ [] := List.ne_nil_of_length_pos (by omega)
  have hadd : c.off (c.sndNxt + UInt32.ofNat bytes.length) = c.off c.sndNxt + bytes.length :=
    SeqNumber.offset_add (by change c.off c.sndNxt + bytes.length < 2 ^ 32; omega)
  right
  by_cases hlast : r.totalLen ≤ c.off c.sndNxt + bytes.length
  · rw [if_pos hlast]
    have hfin : c.off (c.sndNxt + UInt32.ofNat bytes.length + 1) = r.totalLen + 1 := by
      have hone := SeqNumber.offset_add (b := c.iss + 1)
        (x := c.sndNxt + UInt32.ofNat bytes.length) (n := 1)
        (by change c.off _ + 1 < 2 ^ 32; omega)
      change c.off (c.sndNxt + UInt32.ofNat bytes.length + 1) =
        c.off (c.sndNxt + UInt32.ofNat bytes.length) + 1 at hone
      omega
    exact ⟨bytes, PSH ||| ACK ||| FIN, { c with
        sndNxt := c.sndNxt + UInt32.ofNat bytes.length + 1
        lastSendMs := now
        resp := c.resp.map (·.withFin true) },
      faithful_send hr hne hmss hbytes htotal (fun _ => by omega), ⟨rfl, rfl, rfl, true, .inl rfl⟩,
      by omega, htotal, Or.inl ⟨hfin, rfl⟩⟩
  · rw [if_neg hlast]
    refine ⟨bytes, PSH ||| ACK, { c with
        sndNxt := c.sndNxt + UInt32.ofNat bytes.length, lastSendMs := now },
      faithful_send hr hne hmss hbytes htotal (fun hf => absurd hf (by decide)),
      ⟨rfl, rfl, rfl, false, .inr rfl⟩, by omega, htotal, Or.inr ⟨hr, hadd, by omega, rfl⟩⟩

/-- **The whole pump**, from an offset below `2^31`: faithful pieces, and the next
number moves on, to `2^31` at most. -/
theorem pumpLoop_spec {r : RespState} (hsmall : r.totalLen < 2 ^ 31) (now window fuel : ℕ) :
    ∀ {c : Conn}, c.resp = some r → c.off c.sndNxt < 2 ^ 31 →
      (∀ x ∈ (c.pumpLoop now window r.totalLen fuel).2, x.Faithful) ∧
      SameConn c (c.pumpLoop now window r.totalLen fuel).1 ∧
      c.off c.sndNxt ≤ c.off (c.pumpLoop now window r.totalLen fuel).1.sndNxt ∧
      c.off (c.pumpLoop now window r.totalLen fuel).1.sndNxt ≤ 2 ^ 31 := by
  induction fuel with
  | zero =>
    intro c _ hnxt
    exact ⟨faithful_nil, ⟨rfl, rfl, rfl, true, .inr rfl⟩, le_rfl, hnxt.le⟩
  | succ fuel ih =>
    intro c hr hnxt
    rcases pumpLoop_succ hr hsmall hnxt now window fuel with hstop |
      ⟨bytes, flags, c', hfaith, hsame, hpos, htotal, ⟨hoff, heq⟩ | ⟨hr', hoff, hlt, heq⟩⟩
    · rw [hstop]
      exact ⟨faithful_nil, ⟨rfl, rfl, rfl, true, .inr rfl⟩, le_rfl, hnxt.le⟩
    · rw [heq]
      dsimp only
      have hoff' : c.off c'.sndNxt = r.totalLen + 1 := by rw [← hoff, off, off, hsame.iss]
      refine ⟨fun x hx => ?_, hsame, by omega, by omega⟩
      rw [List.mem_singleton.mp hx]
      exact hfaith
    · rw [heq]
      dsimp only
      have hoff' : c.off c'.sndNxt = c.off c.sndNxt + bytes.length := by
        rw [← hoff, off, off, hsame.iss]
      obtain ⟨hall, hsame', hle, hlimit⟩ := ih hr' (by omega)
      have hbase : ∀ x, c'.off x = c.off x := fun x => by rw [off, off, hsame.iss]
      rw [hbase, hbase] at hle
      rw [hbase] at hlimit
      refine ⟨fun x hx => ?_, ⟨?_, ?_, ?_, ?_⟩, by omega, hlimit⟩
      · rcases List.mem_cons.mp hx with rfl | hx
        · exact hfaith
        · exact hall x hx
      · rw [hsame'.active, hsame.active]
      · rw [hsame'.iss, hsame.iss]
      · rw [hsame'.sndUna, hsame.sndUna]
      · obtain ⟨sent, hresp⟩ := hsame'.resp
        exact ⟨sent, by rwa [hr', ← hr] at hresp⟩

/-- The bound on the number of turns is not reached: with more turns than there are
bytes left, the pump stops by itself. -/
theorem pumpLoop_fuel {r : RespState} (hsmall : r.totalLen < 2 ^ 31) (now window : ℕ)
    (fuel : ℕ) : ∀ {c : Conn} {m : ℕ}, c.resp = some r → c.off c.sndNxt < 2 ^ 31 →
      r.totalLen - c.off c.sndNxt < fuel → r.totalLen - c.off c.sndNxt < m →
      c.pumpLoop now window r.totalLen fuel = c.pumpLoop now window r.totalLen m := by
  induction fuel with
  | zero => intro c fuel' _ _ hlt _; omega
  | succ fuel ih =>
    intro c fuel' hr hnxt hlt hlt'
    cases fuel' with
    | zero => omega
    | succ fuel' =>
      rw [pumpLoop, pumpLoop]
      dsimp only
      split
      · rfl
      split
      · rfl
      split
      · rfl
      next hedge hn hlast =>
        -- a piece was sent, and fewer bytes are left
        have hsent : c.sentBytes = min (c.off c.sndNxt) r.totalLen := bytesBefore_eq hr hnxt
        have hnext : c.sentBytes = c.off c.sndNxt := by omega
        rw [hnext] at hlast hn ⊢
        generalize c.readResponse (c.off c.sndNxt) _ = bytes at hlast hn ⊢
        have hadd : c.off (c.sndNxt + UInt32.ofNat bytes.length) =
            c.off c.sndNxt + bytes.length :=
          SeqNumber.offset_add (by change c.off c.sndNxt + bytes.length < 2 ^ 32; omega)
        have hrest := ih (c := { c with
            sndNxt := c.sndNxt + UInt32.ofNat bytes.length, lastSendMs := now })
          (m := fuel') hr
          (by change c.off (c.sndNxt + UInt32.ofNat bytes.length) < 2 ^ 31; omega)
          (by change r.totalLen - c.off (c.sndNxt + UInt32.ofNat bytes.length) < fuel; omega)
          (by change r.totalLen - c.off (c.sndNxt + UInt32.ofNat bytes.length) < fuel'; omega)
        rw [hrest]

/-! ## The invariant -/

/-- The next number to send is in the data, and the oldest that is not acknowledged is
before it, or the SYN. -/
structure Ok (c : Conn) : Prop where
  nxt : c.off c.sndNxt ≤ 2 ^ 31
  una : c.sndUna = c.iss ∨ c.off c.sndUna ≤ c.off c.sndNxt
  small : ∀ r, c.resp = some r → r.totalLen < 2 ^ 31

/-- A new connection has no response, so its numbers are in range. -/
theorem ok_opened (p : Packet) (now : ℕ) (iss : UInt32) :
    Ok { opened p now iss with sndNxt := (opened p now iss).sndNxt + 1 } where
  nxt := by
    change ((iss + 1) - (iss + 1)).toNat ≤ 2 ^ 31
    rw [UInt32.sub_self]
    decide
  una := Or.inl rfl
  small := fun r hr => by cases hr

/-- An acknowledgement only takes numbers that were sent. -/
theorem ok_onAck {c : Conn} (h : c.Ok) (ack : UInt32) (win : ℕ) : (c.onAck ack win).Ok := by
  unfold onAck
  dsimp only
  split
  · next hack =>
    rw [Bool.and_eq_true, Bool.not_eq_true'] at hack
    refine ⟨h.nxt, Or.inr ?_, fun r hr => ?_⟩
    · refine SeqNumber.offset_le_of_ack h.nxt ?_ hack.1 hack.2
      rcases h.una with heq | hle
      · exact Or.inl (by rw [heq])
      · exact Or.inr hle
    · dsimp only at hr
      split at hr
      · next r' hr' =>
        split at hr
        · cases hr
        · rw [Option.some_inj] at hr
          exact hr ▸ h.small r' hr'
      · cases hr
  · exact ⟨h.nxt, h.una, h.small⟩

/-- The pump keeps the invariant. -/
theorem ok_pump {c : Conn} (h : c.Ok) (hnxt : c.resp.isSome → c.off c.sndNxt < 2 ^ 31)
    (now window : ℕ) :
    (c.pump now window).1.Ok ∧ (c.pump now window).1.active = c.active ∧
      ∀ x ∈ (c.pump now window).2, x.Faithful := by
  unfold pump
  cases hr : c.resp with
  | none => exact ⟨h, rfl, faithful_nil⟩
  | some r =>
    obtain ⟨hall, hsame, hle, hlimit⟩ :=
      pumpLoop_spec (h.small r hr) now window pumpFuel hr (hnxt (by rw [hr]; rfl))
    refine ⟨⟨?_, ?_, ?_⟩, hsame.active, hall⟩
    · rw [off, hsame.iss]
      exact hlimit
    · rw [off, off, hsame.iss, hsame.sndUna]
      rcases h.una with heq | hle'
      · exact Or.inl heq
      · exact Or.inr (hle'.trans hle)
    · intro r' hr'
      obtain ⟨sent, hresp | hresp⟩ := hsame.resp
      · dsimp only at hr'
        rw [hresp, hr, Option.map_some, Option.some_inj] at hr'
        rw [← hr']
        exact h.small r hr
      · dsimp only at hr'
        rw [hresp] at hr'
        exact h.small r' hr'

end Conn

/-! ## Events -/

namespace TcpServer

/-- The steps that leave the stream: the pump runs on while the FIN of a response of
`2^31 - 1` bytes is outstanding, or a timeout fires while the SYN is. -/
def Slips (s : TcpServer) : TcpEvent → Prop
  | .packet inner _ _ => s.conn.sndNxt = s.conn.iss + 1 + 0x80000000 ∧
    ∃ p, s.taking inner = some p ∧
      (p.payload ≠ [] ∨ (p.flags &&& FIN = 0 ∧ (s.afterAck p).conn.resp.isSome = true))
  | .tick now => s.rtoFires now = true ∧ s.rtoExhausted = false ∧ s.conn.sndUna = s.conn.iss

/-- The events that stay in the stream of responses shorter than `2^31` bytes. -/
structure StaysInStream (s : TcpServer) (e : TcpEvent) : Prop where
  small : ∀ r, s.staged e = some r → r.totalLen < 2 ^ 31
  noSlip : ¬ s.Slips e

/-- The ACK field moves neither the start of the connection nor its next number. -/
theorem afterAck_conn (s : TcpServer) (p : Packet) :
    (s.afterAck p).conn.active = s.conn.active ∧ (s.afterAck p).conn.iss = s.conn.iss ∧
      (s.afterAck p).conn.sndNxt = s.conn.sndNxt := by
  unfold afterAck Conn.onAck
  dsimp only
  split
  · split
    · exact ⟨rfl, rfl, rfl⟩
    · exact ⟨rfl, rfl, rfl⟩
  · exact ⟨rfl, rfl, rfl⟩

/-- So does the server's handling of one. -/
theorem ok_afterAck {s : TcpServer} (h : s.conn.Ok) (p : Packet) : (s.afterAck p).conn.Ok := by
  unfold afterAck
  split
  · exact Conn.ok_onAck h _ _
  · exact h

/-- Data that arrives moves what is expected, not what is sent. -/
theorem ok_afterData {s : TcpServer} (h : s.conn.Ok) (p : Packet) : (s.afterData p).conn.Ok :=
  ⟨h.nxt, h.una, h.small⟩

/-- What the timeout goes back to is in the stream, when the SYN is acknowledged. -/
theorem ok_rewound {s : TcpServer} (h : s.conn.Ok) {now : ℕ} (hfires : s.rtoFires now = true)
    (hsyn : s.conn.sndUna ≠ s.conn.iss) :
    s.rewound.conn.Ok ∧ s.rewound.conn.off s.rewound.conn.sndNxt < 2 ^ 31 := by
  have hle : s.conn.off s.conn.sndUna ≤ s.conn.off s.conn.sndNxt := h.una.resolve_left hsyn
  have hne : s.conn.sndUna ≠ s.conn.sndNxt := by
    simp only [rtoFires, Bool.and_eq_true, bne_iff_ne] at hfires
    exact hfires.1.2
  have hinj : s.conn.off s.conn.sndUna ≠ s.conn.off s.conn.sndNxt := fun heq =>
    hne ((UInt32.sub_left_inj _).mp (UInt32.toNat_inj.mp heq))
  have hlt : s.conn.off s.conn.sndUna < 2 ^ 31 := by
    have := h.nxt
    omega
  refine ⟨⟨hlt.le, Or.inr le_rfl, fun r hr => ?_⟩, hlt⟩
  obtain ⟨r', hr', rfl⟩ := Option.map_eq_some_iff.mp hr
  exact h.small r' hr'

end TcpServer

/-! ## Runs -/

namespace Session

/-- What holds of a session whose events stay in the stream. -/
structure InStream (x : Session) : Prop where
  conn : x.server.conn.active = true → x.server.conn.Ok
  faithful : ∀ y ∈ x.sent, y.Faithful

/-- Nothing was sent yet. -/
theorem inStream_start (handler : Option RouteFn) : (start handler).InStream where
  conn := fun hactive => by cases hactive
  faithful := faithful_nil

/-- The packets of the end of a connection have no bytes of a response. -/
theorem inStream_closed {x : Session} (h : x.InStream) (s : TcpServer) {sent : List Sent}
    (hsent : ∀ y ∈ sent, y.Faithful) : (x.emit (s.closed, sent)).InStream where
  conn := fun hactive => by cases hactive
  faithful := fun y hy => (List.mem_append.mp hy).elim (h.faithful y) (hsent y)

/-- For an event that sends one packet. -/
theorem faithful_singleton {y : Sent} (h : y.Faithful) : ∀ z ∈ [y], z.Faithful := by
  intro z hz
  rw [List.mem_singleton.mp hz]
  exact h

/-- The pump keeps a session in the stream, when its next number reads as it is. -/
theorem inStream_pumped {x : Session} (h : x.InStream) {s : TcpServer} (hs : s.conn.Ok)
    (hnxt : s.conn.resp.isSome → s.conn.off s.conn.sndNxt < 2 ^ 31) (now window : ℕ) :
    (x.emit (s.pumped now window)).InStream := by
  obtain ⟨hok, -, hall⟩ := Conn.ok_pump hs hnxt now window
  exact ⟨fun _ => hok, fun y hy => (List.mem_append.mp hy).elim (h.faithful y) (hall y)⟩

/-- A number that is at most `2^31` from the start, and is not `2^31` from it. -/
theorem off_lt_of_ne {c : Conn} (h : c.Ok) (hne : c.sndNxt ≠ c.iss + 1 + 0x80000000) :
    c.off c.sndNxt < 2 ^ 31 := by
  refine lt_of_le_of_ne h.nxt fun heq => hne ?_
  have hoff : c.sndNxt - (c.iss + 1) = 0x80000000 := UInt32.toNat_inj.mp heq
  rw [← hoff, UInt32.add_comm, UInt32.sub_add_cancel]

/-- **An event that stays in the stream keeps the session in it.** -/
theorem inStream_step {x : Session} (h : x.InStream) {e : TcpEvent}
    (hstay : x.server.StaysInStream e) : (x.onEvent e).InStream := by
  have hstep := x.steps e
  generalize x.onEvent e = x' at hstep ⊢
  cases hstep with
  | ignored => exact h
  -- the SYN carries nothing, so nothing of a response can be wrong in it
  | opened inner now iss p =>
    refine ⟨fun _ => Conn.ok_opened p now iss, fun y hy => ?_⟩
    exact (List.mem_append.mp hy).elim (h.faithful y)
      (faithful_singleton (faithful_send_nil _ (by decide)) y)
  | reset => exact inStream_closed h _ faithful_nil
  | routed inner now iss p ht hroutes s hs =>
    have hok := ok_afterData (ok_afterAck (h.conn ht.matched.1) p) p
    obtain ⟨-, hiss, hnxt⟩ := x.server.afterAck_conn p
    have hsmall := hstay.small
    rw [staged_of_routes ht hroutes] at hsmall
    rw [← hs] at hsmall
    have hdata : p.payload ≠ [] := by
      intro hnil
      rw [routes_of_nil hnil] at hroutes
      cases hroutes
    -- the condition keeps the new response from starting at the slip of the offsets
    have hne : x.server.conn.sndNxt ≠ x.server.conn.iss + 1 + 0x80000000 := fun heq =>
      hstay.noSlip ⟨heq, p, taking_eq_some.mpr ht, Or.inl hdata⟩
    obtain ⟨r, action, heq⟩ := ((x.server.afterAck p).afterData p).buildResponse_eq p.payload
    rw [← hs] at heq
    have hsok : s.conn.Ok := by
      rw [heq] at hsmall ⊢
      exact ⟨hok.nxt, hok.una, hsmall⟩
    refine inStream_pumped (x := x.take p) ⟨h.conn, h.faithful⟩ hsok
      (fun _ => off_lt_of_ne hsok ?_) now _
    rw [heq]
    dsimp only [afterData]
    rw [hiss, hnxt]
    exact hne
  | data inner now iss p ht hroutes hdata s hs =>
    have hok := ok_afterData (ok_afterAck (h.conn ht.matched.1) p) p
    obtain ⟨-, hiss, hnxt⟩ := x.server.afterAck_conn p
    rw [← hs] at hok
    refine inStream_pumped (x := x.take p) ⟨h.conn, h.faithful⟩ hok
      (fun _ => off_lt_of_ne hok ?_) now _
    rw [hs]
    dsimp only [afterData]
    rw [hiss, hnxt]
    exact fun heq => hstay.noSlip ⟨heq, p, taking_eq_some.mpr ht, Or.inl hdata⟩
  | closed inner now iss p =>
    exact inStream_closed (x := x.take p) ⟨h.conn, h.faithful⟩ _
      (faithful_singleton (faithful_send_nil _ (by decide)))
  | ack inner now iss p ht hroutes hdata hfin s hs =>
    have hok := ok_afterAck (h.conn ht.matched.1) p
    obtain ⟨-, hiss, hnxt⟩ := x.server.afterAck_conn p
    rw [← hs] at hok
    refine inStream_pumped (x := x.take p) ⟨h.conn, h.faithful⟩ hok
      (fun hresp => off_lt_of_ne hok ?_) now _
    rw [hs] at hresp ⊢
    rw [hiss, hnxt]
    exact fun heq => hstay.noSlip ⟨heq, p, taking_eq_some.mpr ht, Or.inr ⟨hfin, hresp⟩⟩
  | rst now => exact inStream_closed h _ (faithful_singleton (faithful_send_nil _ (by decide)))
  -- a timer goes back to the first byte
  | resent now hfires hexh s hs =>
    have hactive : x.server.conn.active = true := by
      simp only [rtoFires, Bool.and_eq_true] at hfires
      exact hfires.1.1.1.1
    obtain ⟨hok, hlt⟩ := ok_rewound (h.conn hactive) hfires
      (fun heq => hstay.noSlip ⟨hfires, hexh, heq⟩)
    rw [← hs] at hok hlt
    exact inStream_pumped h hok (fun _ => hlt) now _

end Session

/-- Everything that was sent is faithful. -/
def Session.Faithful (x : Session) : Prop := ∀ y ∈ x.sent, y.Faithful

/-- **Stream integrity**: along every run without the steps that slip, what is sent
carries the bytes of the response at the offset that its sequence number stands for. -/
theorem stream_integrity {handler : Option RouteFn} {es : List TcpEvent} {x : Session}
    (hstay : Along Session.step (fun x e => x.server.StaysInStream e) (Session.start handler) es)
    (hrun : run Session.step (Session.start handler) es = some x) : x.Faithful := by
  have hinv : x.InStream := by
    refine run_inv_along (fun x e x' h hok hstep => ?_) (Session.inStream_start handler) hstay hrun
    rw [← Option.some_inj.mp hstep]
    exact Session.inStream_step h hok
  exact hinv.faithful

/-! ## A run in the stream, and one that slips -/

/-- A request that acknowledges the SYN stays in the stream, also when its response is
sent again. -/
theorem stream_integrity_hi :
    ((((Session.start hiHandler).onEvent synEvent).onEvent
      (requestEvent 1001 (PSH ||| ACK))).onEvent (.tick 2000)).Faithful := by
  refine @stream_integrity hiHandler
    [synEvent, requestEvent 1001 (PSH ||| ACK), .tick 2000] _ ?_ rfl
  refine along_cons_of_step ⟨of_all (by decide +kernel), ?_⟩ rfl
    (along_cons_of_step ⟨of_all (by decide +kernel), ?_⟩ rfl
      (along_cons_of_step ⟨of_all (by decide +kernel), ?_⟩ rfl trivial))
  · exact fun h => absurd h.1 (by decide +kernel)
  · exact fun h => absurd h.1 (by decide +kernel)
  · exact fun h => absurd h.2.2 (by decide +kernel)

/-- A segment that starts behind the end of the response is not faithful. -/
theorem not_faithful {y : Sent} (len total : ℕ)
    (h : ((payloadOf y.packet).length, seqOf y.packet, y.conn.iss,
      y.conn.resp.map RespState.totalLen) = (len + 1, y.conn.iss, y.conn.iss, some total))
    (htotal : total < 2 ^ 31) : ¬ y.Faithful := by
  intro hfaith
  rw [Prod.mk.injEq, Prod.mk.injEq, Prod.mk.injEq] at h
  obtain ⟨hlen, hseq, -, hresp⟩ := h
  have hne : payloadOf y.packet ≠ [] := List.ne_nil_of_length_pos (by omega)
  obtain ⟨r, hr, -, -, hle, -⟩ := hfaith.1 hne
  rw [hr, Option.map_some, Option.some_inj] at hresp
  have hoff : SeqNumber.offset (y.conn.iss + 1) (seqOf y.packet) = 2 ^ 32 - 1 := by
    have hiss := y.conn.iss.toNat_lt
    have hone : (1 : UInt32).toNat = 1 := rfl
    rw [hseq, SeqNumber.offset, UInt32.toNat_sub, UInt32.toNat_add, hone]
    omega
  omega

/-- **A segment with bytes that are not those of its sequence number**: the request
does not acknowledge the SYN, so the timeout goes back to the SYN's number, and the
response is sent from there. -/
theorem stream_slips : ∃ (handler : Option RouteFn) (es : List TcpEvent) (x : Session),
    Along Session.step (fun x e => ∀ r, x.server.staged e = some r → r.totalLen < 2 ^ 31)
      (Session.start handler) es ∧
    run Session.step (Session.start handler) es = some x ∧ ¬ x.Faithful := by
  refine ⟨hiHandler, [synEvent, requestEvent 0 PSH, .tick 2000], _, ?_, rfl, fun hall => ?_⟩
  · exact along_cons_of_step (of_all (by decide +kernel)) rfl
      (along_cons_of_step (of_all (by decide +kernel)) rfl
        (along_cons_of_step (of_all (by decide +kernel)) rfl trivial))
  · have hthird : (((((Session.start hiHandler).onEvent synEvent).onEvent
        (requestEvent 0 PSH)).onEvent (.tick 2000)).sent[2]?.map fun y =>
        ((payloadOf y.packet).length, seqOf y.packet, y.conn.iss,
          y.conn.resp.map RespState.totalLen)) = some (139, 1000, 1000, some 139) := by
      decide +kernel
    obtain ⟨y, hy, heq⟩ := Option.map_eq_some_iff.mp hthird
    have hiss : y.conn.iss = 1000 := congrArg (·.2.2.1) heq
    refine not_faithful (y := y) 138 139 ?_ (by decide)
      (hall y (List.mem_of_getElem? hy))
    rw [hiss] at heq ⊢
    exact heq
