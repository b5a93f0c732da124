/-
# One request per connection

The server routes a request when no response is staged, and a response that is
acknowledged to its end is freed.  So data that arrives after that is routed again
(`request_routed_twice`).  Along the runs where this does not happen the handler is
called once, and no byte follows a FIN that was sent (`one_request`).

The second part rests on where the FIN is.  Positions are relative to the number after
the SYN.  The pieces of a response of `total` bytes lie in `[-1, total]`: a timeout that
fires while the SYN is not acknowledged sends the first piece again from `-1`.  The FIN
is at `total`, or at `total - 1` when that piece is also the last (`Sent.Within`).
Responses of `2^31 - 1` to `2^31 + 511` bytes are the exception, because the number
after their FIN reads as negative and the pump starts over; longer ones get no FIN.
-/
import PySpell.TcpSession

open Text Http Tcp TcpServer Runs SeqNumber

/-- No byte is sent at a number after a FIN that was sent before. -/
def NothingAfterFin (flow : List Sent) : Prop :=
  flow.Pairwise fun y z => flagsOf y.packet &&& FIN ≠ 0 →
    ∀ i < (payloadOf z.packet).length,
      SeqNumber.lt (dataEnd y.packet) (seqOf z.packet + UInt32.ofNat i) = false

/-- Without a FIN there is nothing to be behind it. -/
theorem nothingAfterFin_of_noFin {flow : List Sent}
    (h : ∀ y ∈ flow, flagsOf y.packet &&& FIN = 0) : NothingAfterFin flow :=
  List.pairwise_of_forall_mem_list fun y hy _ _ hfin => absurd (h y hy) hfin

/-- A packet without data follows no FIN. -/
theorem NothingAfterFin.concat {flow : List Sent} (h : NothingAfterFin flow) {z : Sent}
    (hz : payloadOf z.packet = []) : NothingAfterFin (flow ++ [z]) := by
  refine List.pairwise_append.mpr ⟨h, List.pairwise_singleton _ _, fun y _ z' hz' _ i hi => ?_⟩
  rw [List.mem_singleton.mp hz', hz] at hi
  exact absurd hi (Nat.not_lt_zero i)

/-! ## Where the pieces are -/

/-- The data and the FIN of a packet lie in a response of so many bytes. -/
structure Sent.Within (base : UInt32) (total : ℕ) (y : Sent) : Prop where
  start : payloadOf y.packet ≠ [] → -1 ≤ pos base (seqOf y.packet)
  stop : payloadOf y.packet ≠ [] →
    pos base (seqOf y.packet) + (payloadOf y.packet).length ≤ total
  fin : flagsOf y.packet &&& FIN ≠ 0 → (total : ℤ) - 1 ≤ pos base (dataEnd y.packet)
  finStop : flagsOf y.packet &&& FIN ≠ 0 → pos base (dataEnd y.packet) ≤ total

/-- **Nothing follows the FIN of packets that lie in a response.** -/
theorem nothingAfterFin_of_within {base : UInt32} {total : ℕ} (htotal : total + 1 < 2 ^ 31)
    {flow : List Sent} (h : ∀ y ∈ flow, y.Within base total) : NothingAfterFin flow := by
  refine List.pairwise_of_forall_mem_list fun y hy z hz hfin i hi => ?_
  have hne : payloadOf z.packet ≠ [] := List.ne_nil_of_length_pos (by omega)
  have hstart := (h z hz).start hne
  have hstop := (h z hz).stop hne
  have hf := (h y hy).fin hfin
  have hf' := (h y hy).finStop hfin
  have hbyte : pos base (seqOf z.packet + UInt32.ofNat i) = pos base (seqOf z.packet) + i :=
    pos_add (by omega)
  exact lt_eq_false_of_pos (b := base) (by omega) (by omega)

/-- A packet without bytes and without a FIN lies within any response. -/
theorem within_of_quiet {base : UInt32} {total : ℕ} {y : Sent}
    (hpayload : payloadOf y.packet = []) (hfin : flagsOf y.packet &&& FIN = 0) :
    y.Within base total :=
  ⟨fun h => absurd hpayload h, fun h => absurd hpayload h, fun h => absurd hfin h,
    fun h => absurd hfin h⟩

namespace Conn

/-- A piece that starts at the next number, or one byte before the data. -/
theorem within_send {c : Conn} {total n : ℕ} {bytes : List UInt8} {flags : UInt8}
    (hlow : -1 ≤ c.rel c.sndNxt) (hle : c.rel c.sndNxt ≤ n) (hnear : n ≤ c.rel c.sndNxt + 1)
    (htotal : total < 2 ^ 31) (hstop : n + bytes.length ≤ total)
    (hfin : flags &&& FIN ≠ 0 → n + bytes.length = total) :
    (c.send flags bytes).Within (c.iss + 1) total := by
  have hend : c.rel (c.sndNxt + UInt32.ofNat bytes.length) = c.rel c.sndNxt + bytes.length :=
    pos_add (by change c.rel c.sndNxt + _ < _; omega)
  constructor
  · intro _
    rw [send, seqOf_segment]
    exact hlow
  · intro _
    rw [send, seqOf_segment, payloadOf_segment]
    change c.rel c.sndNxt + _ ≤ _
    omega
  · intro hf
    rw [send, flagsOf_segment] at hf
    have := hfin hf
    rw [dataEnd, send, seqOf_segment, payloadOf_segment]
    change _ ≤ c.rel _
    omega
  · intro hf
    rw [dataEnd, send, seqOf_segment, payloadOf_segment]
    change c.rel _ ≤ _
    omega

/-- **The pieces of a response lie in it**, and the next number stays in its bounds. -/
theorem within_pumps {r : RespState} {now : ℕ} {c : Conn} {out : Conn × List Sent}
    (h : Pumps r now c out) (htotal : r.totalLen + 1 < 2 ^ 31) :
    c.resp = some r → -1 ≤ c.rel c.sndNxt → c.rel c.sndNxt ≤ r.totalLen + 1 →
      (∀ y ∈ out.2, y.Within (c.iss + 1) r.totalLen) ∧
      c.rel c.sndNxt ≤ c.rel out.1.sndNxt ∧ c.rel out.1.sndNxt ≤ r.totalLen + 1 := by
  induction h with
  | stop c =>
    intro _ _ hhigh
    exact ⟨by simp, le_rfl, hhigh⟩
  | last c bytes hpos _ hlast =>
    intro hr hlow hhigh
    have hsent := bytesBefore_pos hr c.sndNxt
    rw [show c.bytesBefore c.sndNxt = c.sentBytes from rfl] at hsent
    have hadd : c.rel (c.sndNxt + UInt32.ofNat bytes.length) =
        c.rel c.sndNxt + bytes.length := pos_add (by change c.rel _ + _ < _; omega)
    have hone : c.rel (c.sndNxt + UInt32.ofNat bytes.length + 1) =
        c.rel (c.sndNxt + UInt32.ofNat bytes.length) + 1 :=
      pos_add (n := 1) (by change c.rel _ + _ < _; omega)
    refine ⟨fun y hy => ?_, by dsimp only; omega, by dsimp only; omega⟩
    rw [List.mem_singleton.mp hy]
    exact within_send (n := c.sentBytes) hlow (by omega) (by omega) (by omega) (by omega)
      (fun _ => hlast)
  | more c bytes hpos _ hmore out _ ih =>
    intro hr hlow hhigh
    have hsent := bytesBefore_pos hr c.sndNxt
    rw [show c.bytesBefore c.sndNxt = c.sentBytes from rfl] at hsent
    have hadd : c.rel (c.sndNxt + UInt32.ofNat bytes.length) =
        c.rel c.sndNxt + bytes.length := pos_add (by change c.rel _ + _ < _; omega)
    obtain ⟨hall, hle, hle'⟩ := ih hr
      (by change -1 ≤ c.rel (c.sndNxt + UInt32.ofNat bytes.length); omega)
      (by change c.rel (c.sndNxt + UInt32.ofNat bytes.length) ≤ _; omega)
    change c.rel (c.sndNxt + UInt32.ofNat bytes.length) ≤ c.rel out.1.sndNxt at hle
    change c.rel out.1.sndNxt ≤ _ at hle'
    refine ⟨fun y hy => ?_, by dsimp only; omega, hle'⟩
    rcases List.mem_cons.mp hy with rfl | hy
    · exact within_send (n := c.sentBytes) hlow (by omega) (by omega) (by omega) (by omega)
        (fun hf => absurd hf (by decide))
    · exact hall y hy

/-- A response that is too long for its offsets gets no FIN. -/
theorem noFin_pumps {r : RespState} {now : ℕ} {c : Conn} {out : Conn × List Sent}
    (h : Pumps r now c out) (htotal : 2 ^ 31 + 511 < r.totalLen) :
    c.resp = some r → ∀ y ∈ out.2, flagsOf y.packet &&& FIN = 0 := by
  induction h with
  | stop c => exact fun _ y hy => by simp at hy
  | last c bytes hpos hmss hlast =>
    intro hr
    have hsent := bytesBefore_pos hr c.sndNxt
    rw [show c.bytesBefore c.sndNxt = c.sentBytes from rfl] at hsent
    have hlt : c.rel c.sndNxt < 2 ^ 31 := pos_lt _ _
    have hmss' : bytes.length ≤ 512 := hmss
    omega
  | more c bytes _ _ _ out _ ih =>
    intro hr y hy
    rcases List.mem_cons.mp hy with rfl | hy
    · rw [send, flagsOf_segment]
      decide
    · exact ih hr y hy

end Conn

/-! ## The phases of a connection -/

/-- What holds between events, by what became of the request. -/
inductive Phase (s : TcpServer) (flow : List Sent) : Prop
  /-- No request has come. -/
  | fresh (hreq : s.requests = []) (hresp : s.conn.resp = none)
      (huna : -1 ≤ s.conn.rel s.conn.sndUna) (hle : s.conn.rel s.conn.sndUna ≤ 0)
      (hnxt : s.conn.rel s.conn.sndNxt = 0)
      (hquiet : ∀ y ∈ flow, payloadOf y.packet = [] ∧ flagsOf y.packet &&& FIN = 0)
  /-- A response of so many bytes is sent, or was. -/
  | answered (total : ℕ) (hreq : s.requests ≠ []) (htotal : total + 1 < 2 ^ 31)
      (hresp : ∀ r, s.conn.resp = some r → r.totalLen = total)
      (huna : -1 ≤ s.conn.rel s.conn.sndUna)
      (hle : s.conn.rel s.conn.sndUna ≤ s.conn.rel s.conn.sndNxt)
      (hnxt : s.conn.rel s.conn.sndNxt ≤ total + 1)
      (hwithin : ∀ y ∈ flow, y.Within (s.conn.iss + 1) total)
  /-- The response is so long that it gets no FIN. -/
  | endless (hreq : s.requests ≠ [])
      (hresp : ∀ r, s.conn.resp = some r → 2 ^ 31 + 511 < r.totalLen)
      (hfin : ∀ y ∈ flow, flagsOf y.packet &&& FIN = 0)

namespace Phase

variable {s : TcpServer} {flow : List Sent}

/-- In every phase, what is behind a FIN is the same FIN again. -/
theorem nothingAfterFin (h : Phase s flow) : NothingAfterFin flow := by
  cases h with
  | fresh _ _ _ _ _ hquiet => exact nothingAfterFin_of_noFin fun y hy => (hquiet y hy).2
  | answered total _ htotal _ _ _ _ hwithin => exact nothingAfterFin_of_within htotal hwithin
  | endless _ _ hfin => exact nothingAfterFin_of_noFin hfin

/-- An acknowledgement may end the response, which is a later phase, and never goes back to an
earlier one. -/
theorem afterAck (h : Phase s flow) (p : Packet) : Phase (s.afterAck p) flow := by
  unfold TcpServer.afterAck
  split
  swap
  · exact h
  obtain ⟨hiss, hnxt', hresp', -⟩ := s.conn.onAck_spec p.ack p.win
  have hrel : ∀ x, (s.conn.onAck p.ack p.win).rel x = s.conn.rel x := fun x => by
    rw [Conn.rel, Conn.rel, hiss]
  cases h with
  | fresh hreq hresp huna hle hnxt hquiet =>
    obtain ⟨hlow, hhigh⟩ := Conn.rel_onAck (c := s.conn) (by omega) p.ack p.win
    refine .fresh hreq ?_ ?_ ?_ ?_ hquiet
    · cases hr : (s.conn.onAck p.ack p.win).resp with
      | none => rfl
      | some r =>
        rw [hresp' r hr] at hresp
        cases hresp
    all_goals
      dsimp only
      rw [hrel]
    · omega
    · omega
    · rw [hnxt', hnxt]
  | answered total hreq htotal hresp huna hle hnxt hwithin =>
    obtain ⟨hlow, hhigh⟩ := Conn.rel_onAck hle p.ack p.win
    refine .answered total hreq htotal (fun r hr => hresp r (hresp' r hr)) ?_ ?_ ?_ ?_
    · dsimp only
      rw [hrel]
      omega
    · dsimp only
      rw [hrel, hrel, hnxt']
      exact hhigh
    · dsimp only
      rw [hrel, hnxt']
      exact hnxt
    · dsimp only
      rw [hiss]
      exact hwithin
  | endless hreq hresp hfin => exact .endless hreq (fun r hr => hresp r (hresp' r hr)) hfin

/-- Data that arrives does not change how far the response has come. -/
theorem afterData (h : Phase s flow) (p : Packet) : Phase (s.afterData p) flow := by
  cases h with
  | fresh hreq hresp huna hle hnxt hquiet => exact .fresh hreq hresp huna hle hnxt hquiet
  | answered total hreq htotal hresp huna hle hnxt hwithin =>
    exact .answered total hreq htotal hresp huna hle hnxt hwithin
  | endless hreq hresp hfin => exact .endless hreq hresp hfin

/-- The first request stages a response. -/
theorem buildResponse (h : Phase s flow) (hreq : s.requests = []) (req : List UInt8)
    (hsize : ∀ r, (s.buildResponse req).conn.resp = some r →
      r.totalLen < 2 ^ 31 - 1 ∨ 2 ^ 31 + 511 < r.totalLen) :
    Phase (s.buildResponse req) flow := by
  obtain ⟨r, action, heq⟩ := s.buildResponse_eq req
  have hr := hsize r (by rw [heq])
  rw [heq]
  have hne : s.requests ++ [req] ≠ [] := by simp
  cases h with
  | fresh _ _ huna hle hnxt hquiet =>
    rcases hr with hsmall | hlarge
    · refine .answered r.totalLen hne (by omega) (fun r' hr' => ?_) huna ?_ ?_ fun y hy =>
        within_of_quiet (hquiet y hy).1 (hquiet y hy).2
      · rw [← Option.some_inj.mp hr']
      · change s.conn.rel s.conn.sndUna ≤ s.conn.rel s.conn.sndNxt
        omega
      · change s.conn.rel s.conn.sndNxt ≤ _
        omega
    · refine .endless hne (fun r' hr' => ?_) fun y hy => (hquiet y hy).2
      rw [← Option.some_inj.mp hr']
      exact hlarge
  | answered _ hreq' => exact absurd hreq hreq'
  | endless hreq' => exact absurd hreq hreq'

/-- The timeout, which fires only when a response is staged. -/
theorem rewound (h : Phase s flow) (hresp : s.conn.resp ≠ none) : Phase s.rewound flow := by
  cases h with
  | fresh _ hnone => exact absurd hnone hresp
  | answered total hreq htotal hresp huna hle hnxt hwithin =>
    refine .answered total hreq htotal (fun r hr => ?_) huna le_rfl (hle.trans hnxt) hwithin
    obtain ⟨r', hr', rfl⟩ := Option.map_eq_some_iff.mp hr
    exact hresp r' hr'
  | endless hreq hresp hfin =>
    refine .endless hreq (fun r hr => ?_) hfin
    obtain ⟨r', hr', rfl⟩ := Option.map_eq_some_iff.mp hr
    exact hresp r' hr'

/-- **The pump goes on in the phase, or ends it with the FIN**; what it sends is within the
response that the phase is about. -/
theorem pumped (h : Phase s flow) (now window : ℕ) :
    Phase (s.pumped now window).1 (flow ++ (s.pumped now window).2) := by
  unfold TcpServer.pumped
  rcases s.conn.pump_pumps now window with ⟨-, heq⟩ | ⟨r, hr, hpumps⟩
  · rw [heq, List.append_nil]
    exact h
  generalize s.conn.pump now window = out at hpumps ⊢
  have hframe := hpumps.frame
  have hrel : ∀ x, out.1.rel x = s.conn.rel x := fun x => by
    rw [Conn.rel, Conn.rel, hframe.iss]
  have htotals : ∀ r', out.1.resp = some r' → r'.totalLen = r.totalLen := by
    intro r' hr'
    have htotal := hframe.total
    rw [hr', hr] at htotal
    exact Option.some_inj.mp htotal
  cases h with
  -- nothing is staged, so nothing is sent
  | fresh _ hresp =>
    rw [hresp] at hr
    cases hr
  -- the numbers stay within the response that was staged
  | answered total hreq htotal hresp huna hle hnxt hwithin =>
    have hlen := hresp r hr
    obtain ⟨hall, hlow, hhigh⟩ := Conn.within_pumps hpumps (by omega) hr (by omega) (by omega)
    refine .answered total hreq htotal (fun r' hr' => (htotals r' hr').trans hlen) ?_ ?_ ?_ ?_
    · dsimp only
      rw [hrel, hframe.sndUna]
      exact huna
    · dsimp only
      rw [hrel, hrel, hframe.sndUna]
      exact hle.trans hlow
    · dsimp only
      rw [hrel]
      omega
    · dsimp only
      rw [hframe.iss]
      intro y hy
      rcases List.mem_append.mp hy with hy | hy
      · exact hwithin y hy
      · rw [← hlen]
        exact hall y hy
  -- a response that is too long never comes to its FIN
  | endless hreq hresp hfin =>
    refine .endless hreq (fun r' hr' => ?_) fun y hy => ?_
    · rw [htotals r' hr']
      exact hresp r hr
    · exact (List.mem_append.mp hy).elim (hfin y) (Conn.noFin_pumps hpumps (hresp r hr) hr y)

end Phase

/-! ## Runs -/

namespace TcpServer

/-- An event routes a request of a connection that has had one. -/
def Reroutes (s : TcpServer) : TcpEvent → Prop
  | .packet inner _ _ => s.requests ≠ [] ∧ ∃ p, s.taking inner = some p ∧ s.routes p = true
  | .tick _ => False

/-- The events that keep to one request. -/
structure KeepsOne (s : TcpServer) (e : TcpEvent) : Prop where
  once : ¬ s.Reroutes e
  size : ∀ r, s.staged e = some r → r.totalLen < 2 ^ 31 - 1 ∨ 2 ^ 31 + 511 < r.totalLen

end TcpServer

namespace Session

/-! ### At most once -/

/-- What holds of a session that keeps to one request. -/
structure Once (x : Session) : Prop where
  length : x.server.requests.length ≤ 1
  after : NothingAfterFin x.flow
  phase : x.server.conn.active = true → Phase x.server x.flow

/-- No request has been routed and no response staged. -/
theorem once_start (handler : Option RouteFn) : (start handler).Once where
  length := Nat.zero_le 1
  after := List.Pairwise.nil
  phase := fun hactive => by cases hactive

/-- A connection that ends, with a packet without data. -/
theorem once_closed {x : Session} (h : x.Once) {s : TcpServer}
    (hs : s.requests = x.server.requests) {y : Sent} (hy : payloadOf y.packet = []) :
    (x.emit (s.closed, [y])).Once where
  length := by
    change s.requests.length ≤ 1
    rw [hs]
    exact h.length
  after := h.after.concat hy
  phase := fun hactive => by cases hactive

/-- A pumped session has routed as many requests as before, and its packets belong to the one
response. -/
theorem once_pumped {x : Session} {s : TcpServer} (hlen : s.requests.length ≤ 1)
    (hphase : Phase s x.flow) (now window : ℕ) : (x.emit (s.pumped now window)).Once where
  length := hlen
  after := (hphase.pumped now window).nothingAfterFin
  phase := fun _ => hphase.pumped now window

/-- Acknowledging routes nothing. -/
theorem requests_afterAck (s : TcpServer) (p : Packet) :
    (s.afterAck p).requests = s.requests := by
  unfold afterAck
  split
  · rfl
  · rfl

/-- **An event that keeps to one request.** -/
theorem once_step {x : Session} (h : x.Once) {e : TcpEvent} (hkeeps : x.server.KeepsOne e) :
    (x.onEvent e).Once := by
  have hstep := x.steps e
  generalize x.onEvent e = x' at hstep ⊢
  cases hstep with
  | ignored => exact h
  -- a new connection: nothing is sent but the SYN, which takes one number
  | opened inner now iss p =>
    have hsyn : ∀ y ∈ [(Conn.opened p now iss).send (SYN ||| ACK) []],
        payloadOf y.packet = [] ∧ flagsOf y.packet &&& FIN = 0 := by
      intro y hy
      rw [List.mem_singleton.mp hy]
      exact ⟨rfl, (by decide : (SYN ||| ACK) &&& FIN = 0)⟩
    have hzero : pos (iss + 1) (iss + 1) = 0 := by
      rw [pos, UInt32.sub_self]
      decide
    have hone : pos (iss + 1) iss = -1 := by
      have hiss := iss.toNat_lt
      have h1 : (1 : UInt32).toNat = 1 := rfl
      rw [pos, asI32, UInt32.toNat_sub, UInt32.toNat_add, h1]
      split <;> omega
    have hphase : Phase { x.server with
        conn := { Conn.opened p now iss with sndNxt := iss + 1 }, requests := [] }
        [(Conn.opened p now iss).send (SYN ||| ACK) []] :=
      .fresh rfl rfl hone.ge (hone.le.trans (by decide)) hzero hsyn
    exact ⟨Nat.zero_le 1, hphase.nothingAfterFin, fun _ => hphase⟩
  | reset =>
    refine ⟨h.length, ?_, fun hactive => by cases hactive⟩
    change NothingAfterFin (x.flow ++ [])
    rw [List.append_nil]
    exact h.after
  | routed inner now iss p ht hroutes s hs =>
    -- the condition leaves no request that was routed before
    have hreq : x.server.requests = [] := by
      by_contra hne
      exact hkeeps.once ⟨hne, p, taking_eq_some.mpr ht, hroutes⟩
    have hreq' : ((x.server.afterAck p).afterData p).requests = [] :=
      (requests_afterAck x.server p).trans hreq
    have hsize := hkeeps.size
    rw [staged_of_routes ht hroutes] at hsize
    have hphase := (((h.phase ht.matched.1).afterAck p).afterData p).buildResponse hreq'
      p.payload hsize
    obtain ⟨r, action, heq⟩ := ((x.server.afterAck p).afterData p).buildResponse_eq p.payload
    have hlen : s.requests.length ≤ 1 := by
      rw [hs, heq]
      change (((x.server.afterAck p).afterData p).requests ++ [p.payload]).length ≤ 1
      rw [hreq']
      exact le_rfl
    rw [← hs] at hphase
    exact once_pumped (x := x.take p) hlen hphase now _
  | data inner now iss p ht hroutes hdata s hs =>
    have hphase := ((h.phase ht.matched.1).afterAck p).afterData p
    rw [← hs] at hphase
    refine once_pumped (x := x.take p) ?_ hphase now _
    rw [hs]
    exact (requests_afterAck x.server p).symm ▸ h.length
  | closed inner now iss p =>
    exact once_closed (x := x.take p) ⟨h.length, h.after, h.phase⟩ (requests_afterAck x.server p) rfl
  | ack inner now iss p ht hroutes hdata hfin s hs =>
    have hphase := (h.phase ht.matched.1).afterAck p
    rw [← hs] at hphase
    refine once_pumped (x := x.take p) ?_ hphase now _
    rw [hs]
    exact (requests_afterAck x.server p).symm ▸ h.length
  | rst now => exact once_closed h rfl rfl
  -- a timer sends again only what is staged
  | resent now hfires hexh s hs =>
    simp only [rtoFires, Bool.and_eq_true] at hfires
    have hresp : x.server.conn.resp ≠ none := by
      intro hnone
      rw [hnone] at hfires
      exact Bool.false_ne_true hfires.1.1.2
    have hphase := (h.phase hfires.1.1.1.1).rewound hresp
    rw [← hs] at hphase
    refine once_pumped ?_ hphase now _
    rw [hs]
    exact h.length

end Session
