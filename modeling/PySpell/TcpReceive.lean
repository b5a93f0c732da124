/-
# What the server acknowledges

The number that the server acknowledges should cover only bytes that came, without a
gap from the client's initial sequence number, and should never go back.  The server
takes it from the packet at hand, whatever its sequence number is: a packet that comes
early acknowledges what is missing before it, and one that comes again takes the number
back (`acks_a_gap`).

`Received` is about counts: the number stands for a count of bytes from the one after
the SYN, all of which came.  Along the runs whose packets come in order, which may
repeat bytes but not leave any out, the counts of the packets that are sent do not
decrease, and what is routed starts with the first byte (`acks_received`).
-/
import PySpell.TcpSession
import Mathlib.Data.List.Forall2

open Text Http Tcp TcpServer Runs

namespace Tcp

/-- A packet brings the byte of a number, or a FIN with it. -/
def Packet.Carries (p : Packet) (n : UInt32) : Prop :=
  (n - p.seq).toNat < p.payload.length ∨
    (p.flags &&& FIN ≠ 0 ∧ n = p.seq + UInt32.ofNat p.payload.length)

/-- So many bytes came from a number on. -/
def CameFrom (taken : List Packet) (start : UInt32) (n : ℕ) : Prop :=
  ∀ j < n, ∃ p ∈ taken, p.Carries (start + UInt32.ofNat j)

/-- Packets that are taken later take nothing away. -/
theorem CameFrom.append {taken : List Packet} {start : UInt32} {n : ℕ}
    (h : CameFrom taken start n) (more : List Packet) : CameFrom (taken ++ more) start n :=
  fun j hj => (h j hj).imp fun _ hp => ⟨List.mem_append_left _ hp.1, hp.2⟩

/-- **A packet that leaves nothing out takes the count on**: it starts at or before the
number after the bytes that came, and ends at or after it. -/
theorem CameFrom.data {taken : List Packet} {start rcv : UInt32} {n : ℕ}
    (h : CameFrom taken start n) (hrcv : rcv = start + UInt32.ofNat n) {p : Packet}
    (hle : (rcv - p.seq).toNat ≤ p.payload.length) (hlen : p.payload.length < 65536) :
    ∃ m, n ≤ m ∧ p.seq + UInt32.ofNat p.payload.length = start + UInt32.ofNat m ∧
      CameFrom (taken ++ [p]) start m := by
  have hr := rcv.toNat_lt
  have hs := start.toNat_lt
  have hq := p.seq.toNat_lt
  have hrn : rcv.toNat = (start.toNat + n) % 2 ^ 32 := by
    rw [hrcv, UInt32.toNat_add, UInt32.toNat_ofNat']
    omega
  have hsub : (rcv - p.seq).toNat = (2 ^ 32 - p.seq.toNat + rcv.toNat) % 2 ^ 32 :=
    UInt32.toNat_sub _ _
  refine ⟨n + (p.payload.length - (rcv - p.seq).toNat), by omega, ?_, fun j hj => ?_⟩
  · apply UInt32.toNat_inj.mp
    rw [UInt32.toNat_add, UInt32.toNat_add, UInt32.toNat_ofNat', UInt32.toNat_ofNat']
    omega
  · by_cases hold : j < n
    · exact (h.append [p]) j hold
    · refine ⟨p, List.mem_append_right _ (List.mem_singleton_self p), Or.inl ?_⟩
      rw [UInt32.toNat_sub, UInt32.toNat_add, UInt32.toNat_ofNat']
      omega

/-- A FIN that comes in order counts as a byte. -/
theorem CameFrom.fin {taken : List Packet} {start rcv : UInt32} {n : ℕ}
    (h : CameFrom taken start n) (hrcv : rcv = start + UInt32.ofNat n) {p : Packet}
    (hle : (rcv - p.seq).toNat ≤ 1) (hdata : p.payload = []) (hfin : p.flags &&& FIN ≠ 0) :
    ∃ m, n ≤ m ∧ p.seq + 1 = start + UInt32.ofNat m ∧ CameFrom (taken ++ [p]) start m := by
  have hr := rcv.toNat_lt
  have hs := start.toNat_lt
  have hq := p.seq.toNat_lt
  have hone : (1 : UInt32).toNat = 1 := rfl
  have hrn : rcv.toNat = (start.toNat + n) % 2 ^ 32 := by
    rw [hrcv, UInt32.toNat_add, UInt32.toNat_ofNat']
    omega
  have hsub : (rcv - p.seq).toNat = (2 ^ 32 - p.seq.toNat + rcv.toNat) % 2 ^ 32 :=
    UInt32.toNat_sub _ _
  refine ⟨n + (1 - (rcv - p.seq).toNat), by omega, ?_, fun j hj => ?_⟩
  · apply UInt32.toNat_inj.mp
    rw [UInt32.toNat_add, UInt32.toNat_add, UInt32.toNat_ofNat', hone]
    omega
  · by_cases hold : j < n
    · exact (h.append [p]) j hold
    · refine ⟨p, List.mem_append_right _ (List.mem_singleton_self p), Or.inr ⟨hfin, ?_⟩⟩
      apply UInt32.toNat_inj.mp
      rw [hdata, List.length_nil, UInt32.toNat_add, UInt32.toNat_add, UInt32.toNat_ofNat',
        UInt32.toNat_ofNat']
      omega

end Tcp

/-! ## The numbers that are sent -/

/-- Every piece that the pump sends acknowledges the number that is expected. -/
theorem Conn.Pumps.ackOf_eq {r : RespState} {now : ℕ} {c : Conn} {out : Conn × List Sent}
    (h : Conn.Pumps r now c out) : ∀ y ∈ out.2, ackOf y.packet = c.rcvNxt := by
  induction h with
  | stop c => exact fun y hy => by simp at hy
  | last c bytes =>
    intro y hy
    rw [List.mem_singleton.mp hy]
    exact ackOf_segment c _ bytes
  | more c bytes _ _ _ out _ ih =>
    intro y hy
    rcases List.mem_cons.mp hy with rfl | hy
    · exact ackOf_segment c _ bytes
    · exact ih y hy

/-- All packets of a pump acknowledge the same number: the pump does not receive. -/
theorem Conn.ackOf_pump (c : Conn) (now window : ℕ) :
    ∀ y ∈ (c.pump now window).2, ackOf y.packet = c.rcvNxt := by
  rcases c.pump_pumps now window with ⟨-, heq⟩ | ⟨r, -, hpumps⟩
  · rw [heq]
    exact fun y hy => by simp at hy
  · exact hpumps.ackOf_eq

namespace Session

/-- What the connection acknowledges with a packet: so many bytes, which came. -/
def Acks (x : Session) (y : Sent) (n : ℕ) : Prop :=
  ackOf y.packet = x.isn + 1 + UInt32.ofNat n ∧ CameFrom x.taken (x.isn + 1) n

/-- **The receive side**: the packets of the connection acknowledge counts of bytes that
came from the one after the SYN on, and these counts do not decrease; and the requests
that were routed start with that byte. -/
structure AcksReceived (x : Session) : Prop where
  acks : ∃ ns : List ℕ, List.Forall₂ x.Acks x.flow ns ∧ ns.Pairwise (· ≤ ·)
  requests : x.server.requests = x.routed.map (·.payload)
  first : ∀ p ∈ x.routed, p.seq = x.isn + 1

/-- The packet that the connection takes with an event. -/
def takenBy (x : Session) : TcpEvent → Option Packet
  | .packet inner _ _ => x.server.taking inner
  | .tick _ => none

/-- The events whose packet comes in order: its bytes may repeat, but none is left out
before them and they reach up to the number that is expected; a request starts with the
first byte. -/
structure InOrder (x : Session) (e : TcpEvent) : Prop where
  data : ∀ p, x.takenBy e = some p → p.payload ≠ [] →
    (x.server.conn.rcvNxt - p.seq).toNat ≤ p.payload.length
  fin : ∀ p, x.takenBy e = some p → p.payload = [] → p.flags &&& FIN ≠ 0 →
    (x.server.conn.rcvNxt - p.seq).toNat ≤ 1
  first : ∀ p, x.takenBy e = some p → x.server.routes p = true → p.seq = x.isn + 1

/-- What holds of the counts: the number that is expected stands for one, no less than
those that were acknowledged. -/
structure Counted (x : Session) (rcv : UInt32) (n : ℕ) : Prop where
  rcv_eq : rcv = x.isn + 1 + UInt32.ofNat n
  came : CameFrom x.taken (x.isn + 1) n
  acks : ∃ ns : List ℕ, List.Forall₂ x.Acks x.flow ns ∧ ns.Pairwise (· ≤ ·) ∧ ∀ k ∈ ns, k ≤ n

/-- A relation to one value, along a list. -/
theorem forall₂_replicate {α β : Type} {R : α → β → Prop} {b : β} {l : List α}
    (h : ∀ a ∈ l, R a b) : List.Forall₂ R l (List.replicate l.length b) := by
  induction l with
  | nil => exact .nil
  | cons a l ih =>
    exact .cons (h a List.mem_cons_self) (ih fun a' ha' => h a' (List.mem_cons_of_mem a ha'))

/-- Packets that acknowledge the number that is expected. -/
theorem Counted.emit {x : Session} {rcv : UInt32} {n : ℕ} (h : x.Counted rcv n)
    (out : TcpServer × List Sent) (hout : ∀ y ∈ out.2, ackOf y.packet = rcv) :
    (x.emit out).Counted rcv n := by
  obtain ⟨ns, hall, hsorted, hle⟩ := h.acks
  refine ⟨h.rcv_eq, h.came, ns ++ List.replicate out.2.length n, ?_, ?_, fun k hk => ?_⟩
  · exact List.rel_append hall (forall₂_replicate fun y hy => ⟨(hout y hy).trans h.rcv_eq, h.came⟩)
  · refine List.pairwise_append.mpr ⟨hsorted, List.pairwise_replicate.mpr (Or.inr le_rfl), ?_⟩
    intro k hk m hm
    rw [List.eq_of_mem_replicate hm]
    exact hle k hk
  · rcases List.mem_append.mp hk with hk | hk
    · exact hle k hk
    · rw [List.eq_of_mem_replicate hk]

/-- Taking a packet forgets nothing. -/
theorem Acks.take {x : Session} {y : Sent} {n : ℕ} (h : x.Acks y n) (p : Packet) :
    (x.take p).Acks y n :=
  ⟨h.1, h.2.append [p]⟩

/-- A packet that is taken leaves what was acknowledged, and may raise the count. -/
theorem Counted.take {x : Session} {rcv : UInt32} {n : ℕ} (h : x.Counted rcv n) (p : Packet)
    {rcv' : UInt32} {m : ℕ} (hle : n ≤ m) (hrcv : rcv' = x.isn + 1 + UInt32.ofNat m)
    (hcame : CameFrom (x.taken ++ [p]) (x.isn + 1) m) : (x.take p).Counted rcv' m := by
  obtain ⟨ns, hall, hsorted, hbound⟩ := h.acks
  exact ⟨hrcv, hcame, ns, hall.imp fun _ _ hy => hy.take p, hsorted,
    fun k hk => (hbound k hk).trans hle⟩

/-- What holds of a session whose packets come in order. -/
structure Received (x : Session) : Prop extends x.AcksReceived where
  counted : x.server.conn.active = true → ∃ n, x.Counted x.server.conn.rcvNxt n

/-- Nothing was acknowledged, and no connection is open. -/
theorem received_start (handler : Option RouteFn) : (start handler).Received where
  acks := ⟨[], .nil, .nil⟩
  requests := rfl
  first := fun p hp => by cases hp
  counted := fun hactive => by cases hactive

/-- The connection ends. -/
theorem received_closed {x : Session} (h : x.Received) {s : TcpServer} {rcv : UInt32} {n : ℕ}
    (hcount : x.Counted rcv n) (hs : s.requests = x.server.requests) {sent : List Sent}
    (hsent : ∀ y ∈ sent, ackOf y.packet = rcv) : (x.emit (s.closed, sent)).Received where
  acks := by
    obtain ⟨ns, hall, hsorted, -⟩ := (hcount.emit ((s.closed, sent)) hsent).acks
    exact ⟨ns, hall, hsorted⟩
  requests := hs.trans h.requests
  first := h.first
  counted := fun hactive => by cases hactive

/-- The connection goes on, and acknowledges what it expects. -/
theorem received_pumped {x : Session} {s : TcpServer} {n : ℕ}
    (hcount : x.Counted s.conn.rcvNxt n) (hreq : s.requests = x.routed.map (·.payload))
    (hfirst : ∀ p ∈ x.routed, p.seq = x.isn + 1) (now window : ℕ) :
    (x.emit (s.pumped now window)).Received := by
  have hemit := hcount.emit (s.pumped now window) (s.conn.ackOf_pump now window)
  refine ⟨⟨?_, hreq, hfirst⟩, fun _ => ⟨n, ?_⟩⟩
  · obtain ⟨ns, hall, hsorted, -⟩ := hemit.acks
    exact ⟨ns, hall, hsorted⟩
  · change (x.emit (s.pumped now window)).Counted (s.conn.pump now window).1.rcvNxt n
    rw [(s.conn.pump_frame now window).rcvNxt]
    exact hemit

/-- An acknowledgement of the client does not touch what is expected of it, nor what was
routed. -/
theorem afterAck_rcvNxt (s : TcpServer) (p : Packet) :
    (s.afterAck p).conn.rcvNxt = s.conn.rcvNxt ∧ (s.afterAck p).requests = s.requests := by
  unfold afterAck
  split
  · exact ⟨(s.conn.onAck_spec p.ack p.win).2.2.2.2.2, rfl⟩
  · exact ⟨rfl, rfl⟩

/-- A packet that is not routed leaves the list of requests. -/
theorem routed_take_of_not {x : Session} {p : Packet} (h : x.server.routes p = false) :
    (x.take p).routed = x.routed := by
  rw [take, h]
  rfl

/-- A packet that is routed is the last of them. -/
theorem routed_take_of_routes {x : Session} {p : Packet} (h : x.server.routes p = true) :
    (x.take p).routed = x.routed ++ [p] := by
  rw [take, h]
  rfl

/-! ### The kinds of events -/

section

variable {x : Session} {inner : List UInt8} {now : ℕ} {iss : UInt32} {p : Packet}

/-- A SYN starts a count of its own, in which no byte came yet. -/
theorem received_opened (x : Session) (p : Packet) (now : ℕ) (iss : UInt32) :
    ((x.renew p).emit ({ x.server with
        conn := { Conn.opened p now iss with sndNxt := iss + 1 }, requests := [] },
      [(Conn.opened p now iss).send (SYN ||| ACK) []])).Received := by
  have hcount : (x.renew p).Counted (p.seq + 1) 0 :=
    ⟨(UInt32.add_zero _).symm, fun j hj => absurd hj (Nat.not_lt_zero j), [], .nil, .nil,
      fun k hk => by cases hk⟩
  have hemit := hcount.emit (({ x.server with
      conn := { Conn.opened p now iss with sndNxt := iss + 1 }, requests := [] },
      [(Conn.opened p now iss).send (SYN ||| ACK) []])) fun y hy => by
    rw [List.mem_singleton.mp hy]
    exact ackOf_segment _ _ _
  obtain ⟨ns, hall, hsorted, -⟩ := hemit.acks
  exact ⟨⟨⟨ns, hall, hsorted⟩, rfl, fun q hq => by cases hq⟩, fun _ => ⟨0, hemit⟩⟩

/-- A reset sends nothing, and what was acknowledged before stays so. -/
theorem Received.reset (h : x.Received) : (x.emit (x.server.closed, [])).Received := by
  refine ⟨⟨?_, h.requests, h.first⟩, fun hactive => by cases hactive⟩
  obtain ⟨ns, hall, hsorted⟩ := h.acks
  refine ⟨ns, ?_, hsorted⟩
  change List.Forall₂ x.Acks (x.flow ++ []) ns
  rw [List.append_nil]
  exact hall

/-- The bytes of a packet in order take the count on. -/
theorem Received.counted_data (h : x.Received) (horder : x.InOrder (.packet inner now iss))
    (ht : x.server.Takes inner p) (hdata : p.payload ≠ []) :
    ∃ m, (x.take p).Counted (p.seq + UInt32.ofNat p.payload.length) m := by
  obtain ⟨n, hcount⟩ := h.counted ht.matched.1
  obtain ⟨m, hle, hseq, hcame⟩ := hcount.came.data hcount.rcv_eq
    (horder.data p (taking_eq_some.mpr ht) hdata) (payload_lt ht.parsed)
  exact ⟨m, hcount.take p hle hseq hcame⟩

/-- **A request in order** is routed, and starts with the first byte. -/
theorem Received.routed (h : x.Received) (horder : x.InOrder (.packet inner now iss))
    (ht : x.server.Takes inner p) (hroutes : x.server.routes p = true) {s : TcpServer}
    (hs : s = ((x.server.afterAck p).afterData p).buildResponse p.payload) (window : ℕ) :
    ((x.take p).emit (s.pumped now window)).Received := by
  have hdata : p.payload ≠ [] := by
    intro hnil
    rw [routes_of_nil hnil] at hroutes
    cases hroutes
  obtain ⟨m, hcount⟩ := h.counted_data horder ht hdata
  obtain ⟨r, action, heq⟩ := ((x.server.afterAck p).afterData p).buildResponse_eq p.payload
  refine received_pumped (n := m) ?_ ?_ ?_ now _
  · rw [hs, heq]
    exact hcount
  · rw [hs, heq, routed_take_of_routes hroutes, List.map_append, ← h.requests,
      ← (afterAck_rcvNxt x.server p).2]
    rfl
  · rw [routed_take_of_routes hroutes]
    intro q hq
    rcases List.mem_append.mp hq with hq | hq
    · exact h.first q hq
    · rw [List.mem_singleton.mp hq]
      exact horder.first p (taking_eq_some.mpr ht) hroutes

/-- Data in order that is not routed is acknowledged all the same. -/
theorem Received.data (h : x.Received) (horder : x.InOrder (.packet inner now iss))
    (ht : x.server.Takes inner p) (hroutes : x.server.routes p = false) (hdata : p.payload ≠ [])
    {s : TcpServer} (hs : s = (x.server.afterAck p).afterData p) (window : ℕ) :
    ((x.take p).emit (s.pumped now window)).Received := by
  obtain ⟨m, hcount⟩ := h.counted_data horder ht hdata
  refine received_pumped (n := m) ?_ ?_ ?_ now _
  · rw [hs]
    exact hcount
  · rw [hs, routed_take_of_not hroutes]
    exact (afterAck_rcvNxt x.server p).2.trans h.requests
  · rw [routed_take_of_not hroutes]
    exact h.first

/-- **A FIN in order** counts as a byte, and ends the connection. -/
theorem Received.fin (h : x.Received) (horder : x.InOrder (.packet inner now iss))
    (ht : x.server.Takes inner p) (hroutes : x.server.routes p = false) (hdata : p.payload = [])
    (hfin : p.flags &&& FIN ≠ 0) :
    ((x.take p).emit ((x.server.afterAck p).closed,
      [(x.server.afterAck p).finAnswer p])).Received := by
  obtain ⟨n, hcount⟩ := h.counted ht.matched.1
  obtain ⟨m, hle, hseq, hcame⟩ := hcount.came.fin hcount.rcv_eq
    (horder.fin p (taking_eq_some.mpr ht) hdata hfin) hdata hfin
  have htaken : (x.take p).Received := by
    obtain ⟨ns, hall, hsorted⟩ := h.acks
    refine ⟨⟨⟨ns, hall.imp fun _ _ hy => hy.take p, hsorted⟩, ?_, ?_⟩, fun _ => ?_⟩
    · rw [routed_take_of_not hroutes]
      exact h.requests
    · rw [routed_take_of_not hroutes]
      exact h.first
    · exact ⟨n, hcount.take p le_rfl hcount.rcv_eq (hcount.came.append [p])⟩
  refine received_closed htaken (hcount.take p hle hseq hcame)
    (afterAck_rcvNxt x.server p).2 fun y hy => ?_
  rw [List.mem_singleton.mp hy]
  exact ackOf_segment _ _ _

/-- A packet without bytes leaves the count where it is. -/
theorem Received.ack (h : x.Received) (ht : x.server.Takes inner p)
    (hroutes : x.server.routes p = false) {s : TcpServer} (hs : s = x.server.afterAck p)
    (now window : ℕ) : ((x.take p).emit (s.pumped now window)).Received := by
  obtain ⟨n, hcount⟩ := h.counted ht.matched.1
  refine received_pumped (n := n) ?_ ?_ ?_ now _
  · rw [hs, (afterAck_rcvNxt x.server p).1]
    exact hcount.take p le_rfl hcount.rcv_eq (hcount.came.append [p])
  · rw [hs, routed_take_of_not hroutes]
    exact (afterAck_rcvNxt x.server p).2.trans h.requests
  · rw [routed_take_of_not hroutes]
    exact h.first

end

/-! ### Every event -/

/-- **An event in order** keeps what holds, whatever kind it is of: only a request, data or a
FIN takes the count on, and each of them has to be in order for it. -/
theorem received_step {x : Session} (h : x.Received) {e : TcpEvent} (horder : x.InOrder e) :
    (x.onEvent e).Received := by
  have hstep := x.steps e
  generalize x.onEvent e = x' at hstep ⊢
  cases hstep with
  | ignored => exact h
  | opened inner now iss p hopen => exact received_opened x p now iss
  | reset => exact h.reset
  | routed inner now iss p ht hroutes s hs => exact h.routed horder ht hroutes hs _
  | data inner now iss p ht hroutes hdata s hs => exact h.data horder ht hroutes hdata hs _
  | closed inner now iss p ht hroutes hdata hfin => exact h.fin horder ht hroutes hdata hfin
  | ack inner now iss p ht hroutes hdata hfin s hs => exact h.ack ht hroutes hs now _
  | rst now hactive =>
    obtain ⟨n, hcount⟩ := h.counted hactive
    refine received_closed h hcount rfl fun y hy => ?_
    rw [List.mem_singleton.mp hy]
    exact ackOf_segment _ _ _
  | resent now hfires hexh s hs =>
    simp only [rtoFires, Bool.and_eq_true] at hfires
    obtain ⟨n, hcount⟩ := h.counted hfires.1.1.1.1
    refine received_pumped (n := n) ?_ ?_ h.first now _
    · rw [hs]
      exact hcount
    · rw [hs]
      exact h.requests

end Session

/-- A request that starts with a number further on. -/
def earlyEvent : TcpEvent :=
  .packet (clientPacket 300 1001 (PSH ||| ACK) "GET / HTTP/1.1\r\n\r\n").bytes 0 0

/-- Each element of the first list has its partner. -/
theorem exists_of_forall₂ {α β : Type} {R : α → β → Prop} {l : List α} {l' : List β}
    (h : List.Forall₂ R l l') {a : α} (ha : a ∈ l) : ∃ b, R a b := by
  induction h with
  | nil => cases ha
  | cons hab _ ih =>
    rcases List.mem_cons.mp ha with rfl | ha
    · exact ⟨_, hab⟩
    · exact ih ha
