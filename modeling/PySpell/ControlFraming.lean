/-
# Framing on the control channel

What the layers of the control channel do depends on the bytes that come in, and not on
the pieces in which they come: a connection is its `pending` bytes (`Conn.Same`), and
every reading function keeps this (`Channel.Same`).
-/
import PySpell.ControlChannel

namespace Control

open StateOutcome

/-! ## Connections -/

namespace Conn

/-- The same bytes to come, and the same ending. -/
structure Same (c d : Conn) : Prop where
  pending : c.pending = d.pending
  ending : c.ending = d.ending

theorem rx_le_pending (c : Conn) : c.rx.length ≤ c.pending.length := by
  rw [pending, List.length_append]
  exact Nat.le_add_right _ _

theorem pending_cons (piece : Piece) (rest : List Piece) (ending : Ending) (rx : List UInt8) :
    (⟨piece :: rest, ending, rx⟩ : Conn).pending =
      (⟨rest, ending, rx ++ piece.val⟩ : Conn).pending := by
  simp [pending]

/-- The loop of `fill_to` collects what is asked for, if it comes. -/
theorem fillLoop_of_le (ending : Ending) {n : ℕ} {pieces : List Piece} : ∀ {rx : List UInt8},
    n ≤ (⟨pieces, ending, rx⟩ : Conn).pending.length →
      ∃ c, fillLoop ending n pieces rx = (.ok (), c) ∧ n ≤ c.rx.length ∧
        c.Same ⟨pieces, ending, rx⟩ := by
  induction pieces with
  | nil =>
    intro rx h
    have hrx : n ≤ rx.length := by simpa [pending] using h
    exact ⟨_, by rw [fillLoop, if_neg (by omega)], hrx, rfl, rfl⟩
  | cons piece rest ih =>
    intro rx h
    rw [fillLoop]
    by_cases hshort : rx.length < n
    · rw [pending_cons] at h
      obtain ⟨c, hc, hlen, hsame⟩ := ih h
      exact ⟨c, by rw [if_pos hshort, hc], hlen, by rw [hsame.pending, pending_cons], hsame.ending⟩
    · exact ⟨_, by rw [if_neg hshort], Nat.le_of_not_lt hshort, rfl, rfl⟩

/-- Otherwise it says how much there is. -/
theorem fillLoop_of_lt (ending : Ending) {n : ℕ} {pieces : List Piece} : ∀ {rx : List UInt8},
    (⟨pieces, ending, rx⟩ : Conn).pending.length < n →
      ∃ c, fillLoop ending n pieces rx =
          (.err (ending.message n (⟨pieces, ending, rx⟩ : Conn).pending.length), c) ∧
        c.Same ⟨pieces, ending, rx⟩ := by
  induction pieces with
  | nil =>
    intro rx h
    have hrx : (⟨[], ending, rx⟩ : Conn).pending = rx := List.append_nil rx
    rw [hrx] at h ⊢
    exact ⟨_, by rw [fillLoop, if_pos h], rfl, rfl⟩
  | cons piece rest ih =>
    intro rx h
    have hshort := (rx_le_pending ⟨piece :: rest, ending, rx⟩).trans_lt h
    rw [pending_cons] at h ⊢
    obtain ⟨c, hc, hsame⟩ := ih h
    exact ⟨c, by rw [fillLoop, if_pos hshort, hc], by rw [hsame.pending, pending_cons], hsame.ending⟩

/-- **`take` takes from the front of the bytes to come.** -/
theorem take_of_le {n : ℕ} {c : Conn} (h : n ≤ c.pending.length) :
    ∃ c', take n c = (.ok (c.pending.take n), c') ∧ c'.pending = c.pending.drop n ∧
      c'.ending = c.ending := by
  obtain ⟨c', hfill, hrx, hsame⟩ := fillLoop_of_le c.ending h
  refine ⟨{ c' with rx := c'.rx.drop n }, ?_, ?_, hsame.ending⟩
  · rw [take, bind_run_of_ok hfill]
    have htake : c.pending.take n = c'.rx.take n := by
      rw [← show c'.pending = c.pending from hsame.pending, pending,
        List.take_append_of_le_length hrx]
    rw [htake]
    rfl
  · rw [← show c'.pending = c.pending from hsame.pending]
    exact (List.drop_append_of_le_length hrx).symm

/-- When there are too few, it takes nothing. -/
theorem take_of_lt {n : ℕ} {c : Conn} (h : c.pending.length < n) :
    ∃ c', take n c = (.err (c.ending.message n c.pending.length), c') ∧ c'.Same c := by
  obtain ⟨c', hfill, hsame⟩ := fillLoop_of_lt c.ending h
  refine ⟨c', ?_, hsame⟩
  rw [take, bind_run, fillTo, hfill]

/-- **The pieces do not matter.** -/
theorem take_same (n : ℕ) : Sim Same (fun _ => False) (take n) (take n) := by
  intro c d hsame
  right
  by_cases h : n ≤ c.pending.length
  · obtain ⟨c', hc, hcp, hce⟩ := take_of_le h
    obtain ⟨d', hd, hdp, hde⟩ := take_of_le (hsame.pending ▸ h)
    rw [hc, hd, hsame.pending]
    exact ⟨rfl, by rw [hcp, hdp, hsame.pending], by rw [hce, hde, hsame.ending]⟩
  · obtain ⟨c', hc, hcs⟩ := take_of_lt (Nat.lt_of_not_le h)
    obtain ⟨d', hd, hds⟩ := take_of_lt (hsame.pending ▸ Nat.lt_of_not_le h)
    rw [hc, hd, hsame.pending, hsame.ending]
    exact ⟨rfl, by rw [hcs.pending, hds.pending, hsame.pending],
      by rw [hcs.ending, hds.ending, hsame.ending]⟩

/-- **`read_frame` comes back**: it takes a header and a payload, or only the header, or says
that there is no header. -/
theorem readFrame_run (c : Conn) :
    (∃ typ payload c', readFrame c = (.ok (typ, payload), c') ∧
        c'.pending.length + 3 + payload.length = c.pending.length) ∨
      ∃ message c', readFrame c = (.err message, c') ∧
        (c'.pending.length + 3 = c.pending.length ∨
          c.pending.length < 3 ∧ c'.Same c ∧ message = c.ending.message 3 c.pending.length) := by
  rw [readFrame]
  by_cases hhead : 3 ≤ c.pending.length
  · obtain ⟨c', htake, hpending, -⟩ := take_of_le hhead
    rw [bind_run_of_ok htake]
    have hleft : c'.pending.length + 3 = c.pending.length := by
      rw [hpending, List.length_drop]
      omega
    by_cases hbody : Bytes.toNatBe ((c.pending.take 3).drop 1) ≤ c'.pending.length
    · obtain ⟨c'', htake', hpending', -⟩ := take_of_le hbody
      rw [bind_run_of_ok htake']
      refine Or.inl ⟨_, _, c'', rfl, ?_⟩
      rw [hpending', List.length_drop, List.length_take_of_le hbody]
      omega
    · obtain ⟨c'', htake', hsame⟩ := take_of_lt (Nat.lt_of_not_le hbody)
      rw [bind_run, htake']
      exact Or.inr ⟨_, c'', rfl, Or.inl (by rw [hsame.pending, hleft])⟩
  · obtain ⟨c', htake, hsame⟩ := take_of_lt (Nat.lt_of_not_le hhead)
    rw [bind_run, htake]
    exact Or.inr ⟨_, c', rfl, Or.inr ⟨Nat.lt_of_not_le hhead, hsame, rfl⟩⟩

theorem readFrame_same : Sim Same (fun _ => False) readFrame readFrame :=
  (take_same 3).bind fun _ => (take_same _).bind fun _ => .pure _

end Conn

/-! ## Channels -/

namespace Channel

variable (ae : Aead)

/-- The same bytes to come, and the same state of the layers above. -/
structure Same (t u : Channel) : Prop where
  conn : t.conn.Same u.conn
  tr : t.tr = u.tr
  rx : t.rx = u.rx

/-- Both channels do the same, and are the same afterwards. -/
abbrev Agrees {α : Type} (m : StateOutcome Channel String α) : Prop :=
  Sim Same (fun _ => False) m m

theorem onConn_agrees {α : Type} {m : StateOutcome Conn String α}
    (h : Sim Conn.Same (fun _ => False) m m) : Agrees (onConn m) := by
  intro t u hsame
  right
  rcases h t.conn u.conn hsame.conn with ⟨e, he, -⟩ | ⟨heq, hconn⟩
  · exact he.elim
  · exact ⟨heq, hconn, hsame.tr, hsame.rx⟩

theorem onTransport_agrees {α : Type} (m : StateOutcome Transport String α) :
    Agrees (onTransport m) := by
  intro t u hsame
  right
  rw [onTransport, onTransport, hsame.tr]
  exact ⟨rfl, hsame.conn, rfl, hsame.rx⟩

theorem modify_rx_agrees (f : List UInt8 → List UInt8) :
    Agrees (StateOutcome.modify fun t : Channel => { t with rx := f t.rx }) := by
  intro t u hsame
  exact Or.inr ⟨rfl, hsame.conn, hsame.tr, congrArg f hsame.rx⟩

theorem gets_rx_agrees {α : Type} (f : List UInt8 → α) :
    Agrees (StateOutcome.gets fun t : Channel => f t.rx) := by
  intro t u hsame
  refine Or.inr ⟨?_, hsame⟩
  change (Outcome.ok (f t.rx) : Outcome String α) = .ok (f u.rx)
  rw [hsame.rx]

theorem pull_agrees : Agrees (pull ae) := by
  refine (onConn_agrees Conn.readFrame_same).bind fun frame => ?_
  obtain ⟨typ, ct⟩ := frame
  dsimp only
  split
  · exact (onTransport_agrees _).bind fun pt => modify_rx_agrees fun rx => rx ++ pt
  · split
    · exact .fail _
    · exact .fail _

theorem pullLoop_succ (n fuel : ℕ) (t : Channel) :
    pullLoop ae n (fuel + 1) t =
      if t.rx.length < n then (pull ae >>= fun _ => pullLoop ae n fuel) t else (.ok (), t) := rfl

theorem pullLoop_agrees (n fuel : ℕ) : Agrees (pullLoop ae n fuel) := by
  induction fuel with
  | zero => exact .lift _
  | succ fuel ih =>
    intro t u hsame
    rw [pullLoop_succ, pullLoop_succ, hsame.rx]
    split
    · exact (pull_agrees ae).bind (fun _ => ih) t u hsame
    · exact Or.inr ⟨rfl, hsame⟩

theorem readExact_agrees (n : ℕ) : Agrees (readExact ae n) := by
  intro t u hsame
  rw [readExact, readExact, hsame.conn.pending]
  exact ((pullLoop_agrees ae n _).bind fun _ => (gets_rx_agrees fun rx => rx.take n).bind fun out =>
    (modify_rx_agrees fun rx => rx.drop n).bind fun _ => .pure out) t u hsame

theorem consumeEarlyPayload_agrees : Agrees (consumeEarlyPayload ae) := by
  refine (readExact_agrees ae 9).bind fun hdr => ?_
  split
  · exact (readExact_agrees ae _).bind fun json => .pure _
  · exact (modify_rx_agrees fun rx => hdr ++ rx).bind fun _ => .pure _

theorem readFrame_agrees : Agrees (readFrame ae) := by
  refine (readExact_agrees ae 9).bind fun hdr => ?_
  dsimp only
  split
  · exact (readExact_agrees ae _).bind fun payload => .pure _
  · exact (Sim.pure _).bind fun payload => .pure _

/-- **What comes in does not depend on the pieces.** -/
theorem inboundLoop_same (fuel : ℕ) : ∀ {t u : Channel}, t.Same u →
    inboundLoop ae fuel t = inboundLoop ae fuel u := by
  induction fuel with
  | zero =>
    intro t u hsame
    rw [inboundLoop, inboundLoop, closed, closed, hsame.conn.pending, hsame.conn.ending]
  | succ fuel ih =>
    intro t u hsame
    have hexhausted : t.Exhausted ↔ u.Exhausted := by
      rw [Exhausted, Exhausted, hsame.rx, hsame.conn.pending]
    have hclosed : t.closed = u.closed := by
      rw [closed, closed, hsame.conn.pending, hsame.conn.ending]
    rcases readFrame_agrees ae t u hsame with ⟨e, he, -⟩ | ⟨heq, hafter⟩
    · exact he.elim
    · rw [inboundLoop, inboundLoop, heq, ih hafter, hclosed]
      simp only [hexhausted]

theorem inbound_same {t u : Channel} (h : t.Same u) : inbound ae t = inbound ae u := by
  rw [inbound, inbound, weight, weight, h.rx, h.conn.pending]
  exact inboundLoop_same ae _ h

/-! ## Every call ends -/

theorem pull_run (t : Channel) :
    (∃ t', pull ae t = (.ok (), t') ∧ t'.weight + 3 ≤ t.weight ∧
        t'.conn.pending.length < t.conn.pending.length) ∨
      ∃ message t', pull ae t = (.err message, t') ∧ t'.rx = t.rx ∧
        (t'.weight + 3 ≤ t.weight ∨
          t.conn.pending.length < 3 ∧ t'.Same t ∧ message = t.closed) := by
  rw [pull]
  rcases Conn.readFrame_run t.conn with
    ⟨typ, ct, c', hread, hlen⟩ | ⟨message, c', hread, hleft⟩
  · have hconn : onConn Conn.readFrame t = (.ok (typ, ct), { t with conn := c' }) := by
      rw [onConn, hread]
    rw [bind_run_of_ok hconn]
    dsimp only
    by_cases hrecord : typ = msgRecord
    · rw [if_pos hrecord, bind_run, onTransport, Transport.openRecord]
      cases hopen : ae.decrypt t.tr.recv (beNonce t.tr.rxNonce) ct with
      | some pt =>
        -- a record is longer than what is in it
        have hct := ae.length_decrypt _ _ _ _ hopen
        refine Or.inl ⟨_, rfl, ?_, ?_⟩
        · change (t.rx ++ pt).length + c'.pending.length + 3 ≤ t.rx.length + t.conn.pending.length
          rw [List.length_append]
          omega
        · change c'.pending.length < t.conn.pending.length
          omega
      | none =>
        refine Or.inr ⟨_, _, rfl, rfl, Or.inl ?_⟩
        change t.rx.length + c'.pending.length + 3 ≤ t.rx.length + t.conn.pending.length
        omega
    · rw [if_neg hrecord]
      have hweight : ({ t with conn := c' } : Channel).weight + 3 ≤ t.weight := by
        change t.rx.length + c'.pending.length + 3 ≤ t.rx.length + t.conn.pending.length
        omega
      split
      · exact Or.inr ⟨_, _, rfl, rfl, Or.inl hweight⟩
      · exact Or.inr ⟨_, _, rfl, rfl, Or.inl hweight⟩
  · have hconn : onConn Conn.readFrame t = (.err message, { t with conn := c' }) := by
      rw [onConn, hread]
    rw [bind_run, hconn]
    refine Or.inr ⟨message, _, rfl, rfl, ?_⟩
    rcases hleft with hlen | ⟨hfew, hsame, hmessage⟩
    · left
      change t.rx.length + c'.pending.length + 3 ≤ t.rx.length + t.conn.pending.length
      omega
    · exact Or.inr ⟨hfew, ⟨hsame, rfl, rfl⟩, hmessage⟩

/-- `read_exact` returns as many bytes, or an error; then `rx` did not suffice, and the bytes
of a record are gone. -/
theorem pullLoop_run (n fuel : ℕ) : ∀ t : Channel, t.conn.pending.length < fuel →
    (∃ t', pullLoop ae n fuel t = (.ok (), t') ∧ n ≤ t'.rx.length ∧ t'.weight ≤ t.weight) ∨
      ∃ message t', pullLoop ae n fuel t = (.err message, t') ∧ t.rx.length < n ∧
        t'.weight ≤ t.weight ∧ (3 ≤ t.conn.pending.length → t'.weight + 3 ≤ t.weight) := by
  induction fuel with
  | zero => exact fun t h => absurd h (Nat.not_lt_zero _)
  | succ fuel ih =>
    intro t hfuel
    rw [pullLoop_succ]
    by_cases hshort : t.rx.length < n
    · rw [if_pos hshort]
      rcases pull_run ae t with ⟨t', hpull, hweight, hpending⟩ | ⟨message, t', hpull, hrx, hweight⟩
      · rw [bind_run_of_ok hpull]
        rcases ih t' (by omega) with ⟨t'', hloop, hlen, hle⟩ | ⟨message, t'', hloop, -, hle, -⟩
        · exact Or.inl ⟨t'', hloop, hlen, by omega⟩
        · exact Or.inr ⟨message, t'', hloop, hshort, by omega, fun _ => by omega⟩
      · right
        refine ⟨message, t', ?_, hshort, ?_, ?_⟩
        · rw [bind_run, hpull]
        · rcases hweight with hw | ⟨-, hsame, -⟩
          · omega
          · rw [weight, weight, hsame.rx, hsame.conn.pending]
        · intro hthree
          rcases hweight with hw | ⟨hfew, -, -⟩
          · exact hw
          · omega
    · rw [if_neg hshort]
      exact Or.inl ⟨t, rfl, Nat.le_of_not_lt hshort, Nat.le_refl _⟩

theorem readExact_run (n : ℕ) (t : Channel) :
    (∃ out t', readExact ae n t = (.ok out, t') ∧ out.length = n ∧ t'.weight + n ≤ t.weight) ∨
      ∃ message t', readExact ae n t = (.err message, t') ∧ t.rx.length < n ∧
        t'.weight ≤ t.weight ∧ (3 ≤ t.conn.pending.length → t'.weight + 3 ≤ t.weight) := by
  rw [readExact]
  rcases pullLoop_run ae n _ t (Nat.lt_succ_self _) with
    ⟨t', hloop, hlen, hle⟩ | ⟨message, t', hloop, hrest⟩
  · left
    rw [bind_run_of_ok hloop]
    refine ⟨t'.rx.take n, { t' with rx := t'.rx.drop n }, rfl, List.length_take_of_le hlen, ?_⟩
    have hdrop := List.length_drop (i := n) (l := t'.rx)
    rw [weight] at hle ⊢
    dsimp only
    omega
  · right
    rw [bind_run, hloop]
    exact ⟨message, t', rfl, hrest⟩

/-- **`read_frame` comes back**, with a frame or an error, and if there is anything left to
read, there is less of it afterwards. -/
theorem readFrame_run (t : Channel) :
    (∃ fr t', readFrame ae t = (.ok fr, t') ∧ fr.payload.length < 2 ^ 24 ∧
        t'.weight < t.weight) ∨
      ∃ message t', readFrame ae t = (.err message, t') ∧ t'.weight ≤ t.weight ∧
        (¬ t.Exhausted → t'.weight < t.weight) := by
  rw [readFrame]
  rcases readExact_run ae 9 t with
    ⟨hdr, t₁, hread, hlen, hle⟩ | ⟨message, t₁, hread, hshort, hle, hthree⟩
  · rw [bind_run_of_ok hread]
    dsimp only
    have hbound : Bytes.toNatBe (hdr.take 3) < 2 ^ 24 := by
      have hlt := Bytes.toNatBe_lt (hdr.take 3)
      rwa [List.length_take_of_le (by omega)] at hlt
    by_cases hpos : 0 < Bytes.toNatBe (hdr.take 3)
    · rw [if_pos hpos]
      rcases readExact_run ae (Bytes.toNatBe (hdr.take 3)) t₁ with
        ⟨payload, t₂, hread', hlen', hle'⟩ | ⟨message, t₂, hread', -, hle', -⟩
      · rw [bind_run_of_ok hread']
        exact Or.inl ⟨_, t₂, rfl, hlen'.trans_lt hbound, by omega⟩
      · rw [bind_run, hread']
        exact Or.inr ⟨message, t₂, rfl, by omega, fun _ => by omega⟩
    · rw [if_neg hpos]
      exact Or.inl ⟨_, t₁, rfl, Nat.two_pow_pos 24, by omega⟩
  · right
    rw [bind_run, hread]
    refine ⟨message, t₁, rfl, hle, fun hleft => ?_⟩
    have hmore : 3 ≤ t.conn.pending.length := by
      rw [Exhausted] at hleft
      omega
    have hless := hthree hmore
    omega

/-- Once the channel is exhausted, every call fails alike. -/
theorem readFrame_exhausted {t : Channel} (h : t.Exhausted) :
    ∃ t', readFrame ae t = (.err t.closed, t') ∧ t'.Same t := by
  obtain ⟨c', htake, hsame⟩ := Conn.take_of_lt h.2
  have hconn : onConn Conn.readFrame t = (.err t.closed, { t with conn := c' }) := by
    rw [onConn, Conn.readFrame, bind_run, htake]
    rfl
  have hpull : pull ae t = (.err t.closed, { t with conn := c' }) := by
    rw [pull, bind_run, hconn]
  refine ⟨{ t with conn := c' }, ?_, hsame, rfl, rfl⟩
  rw [readFrame, bind_run, readExact, bind_run, pullLoop_succ, if_pos h.1, bind_run, hpull]

/-- More fuel changes nothing. -/
theorem inboundLoop_fuel (fuel : ℕ) : ∀ (fuel' : ℕ) (t : Channel), t.weight ≤ fuel →
    t.weight ≤ fuel' → inboundLoop ae fuel t = inboundLoop ae fuel' t := by
  have hzero : ∀ {t : Channel}, t.weight ≤ 0 → t.Exhausted := by
    intro t h
    rw [weight] at h
    exact ⟨by omega, by omega⟩
  induction fuel with
  | zero =>
    intro fuel' t hle _
    cases fuel' with
    | zero => rfl
    | succ fuel' => rw [inboundLoop, inboundLoop, if_pos (hzero hle)]
  | succ fuel ih =>
    intro fuel' t hle hle'
    cases fuel' with
    | zero => rw [inboundLoop, inboundLoop, if_pos (hzero hle')]
    | succ fuel' =>
      rw [inboundLoop, inboundLoop]
      by_cases hleft : t.Exhausted
      · rw [if_pos hleft, if_pos hleft]
      · have hless : (readFrame ae t).2.weight < t.weight := by
          rcases readFrame_run ae t with ⟨fr, t', hread, -, hlt⟩ | ⟨message, t', hread, -, hlt⟩
          · rw [hread]
            exact hlt
          · rw [hread]
            exact hlt hleft
        rw [if_neg hleft, if_neg hleft, ih fuel' _ (by omega) (by omega)]

/-- **What comes in, one call at a time.** -/
theorem inbound_of_left {t : Channel} (h : ¬ t.Exhausted) :
    inbound ae t = (toRead (readFrame ae t).1 :: (inbound ae (readFrame ae t).2).1,
      (inbound ae (readFrame ae t).2).2) := by
  have hsucc : inbound ae t = inboundLoop ae (t.weight + 1) t :=
    inboundLoop_fuel ae _ _ t (Nat.le_refl _) (Nat.le_succ _)
  have hle : (readFrame ae t).2.weight ≤ t.weight := by
    rcases readFrame_run ae t with ⟨fr, t', hread, -, hlt⟩ | ⟨message, t', hread, hle, -⟩
    · rw [hread]
      exact hlt.le
    · rw [hread]
      exact hle
  rw [hsucc, inboundLoop, if_neg h, inbound,
    inboundLoop_fuel ae t.weight (readFrame ae t).2.weight _ hle (Nat.le_refl _)]

theorem inbound_of_exhausted {t : Channel} (h : t.Exhausted) : inbound ae t = ([], t.closed) := by
  rw [inbound]
  cases t.weight with
  | zero => rfl
  | succ fuel => rw [inboundLoop, if_pos h]

end Channel

end Control
