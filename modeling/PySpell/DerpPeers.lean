/-
# The peers of the relay

`serve` keeps the tunnels of a few peers.  A peer joins with an initiation that is
accepted; a transport packet sets the time of a peer that is there; no other frame changes
the table (`handleFrame_peers`).  So the time in an entry is the time of the last such
frame of the peer (`lastHeard`), and when a new peer finds the table full, the peer whose
last frame is oldest goes, and nothing else changes.
-/
import PySpell.SourceFilter

open Tcp Bytes Runs

namespace Derp

open DataPlane (Build Identity)

/-! ## What a frame says about its sender -/

/-- A frame, as far as the table of the peers goes. -/
inductive Heard where
  | nothing
  /-- An initiation that is accepted. -/
  | handshake (src : Bytes 32) (tun : Wg.Tunnel)
  | transport (src : Bytes 32) (pkt : List UInt8)

/-- The peer that is heard. -/
def Heard.src? : Heard → Option (Bytes 32)
  | .nothing => none
  | .handshake src _ => some src
  | .transport src _ => some src

/-- What the device hears in a frame, whatever its state. -/
def heard (b : Build) (id : Identity) (typ : UInt8) (payload : List UInt8) (d : Draw) : Heard :=
  match Node.relayed typ payload with
  | none => .nothing
  | some (src, pkt) =>
    if Disco.isDisco pkt then .nothing
    else if pkt.head? = some Wg.msgInitiation then
      match Wg.consumeInitiation b.cr id.nodePriv id.nodePub pkt d.index d.ephPriv with
      | .ok (_, tun, _) => .handshake src tun
      | .error _ => .nothing
    else if pkt.head? = some Wg.msgTransport then .transport src pkt
    else .nothing

section

variable (b : Build) (id : Identity) (upgrade : Option Upgrade)

namespace State

/-- The handling of a frame does not touch the peers before it knows what the frame is. -/
theorem peers_upgrade (s : State) (src : Bytes 32) (d : Draw) :
    (s.upgrade b id upgrade src d).1.peers = s.peers := by
  unfold State.upgrade
  cases upgrade with
  | none => rfl
  | some up =>
    dsimp only
    split_ifs
    · rfl
    · rfl
    · rfl
    · rfl

/-- An insertion looks at the peers only. -/
theorem peers_insertPeer_congr {s t : State} (h : s.peers = t.peers) (src : Bytes 32)
    (p : DerpPeer) : (s.insertPeer src p).peers = (t.insertPeer src p).peers := by
  rw [insertPeer, insertPeer, h]

/-- A transport packet looks at the peers only. -/
theorem peers_handleTransport_congr {s t : State} (h : s.peers = t.peers) (src : Bytes 32)
    (pkt : List UInt8) (d : Draw) :
    (s.handleTransport b id src pkt d).1.peers = (t.handleTransport b id src pkt d).1.peers := by
  rw [handleTransport, handleTransport, h]
  cases t.peers.lookup src with
  | none => exact h
  | some p => rfl

/-- **What a frame does to the table**: a peer joins, or the time of a peer is set, or
nothing changes. -/
theorem handleFrame_peers (s : State) (typ : UInt8) (payload : List UInt8) (d : Draw) :
    (s.handleFrame b id upgrade typ payload d).1.peers =
      match heard b id typ payload d with
      | .nothing => s.peers
      | .handshake src tun => (s.insertPeer src ⟨tun, d.now, TcpServer.new b.route⟩).peers
      | .transport src pkt => (s.handleTransport b id src pkt d).1.peers := by
  unfold handleFrame heard
  cases Node.relayed typ payload with
  | none => rfl
  | some r =>
    obtain ⟨src, pkt⟩ := r
    dsimp only
    have hup := s.peers_upgrade b id upgrade src d
    by_cases hnil : pkt = []
    · subst hnil
      rw [if_pos rfl]
      rfl
    rw [if_neg hnil]
    by_cases hdisco : Disco.isDisco pkt = true
    · rw [if_pos hdisco, if_pos hdisco]
      exact hup
    rw [if_neg hdisco, if_neg hdisco]
    by_cases hinit : pkt.head? = some Wg.msgInitiation
    · rw [if_pos hinit, if_pos hinit]
      dsimp only
      rw [handleInit]
      cases Wg.consumeInitiation b.cr id.nodePriv id.nodePub pkt d.index d.ephPriv with
      | error _ => exact hup
      | ok r => exact peers_insertPeer_congr hup src _
    rw [if_neg hinit, if_neg hinit]
    by_cases htransport : pkt.head? = some Wg.msgTransport
    · rw [if_pos htransport, if_pos htransport]
      exact peers_handleTransport_congr b id hup src pkt d
    · rw [if_neg htransport, if_neg htransport]
      exact hup

/-! ## Joining -/

/-- The peer `old` goes: the table is full, and no peer was heard less recently. -/
structure Evicts (s : State) (old : Bytes 32) : Prop where
  full : maxPeers ≤ s.peers.size
  least : ∃ q, s.peers.lookup old = some q ∧
    ∀ k p, s.peers.lookup k = some p → q.lastMs ≤ p.lastMs

/-- Who is evicted was a peer. -/
theorem Evicts.mem {s : State} {old : Bytes 32} (h : s.Evicts old) : old ∈ s.peers := by
  obtain ⟨q, hq, -⟩ := h.least
  exact AList.lookup_isSome.mp (Option.isSome_iff_exists.mpr ⟨q, hq⟩)

/-- **A peer that joins** replaces its own entry, takes a free place, or takes the place of
the peer that was heard least recently. -/
theorem insertPeer_cases (s : State) (src : Bytes 32) (p : DerpPeer) :
    (src ∈ s.peers ∨ s.peers.size < maxPeers) ∧
        (s.insertPeer src p).peers = s.peers.insert src p ∨
      src ∉ s.peers ∧ ∃ old, s.Evicts old ∧
        (s.insertPeer src p).peers = (s.peers.erase old).insert src p := by
  unfold insertPeer
  dsimp only
  by_cases hfull : maxPeers ≤ s.peers.size ∧ src ∉ s.peers
  · right
    have hpos : 0 < s.peers.size := lt_of_lt_of_le (by decide) hfull.1
    obtain ⟨old, q, hmin, hq, hle⟩ := Table.exists_minOn DerpPeer.lastMs hpos
    refine ⟨hfull.2, old, ⟨hfull.1, q, hq, hle⟩, ?_⟩
    rw [if_pos hfull, hmin]
    rfl
  · left
    refine ⟨?_, by rw [if_neg hfull]⟩
    by_cases hsrc : src ∈ s.peers
    · exact .inl hsrc
    · exact .inr (by_contra fun hle => hfull ⟨Nat.le_of_not_lt hle, hsrc⟩)

/-- Who is inserted is a peer then. -/
theorem lookup_insertPeer_self (s : State) (src : Bytes 32) (p : DerpPeer) :
    (s.insertPeer src p).peers.lookup src = some p := by
  rcases s.insertPeer_cases src p with ⟨-, heq⟩ | ⟨-, old, -, heq⟩
  · rw [heq, AList.lookup_insert]
  · rw [heq, AList.lookup_insert]

/-- A peer that is still there when another one joins has the entry that it had. -/
theorem lookup_insertPeer_of_ne {s : State} {src k : Bytes 32} (hk : k ≠ src) {p q : DerpPeer}
    (hq : (s.insertPeer src p).peers.lookup k = some q) : s.peers.lookup k = some q := by
  rcases s.insertPeer_cases src p with ⟨-, heq⟩ | ⟨-, old, -, heq⟩
  · rwa [heq, AList.lookup_insert_ne hk] at hq
  · rw [heq, AList.lookup_insert_ne hk] at hq
    by_cases hold : k = old
    · rw [hold, AList.lookup_erase] at hq
      cases hq
    · rwa [AList.lookup_erase_ne hold] at hq

/-- **An insertion keeps the bound**: with the table full it takes one out first. -/
theorem size_insertPeer_le {s : State} (hs : s.peers.size ≤ maxPeers) (src : Bytes 32)
    (p : DerpPeer) : (s.insertPeer src p).peers.size ≤ maxPeers := by
  rcases s.insertPeer_cases src p with ⟨hroom, heq⟩ | ⟨hsrc, old, hevicts, heq⟩
  · rw [heq]
    by_cases hmem : src ∈ s.peers
    · rw [Table.size_insert_of_mem p hmem]
      exact hs
    · rw [Table.size_insert_of_notMem p hmem]
      exact hroom.resolve_left hmem
  · have herase := Table.size_erase_of_mem hevicts.mem
    have hnot : src ∉ s.peers.erase old := fun hmem => hsrc (AList.mem_erase.mp hmem).2
    rw [heq, Table.size_insert_of_notMem p hnot, herase]
    exact hs

/-! ## Transport packets and pauses -/

/-- A packet for a tunnel does not change when its peer was heard. -/
theorem lastMs_onInner (q : DerpPeer) (src : Bytes 32) (inner : List UInt8) (now : ℕ)
    (iss : UInt32) : (q.onInner b id src inner now iss).1.lastMs = q.lastMs := by
  unfold DerpPeer.onInner DerpPeer.handleInner
  split_ifs
  · split
    · rfl
    · rfl
  · split
    · rfl
    · rfl
  · split
    · rfl
    · rfl
  · split
    · rfl
    · rfl
  · rfl

/-- **A transport packet sets the time of its peer**, if there is one, and touches no other
peer. -/
theorem handleTransport_spec (s : State) (src : Bytes 32) (pkt : List UInt8) (d : Draw) :
    (∀ k, k ≠ src →
      (s.handleTransport b id src pkt d).1.peers.lookup k = s.peers.lookup k) ∧
    (s.handleTransport b id src pkt d).1.peers.size = s.peers.size ∧
    ∀ q, (s.handleTransport b id src pkt d).1.peers.lookup src = some q → q.lastMs = d.now := by
  unfold handleTransport
  cases hsrc : s.peers.lookup src with
  | none =>
    refine ⟨fun _ _ => rfl, rfl, fun q hq => ?_⟩
    rw [hsrc] at hq
    cases hq
  | some p =>
    dsimp only
    refine ⟨fun k hk => Table.lookup_modify_ne hk _ _, Table.size_modify _ _ _, fun q hq => ?_⟩
    rw [Table.lookup_modify_self, hsrc, Option.map_some, Option.some_inj] at hq
    rw [← hq]
    cases p.tun.decrypt b.cr pkt with
    | error _ => rfl
    | ok inner => exact lastMs_onInner b id _ src inner d.now d.iss

/-- A timer is not a sign of life. -/
theorem lastMs_tick (now : ℕ) (src : Bytes 32) (p : DerpPeer) :
    (p.tick b now src).1.lastMs = p.lastMs := by
  unfold DerpPeer.tick
  split_ifs
  · rfl
  · rfl

/-- The timers keep every peer and its time. -/
theorem lookup_idle (s : State) (now : ℕ) (k : Bytes 32) :
    (s.idle b now).1.peers.lookup k = (s.peers.lookup k).map fun p => (p.tick b now k).1 := by
  rw [idle, Table.lookup_filterMap, Option.map_eq_bind]
  rfl

/-- No peer is dropped while the relay is quiet. -/
theorem size_idle (s : State) (now : ℕ) : (s.idle b now).1.peers.size = s.peers.size :=
  Table.size_filterMap_eq fun _ _ _ h => by cases h

end State

/-! ## Runs -/

/-- What is known of the time when each peer was heard last, after one more event. -/
def hear (times : Bytes 32 → Option ℕ) : Event → Bytes 32 → Option ℕ
  | .frame typ payload d, k =>
    if (heard b id typ payload d).src? = some k then some d.now else times k
  | .idle _, k => times k
  | .reconnect, _ => none

/-- The time of the last frame of each peer, since the device is connected. -/
def lastHeard (es : List Event) : Bytes 32 → Option ℕ := es.foldl (hear b id) fun _ => none

/-- The table has its size, and an entry has the time of the last frame of its peer. -/
structure State.Kept (times : Bytes 32 → Option ℕ) (s : State) : Prop where
  size : s.peers.size ≤ maxPeers
  time : ∀ k p, s.peers.lookup k = some p → times k = some p.lastMs

/-- **A frame keeps the table**: whatever it is, and whoever sends it. -/
theorem State.Kept.handleFrame {times : Bytes 32 → Option ℕ} {s : State} (h : s.Kept times)
    (typ : UInt8) (payload : List UInt8) (d : Draw) :
    (s.handleFrame b id upgrade typ payload d).1.Kept
      (hear b id times (.frame typ payload d)) := by
  have hpeers := s.handleFrame_peers b id upgrade typ payload d
  cases hheard : heard b id typ payload d with
  | nothing =>
    rw [hheard] at hpeers
    refine ⟨hpeers ▸ h.size, fun k p hp => ?_⟩
    rw [hpeers] at hp
    rw [hear, hheard, if_neg (by rintro ⟨⟩)]
    exact h.time k p hp
  | handshake src tun =>
    rw [hheard] at hpeers
    dsimp only at hpeers
    refine ⟨hpeers ▸ size_insertPeer_le h.size src _, fun k p hp => ?_⟩
    rw [hpeers] at hp
    rw [hear, hheard, Heard.src?]
    by_cases hk : k = src
    · subst hk
      rw [lookup_insertPeer_self, Option.some_inj] at hp
      rw [if_pos rfl, ← hp]
    · rw [if_neg fun heq => hk (Option.some_inj.mp heq).symm]
      exact h.time k p (lookup_insertPeer_of_ne hk hp)
  | transport src pkt =>
    rw [hheard] at hpeers
    dsimp only at hpeers
    obtain ⟨hother, hsize, htime⟩ := s.handleTransport_spec b id src pkt d
    refine ⟨hpeers ▸ hsize ▸ h.size, fun k p hp => ?_⟩
    rw [hpeers] at hp
    rw [hear, hheard, Heard.src?]
    by_cases hk : k = src
    · subst hk
      rw [if_pos rfl, htime p hp]
    · rw [if_neg fun heq => hk (Option.some_inj.mp heq).symm]
      exact h.time k p (hother k hk ▸ hp)

/-- Quiet time keeps what is known of when a peer was last heard. -/
theorem State.Kept.idle {times : Bytes 32 → Option ℕ} {s : State} (h : s.Kept times) (now : ℕ) :
    (s.idle b now).1.Kept times := by
  refine ⟨s.size_idle b now ▸ h.size, fun k p hp => ?_⟩
  rw [lookup_idle, Option.map_eq_some_iff] at hp
  obtain ⟨q, hq, rfl⟩ := hp
  rw [lastMs_tick]
  exact h.time k q hq

/-- **Every run keeps the table**, and the times in it. -/
theorem kept_run {es : List Event} {s t : State} {times : Bytes 32 → Option ℕ}
    (h : s.Kept times) (hrun : run (step b id upgrade) s es = some t) :
    t.Kept (es.foldl (hear b id) times) := by
  induction es generalizing s times with
  | nil => exact Option.some_inj.mp hrun ▸ h
  | cons e es ih =>
    obtain ⟨s', hs', hrun'⟩ := run_cons_eq_some.mp hrun
    obtain rfl : (onEvent b id upgrade s e).1 = s' := Option.some_inj.mp hs'
    refine ih ?_ hrun'
    cases e with
    | frame typ payload d => exact h.handleFrame b id upgrade typ payload d
    | idle now => exact h.idle b now
    | reconnect =>
      refine ⟨Nat.zero_le _, fun k p hp => ?_⟩
      cases hp

/-! ### Who is dropped -/

/-- The peer `old` goes because of an event: a new peer has come with an initiation that is
accepted, the table was full, no peer was heard less recently than `old`, and every peer but
these two has the tunnel and the connection that it had. -/
structure Evicted (s : State) (e : Event) (s' : State) (old src : Bytes 32) : Prop where
  frame : ∃ typ payload d tun, e = .frame typ payload d ∧
    heard b id typ payload d = .handshake src tun
  new : src ∉ s.peers
  full : s.peers.size = maxPeers
  least : ∃ q, s.peers.lookup old = some q ∧
    ∀ k p, s.peers.lookup k = some p → q.lastMs ≤ p.lastMs
  others : ∀ k, k ≠ old → k ≠ src → s'.peers.lookup k = s.peers.lookup k

/-- A peer that is gone after an event of the connection was evicted by it. -/
theorem evicted_of_gone {s s' : State} (hsize : s.peers.size ≤ maxPeers) {e : Event}
    (he : e ≠ .reconnect) (hs' : step b id upgrade s e = some s') {old : Bytes 32}
    (hmem : old ∈ s.peers) (hgone : old ∉ s'.peers) : ∃ src, Evicted b id s e s' old src := by
  obtain rfl : (onEvent b id upgrade s e).1 = s' := Option.some_inj.mp hs'
  have hkeeps {t : Table (Bytes 32) DerpPeer} (h : (t.lookup old).isSome) : old ∈ t :=
    AList.lookup_isSome.mp h
  obtain ⟨q, hq⟩ := Option.isSome_iff_exists.mp (AList.lookup_isSome.mpr hmem)
  cases e with
  | reconnect => exact absurd rfl he
  -- a timer keeps every peer
  | idle now =>
    refine absurd (hkeeps ?_) hgone
    rw [onEvent, State.lookup_idle, hq]
    rfl
  | frame typ payload d =>
    rw [onEvent] at hgone ⊢
    have hpeers := s.handleFrame_peers b id upgrade typ payload d
    cases hheard : heard b id typ payload d with
    | nothing =>
      rw [hheard] at hpeers
      exact absurd (hpeers ▸ hmem) hgone
    -- so does a packet
    | transport src pkt =>
      rw [hheard] at hpeers
      dsimp only at hpeers
      refine absurd (hkeeps ?_) hgone
      rw [hpeers]
      by_cases hk : old = src
      · subst hk
        rw [State.handleTransport, hq]
        dsimp only
        rw [Table.lookup_modify_self, hq]
        rfl
      · rw [(s.handleTransport_spec b id src pkt d).1 old hk, hq]
        rfl
    | handshake src tun =>
      rw [hheard] at hpeers
      dsimp only at hpeers
      rcases s.insertPeer_cases src ⟨tun, d.now, TcpServer.new b.route⟩ with
        ⟨-, heq⟩ | ⟨hnew, least, hevicts, heq⟩
      · -- no peer goes when there is a place
        rw [hpeers, heq] at hgone
        exact absurd ((AList.mem_insert _).mpr (.inr hmem)) hgone
      · -- the least recent one goes, and no other
        rw [heq] at hpeers
        have hne : old ≠ src := fun h => hnew (h ▸ hmem)
        obtain rfl : old = least := by
          by_contra hk
          rw [hpeers] at hgone
          exact hgone ((AList.mem_insert _).mpr (.inr (AList.mem_erase.mpr ⟨hk, hmem⟩)))
        refine ⟨src, ⟨typ, payload, d, tun, rfl, hheard⟩, hnew, ?_, hevicts.least, ?_⟩
        · exact Nat.le_antisymm hsize hevicts.full
        · intro k hk hksrc
          rw [hpeers, AList.lookup_insert_ne hksrc, AList.lookup_erase_ne hk]

/-- **The table of the peers along every run.**  It never has more than `maxPeers` entries,
an entry has the time of the last frame of its peer, and a peer that goes while the
connection lasts is evicted by a new peer, as the one that was heard least recently, with
no change for the others. -/
theorem peers_bounded {es : List Event} {s : State}
    (hrun : run (step b id upgrade) start es = some s) :
    s.peers.size ≤ maxPeers ∧
    (∀ k p, s.peers.lookup k = some p → lastHeard b id es k = some p.lastMs) ∧
    ∀ e s', e ≠ .reconnect → step b id upgrade s e = some s' →
      ∀ old ∈ s.peers, old ∉ s'.peers → ∃ src, Evicted b id s e s' old src := by
  have hstart : start.Kept fun _ => none :=
    ⟨Nat.zero_le _, fun k p hp => by cases hp⟩
  have hkept := kept_run b id upgrade hstart hrun
  refine ⟨hkept.size, hkept.time, fun e s' he hs' old hmem hgone => ?_⟩
  exact evicted_of_gone b id upgrade hkept.size he hs' hmem hgone

end

/-! ### Five peers -/

open Node.NodeSession (alice alice_accepted)
open DataPlane (plainBuild device tunnelAt)

def drawAt (now : ℕ) : Draw := ⟨7, Wg.keyOf 4, zeros 24, zeros 24, now, 0⟩

/-- An initiation that is accepted, from the peer `n` at the time `now`. -/
def initiationOf (n : UInt8) (now : ℕ) : Event :=
  .frame Node.frameRecvPacket ((Wg.keyOf n).1 ++ alice.initiation) (drawAt now)

/-- A handshake of the example inserts its peer. -/
theorem onEvent_initiationOf (s : State) (n : UInt8) (now : ℕ) :
    (onEvent (plainBuild false) (device none) none s (initiationOf n now)).1 =
      s.insertPeer (Wg.keyOf n) ⟨tunnelAt 7, now, TcpServer.new none⟩ := by
  obtain ⟨resp, haccepted⟩ := alice_accepted 7
  have hconsume : Wg.consumeInitiation (plainBuild false).cr (device none).nodePriv
      (device none).nodePub alice.initiation (drawAt now).index (drawAt now).ephPriv =
        .ok (resp, tunnelAt 7, alice.key) := haccepted
  have hdisco : Disco.isDisco alice.initiation = false := by decide +kernel
  rw [initiationOf, onEvent, State.handleFrame_initiation hdisco hconsume]
  rfl

/-- The table after the peers `ns`, each one millisecond after the last one. -/
def joined (ns : List UInt8) : State :=
  ns.zipIdx.foldl
    (fun s e => s.insertPeer (Wg.keyOf e.1) ⟨tunnelAt 7, e.2, TcpServer.new none⟩) start

/-- The fifth peer takes the place of the first. -/
theorem peers_bounded_five : ∃ s s' src,
    run (step (plainBuild false) (device none) none) start
      [initiationOf 11 0, initiationOf 12 1, initiationOf 13 2, initiationOf 14 3] = some s ∧
    step (plainBuild false) (device none) none s (initiationOf 15 4) = some s' ∧
    Evicted (plainBuild false) (device none) s (initiationOf 15 4) s' (Wg.keyOf 11) src := by
  have hrun : run (step (plainBuild false) (device none) none) start
      [initiationOf 11 0, initiationOf 12 1, initiationOf 13 2, initiationOf 14 3] =
        some (joined [11, 12, 13, 14]) := by
    simp only [run_cons, run_nil, step, onEvent_initiationOf, Option.bind_some]
    rfl
  have hstep : step (plainBuild false) (device none) none (joined [11, 12, 13, 14])
      (initiationOf 15 4) = some (joined [11, 12, 13, 14, 15]) := by
    rw [step, onEvent_initiationOf]
    rfl
  obtain ⟨src, hevicted⟩ := (peers_bounded _ _ _ hrun).2.2 (initiationOf 15 4) _ (by rintro ⟨⟩)
    hstep (Wg.keyOf 11) (by decide) (by decide)
  exact ⟨_, _, src, hrun, hstep, hevicted⟩

end Derp
