/-
# The data plane on two cores

`process_packet`, which both threads of a `dualcore` build call: a transport packet is
handled in two sections under the lock, which copy the key of its tunnel and handle what
was decrypted, with the decryption between them; every other datagram is one section.

The threads do what `handle_packet` does on the datagrams one after the other, as long as a
decrypted packet still finds the key it was decrypted with and does not look like STUN
(`dualcore_refines`): the packet is then handled when its second section runs.
-/
import PySpell.Lib.Threads
import PySpell.TunnelTable

open Tcp Bytes Runs Threads

namespace DataPlane

/-- A datagram that was received. -/
structure Datagram where
  pkt : List UInt8
  src : SocketAddr
  d : Draw

namespace DualCore

/-- How far a thread has come in `process_packet`. -/
inductive Phase where
  | next
  /-- The key of the tunnel is copied. -/
  | copied (key : Bytes 32) (g : Datagram)
  /-- The packet is decrypted with the key. -/
  | opened (key : Bytes 32) (inner : List UInt8) (g : Datagram)

/-- A thread, with the datagrams that it is to receive. -/
structure Thread where
  phase : Phase
  received : List Datagram

/-- The datagram is decrypted without the lock. -/
def fastPath (pkt : List UInt8) : Bool := pkt.head? = some Wg.msgTransport && 16 ≤ pkt.length

section

variable (b : Build) (id : Identity) (targets : List Target) (tick : UInt32)

/-- `process_packet` up to where it next takes or leaves the lock. -/
def processPacket (s : State) (t : Thread) : Option (State × Thread × List Effect) :=
  match t.phase with
  | .next =>
    match t.received with
    | [] => none
    | g :: rest =>
      if fastPath g.pkt then
        match (s.tunnels.lookup (Wg.u32At g.pkt 4)).map fun e => e.tun.recvKey with
        | none => some (s, ⟨.next, rest⟩, [])
        | some key => some (s, ⟨.copied key g, rest⟩, [])
      else
        let (s, out) := s.handlePacket b id targets tick g.pkt g.src g.d
        some (s, ⟨.next, rest⟩, out)
  | .copied key g =>
    match Wg.decryptTransport b.cr key g.pkt with
    | none => some (s, ⟨.next, t.received⟩, [])
    | some inner => some (s, ⟨.opened key inner g, t.received⟩, [])
  | .opened _ inner g =>
    let (s, out) := s.handleDecrypted b id (Wg.u32At g.pkt 4) inner g.src g.d
    some (s, ⟨.next, t.received⟩, out)

/-- `handle_packet` on a datagram. -/
def handle (s : State) (g : Datagram) : State × List Effect :=
  s.handlePacket b id targets tick g.pkt g.src g.d

/-! ## When a packet is handled -/

/-- The datagrams that are still to be handled; one that does not decrypt is handled when
its key is copied. -/
def waiting (t : Thread) : List Datagram :=
  (match t.phase with
    | .next => []
    | .copied key g => if (Wg.decryptTransport b.cr key g.pkt).isSome then [g] else []
    | .opened _ _ g => [g]) ++ t.received

/-- The datagram that a thread has in hand is for the fast path. -/
def Sound (t : Thread) : Prop :=
  match t.phase with
  | .next => True
  | .copied _ g => fastPath g.pkt = true
  | .opened key inner g =>
    fastPath g.pkt = true ∧ Wg.decryptTransport b.cr key g.pkt = some inner

/-- A decrypted packet finds the key that it was decrypted with, if its tunnel is still
there, and does not look like STUN. -/
def Clean (s : State) (t : Thread) : Prop :=
  match t.phase with
  | .opened key _ g =>
    ∀ e, s.tunnels.lookup (Wg.u32At g.pkt 4) = some e →
      e.tun.recvKey = key ∧ Stun.isStun g.pkt = false
  | _ => True

end

end DualCore

namespace State

/-- A packet for the fast path, by the key of its tunnel. -/
theorem decrypt_fastPath (b : Build) (s : State) {pkt : List UInt8}
    (hfast : DualCore.fastPath pkt = true) :
    s.decrypt b pkt = (s.tunnels.lookup (Wg.u32At pkt 4)).bind fun e =>
      (Wg.decryptTransport b.cr e.tun.recvKey pkt).map fun inner => (Wg.u32At pkt 4, inner) := by
  have hlen : 16 ≤ pkt.length := of_decide_eq_true (Bool.and_eq_true_iff.mp hfast).2
  rw [decrypt, if_neg (by omega)]
  dsimp only
  congr 1
  funext e
  rw [Wg.decryptTransport_eq]

/-- A packet of the fast path is for WireGuard, or it is taken for STUN. -/
theorem handlePacket_fastPath (b : Build) (id : Identity) (targets : List Target) (s : State)
    (tick : UInt32) {pkt : List UInt8} (hfast : DualCore.fastPath pkt = true) (src : SocketAddr)
    (d : Draw) : s.handlePacket b id targets tick pkt src d =
      if Stun.isStun pkt then (s, []) else s.handleWgTransport b id pkt src d := by
  have hhead : pkt.head? = some Wg.msgTransport :=
    of_decide_eq_true (Bool.and_eq_true_iff.mp hfast).1
  have hdisco : Disco.isDisco pkt = false := by
    cases pkt with
    | nil => cases hhead
    | cons x rest =>
      obtain rfl := Option.some_inj.mp hhead
      exact Disco.isDisco_cons (by decide) rest
  cases hstun : Stun.isStun pkt with
  | true =>
    rw [handlePacket, hdisco, hstun, if_neg Bool.false_ne_true, if_pos rfl]
    rfl
  | false =>
    rw [handlePacket_transport hdisco hstun targets s tick src hhead d]
    rfl

/-- A packet that does not decrypt is dropped. -/
theorem handlePacket_of_decrypt_none {b : Build} {s : State} {pkt : List UInt8}
    (hfast : DualCore.fastPath pkt = true) (hdecrypt : s.decrypt b pkt = none) (id : Identity)
    (targets : List Target) (tick : UInt32) (src : SocketAddr) (d : Draw) :
    s.handlePacket b id targets tick pkt src d = (s, []) := by
  rw [handlePacket_fastPath b id targets s tick hfast, handleWgTransport, hdecrypt, ite_self]

end State

namespace DualCore

variable (b : Build) (id : Identity) (targets : List Target) (tick : UInt32)

/-- Between the sections a packet is still waiting, if its copy of the key opens it. -/
theorem waiting_copied (key : Bytes 32) (g : Datagram) (rest : List Datagram) :
    waiting b ⟨.copied key g, rest⟩ =
      (if (Wg.decryptTransport b.cr key g.pkt).isSome then [g] else []) ++ rest := rfl

/-! ### One section at a time -/

/-- The first section of a packet for the fast path. -/
theorem linear_copy {s s' : State} {g : Datagram} {rest : List Datagram} {t' : Thread}
    {out : List Effect} (hfast : fastPath g.pkt = true)
    (hsec : processPacket b id targets tick s ⟨.next, g :: rest⟩ = some (s', t', out)) :
    Sound b t' ∧ ((waiting b t').Perm (g :: rest) ∧ s' = s ∧ out = [] ∨
      (waiting b t') = rest ∧ handle b id targets tick s g = (s', out)) := by
  have hdecrypt := s.decrypt_fastPath b hfast
  rw [processPacket] at hsec
  dsimp only at hsec
  rw [if_pos hfast] at hsec
  cases he : s.tunnels.lookup (Wg.u32At g.pkt 4) with
  | none =>
    rw [he] at hsec hdecrypt
    cases hsec
    exact ⟨trivial, .inr ⟨rfl, State.handlePacket_of_decrypt_none hfast hdecrypt ..⟩⟩
  | some e =>
    rw [he] at hsec hdecrypt
    cases hsec
    refine ⟨hfast, ?_⟩
    cases hopen : Wg.decryptTransport b.cr e.tun.recvKey g.pkt with
    | none =>
      rw [Option.bind_some, hopen] at hdecrypt
      refine .inr ⟨?_, State.handlePacket_of_decrypt_none hfast hdecrypt ..⟩
      rw [waiting_copied, hopen]
      rfl
    | some inner =>
      refine .inl ⟨?_, rfl, rfl⟩
      rw [waiting_copied, hopen]
      exact .refl _

/-- The second section of a packet does what `handle_packet` does. -/
theorem handle_opened {s : State} {key : Bytes 32} {inner : List UInt8} {g : Datagram}
    (hfast : fastPath g.pkt = true) (hopen : Wg.decryptTransport b.cr key g.pkt = some inner)
    (hclean : ∀ e, s.tunnels.lookup (Wg.u32At g.pkt 4) = some e →
      e.tun.recvKey = key ∧ Stun.isStun g.pkt = false) :
    handle b id targets tick s g = s.handleDecrypted b id (Wg.u32At g.pkt 4) inner g.src g.d := by
  have hdecrypt := s.decrypt_fastPath b hfast
  cases he : s.tunnels.lookup (Wg.u32At g.pkt 4) with
  | none =>
    rw [he] at hdecrypt
    rw [handle, State.handlePacket_of_decrypt_none hfast hdecrypt, State.handleDecrypted, he]
  | some e =>
    obtain ⟨hkey, hstun⟩ := hclean e he
    rw [he, Option.bind_some, hkey, hopen] at hdecrypt
    rw [handle, State.handlePacket_fastPath b id targets s tick hfast, hstun,
      if_neg Bool.false_ne_true, State.handleWgTransport, hdecrypt]
    rfl

/-- **Every clean section handles one datagram, or none.** -/
theorem linear_processPacket : Linear (processPacket b id targets tick)
    (handle b id targets tick) (waiting b) (Sound b) Clean := by
  rintro s ⟨phase, received⟩ s' t' out hsound hclean hsec
  cases phase with
  | next =>
    cases received with
    | nil => cases hsec
    | cons g rest =>
      by_cases hfast : fastPath g.pkt = true
      · obtain ⟨hsound', hsilent | ⟨hwait, hop⟩⟩ := linear_copy b id targets tick hfast hsec
        · exact ⟨hsound', .inl hsilent⟩
        · exact ⟨hsound', .inr ⟨g, hwait ▸ .refl _, hop⟩⟩
      · rw [processPacket] at hsec
        dsimp only at hsec
        rw [if_neg hfast] at hsec
        cases hsec
        exact ⟨trivial, .inr ⟨g, .refl _, rfl⟩⟩
  | copied key g =>
    rw [processPacket] at hsec
    dsimp only at hsec
    cases hopen : Wg.decryptTransport b.cr key g.pkt with
    | none =>
      rw [hopen] at hsec
      cases hsec
      refine ⟨trivial, .inl ⟨?_, rfl, rfl⟩⟩
      rw [waiting_copied, hopen]
      exact .refl _
    | some inner =>
      rw [hopen] at hsec
      cases hsec
      refine ⟨⟨hsound, hopen⟩, .inl ⟨?_, rfl, rfl⟩⟩
      rw [waiting_copied, hopen]
      exact .refl _
  | opened key inner g =>
    cases hsec
    exact ⟨trivial, .inr ⟨g, .refl _,
      handle_opened b id targets tick hsound.1 hsound.2 hclean⟩⟩

/-! ## The refinement -/

/-- The two threads before they receive anything. -/
def init (s : State) (l r : List Datagram) : System State Thread Effect :=
  ⟨s, ⟨.next, l⟩, ⟨.next, r⟩, []⟩

/-- Both threads have handled all that they received. -/
def Done (x : System State Thread Effect) : Prop :=
  x.left = ⟨.next, []⟩ ∧ x.right = ⟨.next, []⟩

/-- **Two cores do what one does**: in every interleaving whose sections are clean, what
becomes of the state and what is sent is what `handle_packet` does on the datagrams one
after the other, in some order. -/
theorem dualcore_refines {s : State} {l r : List Datagram} {sched : List Side}
    {x : System State Thread Effect}
    (hclean : Along (System.step (processPacket b id targets tick))
      (fun x side => Clean x.shared (x.thread side)) (init s l r) sched)
    (hrun : run (System.step (processPacket b id targets tick)) (init s l r) sched = some x)
    (hdone : Done x) :
    ∃ order, order.Perm (l ++ r) ∧
      sequential (handle b id targets tick) s order = (x.shared, x.out) := by
  have hsound (received : List Datagram) : Sound b ⟨.next, received⟩ := trivial
  obtain ⟨order, hperm, hseq⟩ :=
    linearizable (linear_processPacket b id targets tick) (hsound l) (hsound r) hclean hrun
  rw [hdone.1, hdone.2] at hperm
  refine ⟨order, ?_, hseq⟩
  rwa [show waiting b ⟨.next, []⟩ ++ waiting b ⟨.next, []⟩ = [] from rfl, List.append_nil] at hperm

/-! ## One packet -/

section

variable {b id targets tick}
variable {s : State} {e : TunnelEntry} {t : Wg.Tunnel} {inner : List UInt8} {src : SocketAddr}
  {d : Draw}

/-- What a tunnel seals takes the fast path. -/
theorem fastPath_encrypt (cr : Crypto) (t : Wg.Tunnel) (inner : List UInt8) :
    fastPath (t.encrypt cr inner).2 = true := by
  have hlen := Wg.length_encrypt cr t inner
  have hhead : (t.encrypt cr inner).2.head? = some Wg.msgTransport := rfl
  rw [fastPath, hhead, decide_eq_true (by omega : 16 ≤ (t.encrypt cr inner).2.length),
    Bool.and_true]
  rfl

/-- The first section copies the key of the tunnel, and nothing else. -/
theorem copy_key {g : Datagram} (hfast : fastPath g.pkt = true)
    (he : s.tunnels.lookup (Wg.u32At g.pkt 4) = some e) (rest : List Datagram) :
    processPacket b id targets tick s ⟨.next, g :: rest⟩ =
      some (s, ⟨.copied e.tun.recvKey g, rest⟩, []) := by
  rw [processPacket]
  dsimp only
  rw [if_pos hfast, he]
  rfl

variable (hopen : b.cr.Opens) (hlookup : s.tunnels.lookup t.theirIndex = some e)
  (hkey : t.sendKey = e.tun.recvKey)

include hlookup in
/-- For a packet of a known tunnel. -/
theorem copy_packet (rest : List Datagram) :
    processPacket b id targets tick s ⟨.next, ⟨(t.encrypt b.cr inner).2, src, d⟩ :: rest⟩ =
      some (s, ⟨.copied e.tun.recvKey ⟨(t.encrypt b.cr inner).2, src, d⟩, rest⟩, []) :=
  copy_key (g := ⟨(t.encrypt b.cr inner).2, src, d⟩) (fastPath_encrypt b.cr t inner)
    ((congrArg s.tunnels.lookup (Wg.u32At_encrypt b.cr t inner)).trans hlookup) rest

include hopen hkey in
/-- Between the sections the packet is opened with the copy, without the lock. -/
theorem open_packet (rest : List Datagram) :
    processPacket b id targets tick s
        ⟨.copied e.tun.recvKey ⟨(t.encrypt b.cr inner).2, src, d⟩, rest⟩ =
      some (s, ⟨.opened e.tun.recvKey (Wg.pad16 inner) ⟨(t.encrypt b.cr inner).2, src, d⟩, rest⟩,
        []) := by
  rw [processPacket]
  dsimp only
  rw [Wg.decryptTransport_eq, Wg.decrypt_encrypt b.cr hopen hkey]
  rfl

/-- The second section handles what was opened, in the state as it is then. -/
theorem handle_packet (key : Bytes 32) (rest : List Datagram) :
    processPacket b id targets tick s
        ⟨.opened key (Wg.pad16 inner) ⟨(t.encrypt b.cr inner).2, src, d⟩, rest⟩ =
      some ((s.handleDecrypted b id t.theirIndex (Wg.pad16 inner) src d).1, ⟨.next, rest⟩,
        (s.handleDecrypted b id t.theirIndex (Wg.pad16 inner) src d).2) := by
  rw [processPacket]
  dsimp only
  rw [Wg.u32At_encrypt]

include hopen hlookup hkey

variable (id targets tick inner src d)

/-- One thread handles a packet, while the other waits. -/
theorem run_packet : run (System.step (processPacket b id targets tick))
    (init s [⟨(t.encrypt b.cr inner).2, src, d⟩] []) [.left, .left, .left] =
      some ⟨(s.handleDecrypted b id t.theirIndex (Wg.pad16 inner) src d).1, ⟨.next, []⟩,
        ⟨.next, []⟩, (s.handleDecrypted b id t.theirIndex (Wg.pad16 inner) src d).2⟩ := by
  rw [init, run_cons, System.step, copy_packet hlookup, Option.map_some, Option.bind_some, run_cons,
    System.step, open_packet hopen hkey, Option.map_some, Option.bind_some, run_cons, System.step,
    handle_packet, Option.map_some, Option.bind_some, run_nil]
  rfl

end

/-! ## Two packets at once -/

section

variable {b id targets tick}
variable {s : State} {e : TunnelEntry} {t u : Wg.Tunnel} {src src' : SocketAddr} {d d' : Draw}

/-- A keepalive only moves its tunnel. -/
theorem lookup_handleDecrypted_nil {i : UInt32} (hlookup : s.tunnels.lookup i = some e) :
    (s.handleDecrypted b id i (Wg.pad16 []) src d).1.tunnels.lookup i =
      some { e with addr := src } := by
  rw [State.handleDecrypted, hlookup]
  dsimp only
  rw [if_pos (show Wg.pad16 [] = [] from rfl), Table.lookup_modify_self, hlookup]
  rfl

variable (hopen : b.cr.Opens) (hlookup : s.tunnels.lookup t.theirIndex = some e)
  (htkey : t.sendKey = e.tun.recvKey) (hukey : u.sendKey = e.tun.recvKey)
  (hindex : u.theirIndex = t.theirIndex)

/-- Both threads copy the key before either decrypts, and the second packet overtakes the
first. -/
def overtaken : List Side := [.left, .right, .left, .right, .right, .left]

variable (id targets tick src src' d d')

include hopen hlookup htkey hukey hindex

/-- The two threads of the example come to an end, in the order in which one overtakes the
other. -/
theorem run_packets : ∃ x,
    run (System.step (processPacket b id targets tick))
      (init s [⟨(t.encrypt b.cr []).2, src, d⟩] [⟨(u.encrypt b.cr []).2, src', d'⟩]) overtaken =
        some x ∧ Done x := by
  have hulookup : s.tunnels.lookup u.theirIndex = some e := hindex ▸ hlookup
  obtain ⟨r, hr⟩ : ∃ r, r = s.handleDecrypted b id u.theirIndex (Wg.pad16 []) src' d' := ⟨_, rfl⟩
  obtain ⟨l, hl⟩ : ∃ l, l = r.1.handleDecrypted b id t.theirIndex (Wg.pad16 []) src d := ⟨_, rfl⟩
  refine ⟨⟨l.1, ⟨.next, []⟩, ⟨.next, []⟩, r.2 ++ l.2⟩, ?_, rfl, rfl⟩
  rw [init, overtaken, run_cons, System.step, copy_packet hlookup, Option.map_some,
    Option.bind_some, run_cons, System.step, copy_packet hulookup, Option.map_some,
    Option.bind_some, run_cons, System.step, open_packet hopen htkey, Option.map_some,
    Option.bind_some, run_cons, System.step, open_packet hopen hukey, Option.map_some,
    Option.bind_some, run_cons, System.step, handle_packet, Option.map_some, Option.bind_some,
    run_cons, System.step, handle_packet, Option.map_some, Option.bind_some, run_nil, hl, hr]
  rfl

/-- Their sections are clean when the packets do not look like STUN: the key of the tunnel
is still the same after the other packet has moved it. -/
theorem clean_packets (hstun : Tcp.u32At (Wg.leU32 t.theirIndex) 0 ≠ Stun.magicCookie) :
    Along (System.step (processPacket b id targets tick))
      (fun x side => Clean x.shared (x.thread side))
      (init s [⟨(t.encrypt b.cr []).2, src, d⟩] [⟨(u.encrypt b.cr []).2, src', d'⟩])
      overtaken := by
  have hulookup : s.tunnels.lookup u.theirIndex = some e := hindex ▸ hlookup
  refine ⟨trivial, fun x hx => ?_⟩
  rw [init, System.step, copy_packet hlookup, Option.map_some] at hx
  obtain rfl := Option.some_inj.mp hx
  refine ⟨trivial, fun x hx => ?_⟩
  rw [System.step, copy_packet hulookup, Option.map_some] at hx
  obtain rfl := Option.some_inj.mp hx
  refine ⟨trivial, fun x hx => ?_⟩
  rw [System.step, open_packet hopen htkey, Option.map_some] at hx
  obtain rfl := Option.some_inj.mp hx
  refine ⟨trivial, fun x hx => ?_⟩
  rw [System.step, open_packet hopen hukey, Option.map_some] at hx
  obtain rfl := Option.some_inj.mp hx
  refine ⟨fun e' he' => ?_, fun x hx => ?_⟩
  · dsimp only at he'
    rw [Wg.u32At_encrypt, hulookup] at he'
    obtain rfl := Option.some_inj.mp he'
    refine ⟨rfl, ?_⟩
    dsimp only
    rw [State.isStun_encrypt, hindex, decide_eq_false hstun]
  · rw [System.step, handle_packet, Option.map_some] at hx
    obtain rfl := Option.some_inj.mp hx
    refine ⟨fun e' he' => ?_, fun _ _ => trivial⟩
    dsimp only at he'
    rw [Wg.u32At_encrypt, hindex, lookup_handleDecrypted_nil hlookup] at he'
    obtain rfl := Option.some_inj.mp he'
    refine ⟨rfl, ?_⟩
    dsimp only
    rw [State.isStun_encrypt, decide_eq_false hstun]

end

/-! ## A tunnel whose index looks like STUN -/

open Node.NodeSession (alice peerEnd peerEnd_sendKey peerEnd_theirIndex)

/-- The datagram that the peer sends in its tunnel, from its second port. -/
def keepalive (index : UInt32) : Datagram :=
  ⟨((peerEnd (tunnelAt index) index).encrypt Crypto.standard []).2, portOf 2, draw 0⟩

/-- The state after the handshake of the peer. -/
def afterHandshake (index : UInt32) : State :=
  emptyShared.st.insertTunnel (plainBuild false) index (tunnelAt index) (portOf 1) alice.key

/-- The index whose bytes are the magic cookie of STUN. -/
def stunIndex : UInt32 := 0x42A41221

/-- The next datagram in its tunnel, from its third port. -/
def nextKeepalive (index : UInt32) : Datagram :=
  ⟨(((peerEnd (tunnelAt index) index).encrypt Crypto.standard []).1.encrypt Crypto.standard []).2,
    portOf 3, draw 0⟩

/-- Two packets of the peer on two cores at once: each core copies the key before the other
decrypts, and the packet that came last is handled first. -/
theorem dualcore_refines_keepalive : ∃ x,
    run (System.step (processPacket (plainBuild false) (device none) [] 0))
      (init (afterHandshake 7) [keepalive 7] [nextKeepalive 7]) overtaken = some x ∧
    ∃ order, order.Perm ([keepalive 7] ++ [nextKeepalive 7]) ∧
      sequential (handle (plainBuild false) (device none) [] 0) (afterHandshake 7) order =
        (x.shared, x.out) := by
  obtain ⟨e, he, htun, -⟩ := State.exists_lookup_insertTunnel (plainBuild false) emptyShared.st 7
    (tunnelAt 7) (portOf 1) alice.key
  rw [← afterHandshake] at he
  obtain ⟨t, ht⟩ : ∃ t, t = peerEnd (tunnelAt 7) 7 := ⟨_, rfl⟩
  have hindex : t.theirIndex = 7 := by rw [ht, peerEnd_theirIndex]
  have hkey : t.sendKey = e.tun.recvKey := by rw [ht, htun, peerEnd_sendKey]
  have hlookup : (afterHandshake 7).tunnels.lookup t.theirIndex = some e := by rwa [hindex]
  have hopen : (plainBuild false).cr.Opens := Crypto.standard_opens
  have hstun : Tcp.u32At (Wg.leU32 t.theirIndex) 0 ≠ Stun.magicCookie := by
    rw [hindex]
    decide
  rw [keepalive, nextKeepalive, ← ht, ← plainBuild_cr false]
  -- the second packet is sealed by the tunnel as the first has left it
  obtain ⟨x, hrun, hdone⟩ := run_packets (u := (t.encrypt (plainBuild false).cr []).1)
    (device none) [] 0 (portOf 2) (portOf 3) (draw 0) (draw 0) hopen hlookup hkey hkey rfl
  have hclean := clean_packets (u := (t.encrypt (plainBuild false).cr []).1)
    (device none) [] 0 (portOf 2) (portOf 3) (draw 0) (draw 0) hopen hlookup hkey hkey rfl hstun
  exact ⟨x, hrun, dualcore_refines (plainBuild false) (device none) [] 0 hclean hrun hdone⟩

/-- **A packet of a tunnel whose index looks like STUN** moves the tunnel to its sender on two
cores, and is dropped on one. -/
theorem dualcore_takes_stun : ∃ x,
    run (System.step (processPacket (plainBuild false) (device none) [] 0))
      (init (afterHandshake stunIndex) [keepalive stunIndex] []) [.left, .left, .left] = some x ∧
    Done x ∧
    ¬ ∃ order, order.Perm ([keepalive stunIndex] ++ []) ∧
      sequential (handle (plainBuild false) (device none) [] 0) (afterHandshake stunIndex) order =
        (x.shared, x.out) := by
  obtain ⟨e, he, htun, haddr⟩ := State.exists_lookup_insertTunnel (plainBuild false)
    emptyShared.st stunIndex (tunnelAt stunIndex) (portOf 1) alice.key
  rw [← afterHandshake] at he
  obtain ⟨t, ht⟩ : ∃ t, t = peerEnd (tunnelAt stunIndex) stunIndex := ⟨_, rfl⟩
  have hindex : t.theirIndex = stunIndex := by rw [ht, peerEnd_theirIndex]
  have hkey : t.sendKey = e.tun.recvKey := by rw [ht, htun, peerEnd_sendKey]
  have hlookup : (afterHandshake stunIndex).tunnels.lookup t.theirIndex = some e := by rwa [hindex]
  have hopen : (plainBuild false).cr.Opens := Crypto.standard_opens
  have hstun : Stun.isStun (t.encrypt (plainBuild false).cr []).2 = true := by
    rw [State.isStun_encrypt, hindex]
    decide
  rw [keepalive, ← ht, ← plainBuild_cr false]
  refine ⟨_, run_packet (device none) [] 0 [] (portOf 2) (draw 0) hopen hlookup hkey,
    ⟨rfl, rfl⟩, ?_⟩
  rintro ⟨order, hperm, hseq⟩
  obtain rfl := List.perm_singleton.mp hperm
  -- one core leaves the tunnel where it is
  have hdropped : (afterHandshake stunIndex).handlePacket (plainBuild false) (device none) [] 0
      (t.encrypt (plainBuild false).cr []).2 (portOf 2) (draw 0) =
        (afterHandshake stunIndex, []) := by
    rw [State.handlePacket_fastPath _ _ _ _ _ (fastPath_encrypt _ t []), hstun, if_pos rfl]
  have hmem : stunIndex ∈ (afterHandshake stunIndex).tunnels :=
    AList.lookup_isSome.mp (Option.isSome_of_eq_some he)
  have hmoved := State.addrOf_handleDecrypted (plainBuild false) (device none) hmem (Wg.pad16 [])
    (portOf 2) (draw 0) stunIndex
  have hstays : (afterHandshake stunIndex).addrOf stunIndex = some (portOf 1) := by
    rw [State.addrOf, he, Option.map_some, haddr]
  rw [sequential_singleton, handle, hdropped] at hseq
  have haddrs := congrArg (fun p : State × List Effect => p.1.addrOf stunIndex) hseq
  dsimp only at haddrs
  rw [hstays, hindex, hmoved, if_pos rfl] at haddrs
  exact absurd (Option.some_inj.mp haddrs) (by decide)

end DualCore

end DataPlane
