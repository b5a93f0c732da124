/-
# The tunnel table along a run

Three properties of the tables and, for each, the datagrams on which it depends: the bound
on tunnels and handshakes (initiations are accepted without it), one tunnel for each address
(a tunnel that follows its peer may come to the address of another), and learned routes
that lead to tunnels (a tunnel that takes the place of another leaves its routes behind).

A response that is refused touches no tunnel, but the handshake that it names is given up
(`bad_response`); the next PONG starts another.
-/
import PySpell.DataPlaneSteps
import PySpell.Node

open Tcp Bytes Runs

namespace DataPlane

namespace State

/-! ## A tunnel takes the place of others -/

section Tunneled

variable {s s' : State} {ourIndex : UInt32} {src : SocketAddr}

/-- The addresses after a handshake: the new one, and the others that are not at it. -/
theorem Tunneled.addrOf_eq (h : Tunneled s ourIndex src s') (j : UInt32) :
    s'.addrOf j = if j = ourIndex then some src else (s.addrOf j).filter (· ≠ src) := by
  obtain ⟨e, haddr, -, htun⟩ := h.tunnels
  rw [addrOf, addrOf, htun]
  by_cases hj : j = ourIndex
  · rw [if_pos hj, hj, AList.lookup_insert, ← haddr]
    rfl
  · rw [if_neg hj, AList.lookup_insert_ne hj, Table.retain, Table.lookup_filterMap]
    cases s.tunnels.lookup j with
    | none => rfl
    | some e' =>
      show Option.map TunnelEntry.addr (if decide (e'.addr ≠ src) = true then some e' else none) =
        Option.filter _ (some e'.addr)
      rw [Option.filter_some, apply_ite (Option.map TunnelEntry.addr)]
      rfl

/-- The new tunnel is in the table. -/
theorem Tunneled.mem (h : Tunneled s ourIndex src s') : ourIndex ∈ s'.tunnels := by
  obtain ⟨e, -, -, htun⟩ := h.tunnels
  rw [htun]
  exact (AList.mem_insert _).mpr (.inl rfl)

/-- It makes the table longer by one at most. -/
theorem Tunneled.size_le (h : Tunneled s ourIndex src s') :
    s'.tunnels.size ≤ s.tunnels.size + 1 := by
  obtain ⟨e, -, -, htun⟩ := h.tunnels
  have hretain : (s.tunnels.retain fun e => e.addr ≠ src).size ≤ s.tunnels.size :=
    Table.size_filterMap_le _ _
  rw [htun]
  by_cases hmem : ourIndex ∈ s.tunnels.retain fun e => e.addr ≠ src
  · rw [Table.size_insert_of_mem e hmem]
    omega
  · rw [Table.size_insert_of_notMem e hmem]
    omega

/-- The table grows exactly if neither the index nor the address has a tunnel. -/
theorem Tunneled.size_lt_iff (h : Tunneled s ourIndex src s') :
    s.tunnels.size < s'.tunnels.size ↔ ourIndex ∉ s.tunnels ∧ ∀ j, s.addrOf j ≠ some src := by
  obtain ⟨e, -, -, htun⟩ := h.tunnels
  obtain ⟨r, hr⟩ : ∃ r, r = s.tunnels.retain fun e => e.addr ≠ src := ⟨_, rfl⟩
  have hle : r.size ≤ s.tunnels.size := hr ▸ Table.size_filterMap_le _ _
  -- what is dropped has the address
  have hdrop : r.size < s.tunnels.size ↔ ∃ j, s.addrOf j = some src := by
    rw [hr, Table.size_retain_lt_iff, ← any_addr, Table.any_eq_true]
    simp only [ne_eq, decide_not, Bool.not_eq_false']
  have hmem : ourIndex ∈ r → ourIndex ∈ s.tunnels := by
    intro hi
    obtain ⟨e', he'⟩ := Option.isSome_iff_exists.mp (AList.lookup_isSome.mpr hi)
    rw [hr] at he'
    exact AList.lookup_isSome.mp (Option.isSome_of_eq_some (Table.lookup_retain.mp he').1)
  have hkeep : (∀ j, s.addrOf j ≠ some src) → ourIndex ∈ s.tunnels → ourIndex ∈ r := by
    intro hno hi
    obtain ⟨e', he'⟩ := Option.isSome_iff_exists.mp (AList.lookup_isSome.mpr hi)
    have hne : e'.addr ≠ src := fun heq => hno ourIndex (by rw [addrOf, he', Option.map_some, heq])
    have hlookup : r.lookup ourIndex = some e' :=
      hr ▸ Table.lookup_retain.mpr ⟨he', decide_eq_true hne⟩
    exact AList.lookup_isSome.mp (Option.isSome_of_eq_some hlookup)
  rw [← not_exists, ← hdrop, htun, ← hr]
  rw [← not_exists, ← hdrop] at hkeep
  by_cases hi : ourIndex ∈ r
  · have hin : ourIndex ∈ s.tunnels := hmem hi
    rw [Table.size_insert_of_mem e hi]
    constructor
    · intro hlt
      omega
    · exact fun hand => absurd hin hand.1
  · rw [Table.size_insert_of_notMem e hi]
    constructor
    · intro hlt
      have hnot : ¬ r.size < s.tunnels.size := by omega
      exact ⟨fun hin => hi (hkeep hnot hin), hnot⟩
    · rintro ⟨-, hnot⟩
      omega

end Tunneled

/-! ## The bound -/

/-- Tunnels and handshakes are at most `MAX_TUNNELS`. -/
def Capped (s : State) : Prop := s.tunnels.size + s.pending.size ≤ maxTunnels

/-- An initiation takes the place of a tunnel, or there is room for one more. -/
def HasRoom (s : State) : Accepted → Prop
  | .initiation ourIndex src =>
    ourIndex ∈ s.tunnels ∨ (∃ j, s.addrOf j = some src) ∨
      s.tunnels.size + s.pending.size < maxTunnels
  | _ => True

/-- A tunnel that moves is still one tunnel. -/
theorem size_moved {s s' : State} {ourIndex : UInt32} {src : SocketAddr}
    (hmem : ourIndex ∈ s.tunnels)
    (haddr : ∀ i, s'.addrOf i = if i = ourIndex then some src else s.addrOf i) :
    s'.tunnels.size = s.tunnels.size := by
  apply Table.size_eq_of_mem_iff
  intro i
  rw [← not_iff_not, ← addrOf_eq_none, ← addrOf_eq_none, haddr]
  by_cases hi : i = ourIndex
  · rw [if_pos hi, hi, addrOf_eq_none]
    exact iff_of_false (Option.some_ne_none src) (not_not.mpr hmem)
  · rw [if_neg hi]

/-- Only an initiation can break the bound. -/
theorem capped_change {s s' : State} {a : Option Accepted} (h : Change s a s') (hs : s.Capped) :
    s'.Capped ↔ ∀ c, a = some c → s.HasRoom c := by
  unfold Capped at *
  cases h with
  | kept hsize haddr =>
    rw [size_eq_of_addrOf haddr]
    exact iff_of_true (by omega) nofun
  | started hroom hsize haddr =>
    rw [size_eq_of_addrOf haddr]
    exact iff_of_true (by omega) nofun
  | @initiated ourIndex src _ hpending htun =>
    have hiff := htun.size_lt_iff
    have hle := htun.size_le
    rw [hpending]
    constructor
    · rintro hcap c hc
      obtain rfl := Option.some_inj.mp hc
      by_contra hno
      obtain ⟨hi, haddr, hroom⟩ : ourIndex ∉ s.tunnels ∧ (∀ j, s.addrOf j ≠ some src) ∧
          ¬ s.tunnels.size + s.pending.size < maxTunnels := by
        simpa only [HasRoom, not_or, not_exists] using hno
      have hlt := hiff.mpr ⟨hi, haddr⟩
      omega
    · intro hroom
      rcases hroom _ rfl with hi | ⟨j, hj⟩ | hroom
      · have hnot : ¬ s.tunnels.size < s'.tunnels.size := fun hlt => (hiff.mp hlt).1 hi
        omega
      · have hnot : ¬ s.tunnels.size < s'.tunnels.size := fun hlt => (hiff.mp hlt).2 j hj
        omega
      · omega
  | completed hsize htun =>
    have hle := htun.size_le
    refine iff_of_true (by omega) fun c hc => ?_
    obtain rfl := Option.some_inj.mp hc
    trivial
  | moved hmem hpending haddr =>
    rw [size_moved hmem haddr, hpending]
    refine iff_of_true hs fun c hc => ?_
    obtain rfl := Option.some_inj.mp hc
    trivial

/-! ## One tunnel for each address -/

/-- No two tunnels have the same address. -/
def OnePerAddress (s : State) : Prop :=
  ∀ i j src, s.addrOf i = some src → s.addrOf j = some src → i = j

/-- A tunnel does not move to the address of another. -/
def StaysApart (s : State) : Accepted → Prop
  | .transport ourIndex _ src => ∀ j, j ≠ ourIndex → s.addrOf j ≠ some src
  | _ => True

/-- A handshake keeps the tunnels at different addresses: those at its own are removed for it. -/
theorem Tunneled.onePerAddress {s s' : State} {ourIndex : UInt32} {src : SocketAddr}
    (h : Tunneled s ourIndex src s') (hs : s.OnePerAddress) : s'.OnePerAddress := by
  -- the other tunnels with an address have another one than `src`
  have hother (i : UInt32) (a : SocketAddr) (hi : s'.addrOf i = some a) :
      i = ourIndex ∧ a = src ∨ i ≠ ourIndex ∧ a ≠ src ∧ s.addrOf i = some a := by
    rw [h.addrOf_eq] at hi
    split_ifs at hi with heq
    · exact .inl ⟨heq, (Option.some_inj.mp hi).symm⟩
    · obtain ⟨ha, hne⟩ := Option.filter_eq_some_iff.mp hi
      exact .inr ⟨heq, of_decide_eq_true hne, ha⟩
  intro i j a hi hj
  rcases hother i a hi with ⟨rfl, rfl⟩ | ⟨-, hne, hi'⟩
  · rcases hother j a hj with ⟨rfl, -⟩ | ⟨-, hne, -⟩
    · rfl
    · exact absurd rfl hne
  · rcases hother j a hj with ⟨-, rfl⟩ | ⟨-, -, hj'⟩
    · exact absurd rfl hne
    · exact hs i j a hi' hj'

/-- Only a tunnel that moves can come to the address of another. -/
theorem onePerAddress_change {s s' : State} {a : Option Accepted} (h : Change s a s')
    (hs : s.OnePerAddress) : s'.OnePerAddress ↔ ∀ c, a = some c → s.StaysApart c := by
  cases h with
  | kept _ haddr =>
    refine iff_of_true ?_ nofun
    rwa [OnePerAddress, haddr]
  | started _ _ haddr =>
    refine iff_of_true ?_ nofun
    rwa [OnePerAddress, haddr]
  | initiated _ htun =>
    refine iff_of_true (htun.onePerAddress hs) fun c hc => ?_
    obtain rfl := Option.some_inj.mp hc
    trivial
  | completed _ htun =>
    refine iff_of_true (htun.onePerAddress hs) fun c hc => ?_
    obtain rfl := Option.some_inj.mp hc
    trivial
  | @moved ourIndex inner src _ hmem _ haddr =>
    constructor
    · intro hone c hc
      obtain rfl := Option.some_inj.mp hc
      intro j hj hsrc
      refine hj (hone j ourIndex src ?_ ?_)
      · rw [haddr, if_neg hj, hsrc]
      · rw [haddr, if_pos rfl]
    · intro hapart i j a hi hj
      have hapart' : ∀ j, j ≠ ourIndex → s.addrOf j ≠ some src := hapart _ rfl
      rw [haddr] at hi hj
      split_ifs at hi hj with hi' hj' hj'
      · rw [hi', hj']
      · exact absurd (hj.trans hi.symm) (hapart' j hj')
      · exact absurd (hi.trans hj.symm) (hapart' i hi')
      · exact hs i j a hi hj

/-- No pending handshake is for an address that has a tunnel. -/
def Settled (s : State) : Prop :=
  ∀ key p i, s.pending.lookup key = some p → s.addrOf i ≠ some p.addr

/-- A handshake that is tried again goes to the same address, where no tunnel came up
meanwhile. -/
theorem retry_some {tunnels : Table UInt32 TunnelEntry} {tick : UInt32} {p p' : Pending}
    (h : (p.retry tunnels tick).1 = some p') :
    p'.addr = p.addr ∧ tunnels.any (fun e => e.addr = p.addr) = false := by
  unfold Pending.retry at h
  by_cases hany : tunnels.any (fun e => e.addr = p.addr) = true
  · rw [if_pos hany] at h
    cases h
  rw [if_neg hany] at h
  refine ⟨?_, Bool.eq_false_of_not_eq_true hany⟩
  split_ifs at h
  · obtain rfl := Option.some_inj.mp h
    rfl
  · obtain rfl := Option.some_inj.mp h
    rfl

/-- A pass over the pending handshakes drops those for an address with a tunnel. -/
theorem settled_retryPending (tick : UInt32) (s : State) : (s.retryPending tick).1.Settled := by
  intro key p i hp hi
  obtain ⟨p', -, hretry⟩ : ∃ p', s.pending.lookup key = some p' ∧
      (p'.retry s.tunnels tick).1 = some p := by
    rwa [retryPending, Table.lookup_filterMap, Option.bind_eq_some_iff] at hp
  obtain ⟨haddr, hany⟩ := retry_some hretry
  have htrue : s.tunnels.any (fun e => e.addr = p'.addr) = true :=
    any_addr.mpr ⟨i, haddr ▸ hi⟩
  rw [htrue] at hany
  cases hany

/-! ## Routes -/

/-- Every learned route leads to a tunnel. -/
def RoutesLive (s : State) : Prop := ∀ ip idx, s.tsRoutes.lookup ip = some idx → idx ∈ s.tunnels

/-- Routes are alive by the addresses of their tunnels alone. -/
theorem RoutesLive.of_addrOf {s s' : State} (h : s.RoutesLive) (haddr : s'.addrOf = s.addrOf)
    (hroutes : s'.tsRoutes = s.tsRoutes) : s'.RoutesLive := by
  intro ip idx hip
  rw [hroutes] at hip
  exact (mem_iff_of_addrOf haddr idx).mpr (h ip idx hip)

/-- A new tunnel does not take the place of one that a route leads to. -/
def KeepsRoutes (s : State) : Accepted → Prop
  | .initiation ourIndex src | .response _ ourIndex src =>
    ∀ ip idx, s.tsRoutes.lookup ip = some idx → idx = ourIndex ∨ s.addrOf idx ≠ some src
  | .transport .. => True

/-- **A handshake keeps the routes alive** exactly if none leads to a tunnel that it replaces. -/
theorem Tunneled.routesLive_iff {s s' : State} {ourIndex : UInt32} {src : SocketAddr}
    (h : Tunneled s ourIndex src s') (hs : s.RoutesLive) :
    s'.RoutesLive ↔
      ∀ ip idx, s.tsRoutes.lookup ip = some idx → idx = ourIndex ∨ s.addrOf idx ≠ some src := by
  have hmem (idx : UInt32) (hidx : idx ∈ s.tunnels) :
      idx ∈ s'.tunnels ↔ idx = ourIndex ∨ s.addrOf idx ≠ some src := by
    obtain ⟨a, ha⟩ := Option.ne_none_iff_exists'.mp (addrOf_eq_none.not_left.mpr hidx)
    rw [← not_iff_not, ← addrOf_eq_none, h.addrOf_eq, not_or, not_not, ha]
    by_cases heq : idx = ourIndex
    · rw [if_pos heq]
      exact iff_of_false (Option.some_ne_none src) fun hand => hand.1 heq
    · rw [if_neg heq, Option.filter_some]
      by_cases hsrc : a = src
      · rw [if_neg (by simpa using hsrc), hsrc]
        exact iff_of_true rfl ⟨heq, rfl⟩
      · rw [if_pos (by simpa using hsrc)]
        exact iff_of_false (Option.some_ne_none a) fun hand => hsrc (Option.some_inj.mp hand.2)
  constructor
  · intro hlive ip idx hip
    exact (hmem idx (hs ip idx hip)).mp (hlive ip idx (h.tsRoutes ▸ hip))
  · intro hkeep ip idx hip
    rw [h.tsRoutes] at hip
    exact (hmem idx (hs ip idx hip)).mpr (hkeep ip idx hip)

/-- Only a handshake can break a route. -/
theorem routesLive_change {s s' : State} {a : Option Accepted} (h : Change s a s')
    (hs : s.RoutesLive) : s'.RoutesLive ↔ ∀ c, a = some c → s.KeepsRoutes c := by
  cases h with
  | kept _ haddr hroutes => exact iff_of_true (hs.of_addrOf haddr hroutes) nofun
  | started _ _ haddr hroutes => exact iff_of_true (hs.of_addrOf haddr hroutes) nofun
  | initiated _ htun =>
    rw [htun.routesLive_iff hs]
    constructor
    · intro hkeep c hc
      obtain rfl := Option.some_inj.mp hc
      exact hkeep
    · exact fun hkeep => hkeep _ rfl
  | completed _ htun =>
    rw [htun.routesLive_iff hs]
    constructor
    · intro hkeep c hc
      obtain rfl := Option.some_inj.mp hc
      exact hkeep
    · exact fun hkeep => hkeep _ rfl
  | @moved ourIndex inner src _ hi _ haddr hroutes =>
    have hgrow (idx : UInt32) (hidx : idx ∈ s.tunnels) : idx ∈ s'.tunnels := by
      rw [← not_not (a := idx ∈ s'.tunnels), ← addrOf_eq_none, haddr]
      by_cases heq : idx = ourIndex
      · rw [if_pos heq]
        exact Option.some_ne_none src
      · rw [if_neg heq]
        exact addrOf_eq_none.not_left.mpr hidx
    refine iff_of_true (fun ip idx hip => hgrow idx ?_) fun c hc => ?_
    · rcases hroutes with heq | ⟨ip', heq⟩
      · exact hs ip idx (heq ▸ hip)
      · rw [heq] at hip
        rcases Table.lookup_insert_eq_some.mp hip with ⟨-, rfl⟩ | ⟨-, hip'⟩
        · exact hi
        · exact hs ip idx hip'
    · obtain rfl := Option.some_inj.mp hc
      trivial

/-- A packet for an address that was learned. -/
def learned (s : State) (pkt : List UInt8) : Bool :=
  (ipv4Dst pkt).any fun dst => (s.tsRoutes.lookup dst).isSome

/-- Of a queue from lwIP, every packet for a learned address is sent. -/
def Delivers (b : Build) (s : State) : Prop :=
  ∀ queue, (s.lwipDrainTx b queue).2.length = queue.countP s.learned

/-- With live routes a packet goes out exactly when its destination was learned. -/
theorem length_drainOne (b : Build) {s : State} (hs : s.RoutesLive) (pkt : List UInt8) :
    (s.drainOne b pkt).2.length = if s.learned pkt then 1 else 0 := by
  unfold drainOne learned
  split
  next hdst =>
    rw [hdst]
    rfl
  next dst hdst =>
  rw [hdst, Option.any_some]
  split
  next hroute =>
    rw [hroute]
    rfl
  next idx hroute =>
  obtain ⟨e, he⟩ := Option.isSome_iff_exists.mp (AList.lookup_isSome.mpr (hs dst idx hroute))
  rw [hroute, he, Option.isSome_some, if_pos rfl]
  dsimp only
  rw [sendAll, he]
  rfl

/-- Live routes deliver. -/
theorem delivers_of_routesLive (b : Build) {s : State} (hs : s.RoutesLive) : s.Delivers b := by
  intro queue
  induction queue generalizing s with
  | nil => rfl
  | cons pkt queue ih =>
    have hstill := s.still_drainOne b pkt
    obtain ⟨t, ht⟩ : ∃ t, t = (s.drainOne b pkt).1 := ⟨_, rfl⟩
    rw [← ht] at hstill
    have hlive : t.RoutesLive := hs.of_addrOf hstill.addrOf hstill.tsRoutes
    have hlearned : t.learned = s.learned := by
      funext p
      rw [learned, learned, hstill.tsRoutes]
    have hrest := ih hlive
    rw [hlearned] at hrest
    rw [List.countP_cons]
    show ((s.drainOne b pkt).2 ++ ((s.drainOne b pkt).1.lwipDrainTx b queue).2).length = _
    rw [← ht, List.length_append, length_drainOne b hs, hrest, Nat.add_comm]

end State

/-! ## A peer that sends from several addresses -/

open Node.NodeSession (Party alice alice_accepted peerEnd peerEnd_sendKey peerEnd_theirIndex)

/-- A build with the standard primitives. -/
def plainBuild (lwipBridge : Bool) : Build where
  cr := Crypto.standard
  box := ⟨fun _ _ _ _ => none, fun _ _ _ _ => none⟩
  features := ⟨lwipBridge, false, false, true, false, true⟩
  route := none
  proxyListenPort := 0

/-- The example uses the algorithms of WireGuard. -/
theorem plainBuild_cr (lwipBridge : Bool) : (plainBuild lwipBridge).cr = Crypto.standard := rfl

/-- A device whose private key is `keyOf 2`. -/
def device (allowedSrcs : Option (List NetMap.Cidr)) : Identity where
  discoPriv := Wg.keyOf 9
  discoPub := Crypto.standard.pubkey (Wg.keyOf 9)
  nodePriv := Wg.keyOf 2
  nodePub := Crypto.standard.pubkey (Wg.keyOf 2)
  allowedSrcs

def draw (index : UInt32) : Draw := ⟨index, Wg.keyOf 4, zeros 12, zeros 24, true, 0, 0, fun _ => []⟩

/-- A port of the peer. -/
def portOf (n : ℕ) : SocketAddr := .v4 (ofList 4 [10, 0, 0, 1]) (UInt16.ofNat n)

/-- The tunnel of the peer that has an index. -/
def tunnelAt (index : UInt32) : Wg.Tunnel := Party.tunnelOf (alice.accepted index)

/-- The initiation of the peer, which is answered with an index. -/
def initiationFrom (index : UInt32) (src : SocketAddr) : Event :=
  .datagram alice.initiation src (draw index)

/-- A packet of the peer in its tunnel. -/
def packetFrom (index : UInt32) (inner : List UInt8) (src : SocketAddr) : Event :=
  .datagram ((peerEnd (tunnelAt index) index).encrypt Crypto.standard inner).2 src (draw 0)

/-- A data plane without targets. -/
def emptyShared : Shared := Shared.start [] none false (zeros 32)

/-- A handshake of the example inserts its tunnel. -/
theorem onEvent_initiation (lwipBridge : Bool) (allowed : Option (List NetMap.Cidr)) (x : Shared)
    (index : UInt32) (src : SocketAddr) :
    (x.onEvent (plainBuild lwipBridge) (device allowed) (initiationFrom index src)).1 =
      { x with
        st := x.st.insertTunnel (plainBuild lwipBridge) index (tunnelAt index) src alice.key } := by
  obtain ⟨resp, haccepted⟩ := alice_accepted index
  obtain ⟨hdisco, hstun⟩ :
      Disco.isDisco alice.initiation = false ∧ Stun.isStun alice.initiation = false := by
    decide +kernel
  have hconsume : Wg.consumeInitiation (plainBuild lwipBridge).cr (device allowed).nodePriv
      (device allowed).nodePub
      alice.initiation (draw index).index (draw index).ephPriv =
        .ok (resp, tunnelAt index, alice.key) := haccepted
  rw [initiationFrom, Shared.onEvent_datagram,
    State.handlePacket_initiation hdisco hstun _ _ _ _ hconsume, draw]

/-- A packet of the peer comes through its tunnel. -/
theorem onEvent_packet (lwipBridge : Bool) {x : Shared} {index : UInt32} {e : TunnelEntry}
    (hlookup : x.st.tunnels.lookup index = some e) (htun : e.tun = tunnelAt index)
    (hstun : Tcp.u32At (Wg.leU32 index) 0 ≠ Stun.magicCookie) (inner : List UInt8)
    (src : SocketAddr) :
    (x.onEvent (plainBuild lwipBridge) (device none) (packetFrom index inner src)).1 =
      { x with
        st := (x.st.handleDecrypted (plainBuild lwipBridge) (device none) index (Wg.pad16 inner) src
          (draw 0)).1 } := by
  obtain ⟨t, ht⟩ : ∃ t, t = peerEnd (tunnelAt index) index := ⟨_, rfl⟩
  have hkey : t.sendKey = e.tun.recvKey := by rw [ht, htun, peerEnd_sendKey]
  have hindex : t.theirIndex = index := by rw [ht, peerEnd_theirIndex]
  have hpacket := State.handlePacket_encrypt (b := plainBuild lwipBridge) (device none)
    Crypto.standard_opens hlookup hkey hindex hstun inner x.targets x.tick src (draw 0)
  rw [plainBuild_cr] at hpacket
  rw [packetFrom, Shared.onEvent_datagram, ← ht, hpacket]

/-! ## The bound along a run -/

/-- Initiations from different ports. -/
def flood (n : ℕ) : List Event :=
  (List.range n).map fun k => initiationFrom (UInt32.ofNat k) (portOf k)

/-- Each of them makes a tunnel. -/
theorem flood_spec (lwipBridge : Bool) : ∀ n, n ≤ 2 ^ 16 → ∃ t,
    run (Shared.step (plainBuild lwipBridge) (device none)) emptyShared (flood n) = some t ∧
      t.st.tunnels.size = n ∧
      ∀ i a, t.st.addrOf i = some a → ∃ k < n, i = UInt32.ofNat k ∧ a = portOf k := by
  intro n
  induction n with
  | zero =>
    intro _
    refine ⟨emptyShared, rfl, rfl, fun i a hi => ?_⟩
    cases hi
  | succ n ih =>
    intro hn
    obtain ⟨t, hrun, hsize, haddr⟩ := ih (by omega)
    obtain ⟨s', hs'⟩ : ∃ s', s' = t.st.insertTunnel (plainBuild lwipBridge) (UInt32.ofNat n)
        (tunnelAt (UInt32.ofNat n)) (portOf n) alice.key := ⟨_, rfl⟩
    have htun : State.Tunneled t.st (UInt32.ofNat n) (portOf n) s' :=
      hs' ▸ State.tunneled_insertTunnel _ rfl rfl _ _ _ _
    -- the new index is none of those before
    have hindex : UInt32.ofNat n ∉ t.st.tunnels := by
      rw [← State.addrOf_eq_none]
      by_contra hne
      obtain ⟨a, ha⟩ := Option.ne_none_iff_exists'.mp hne
      obtain ⟨k, hk, heq, -⟩ := haddr _ a ha
      have hnat := congrArg UInt32.toNat heq
      simp only [UInt32.toNat_ofNat'] at hnat
      omega
    -- and no tunnel has the new address
    have hport (j : UInt32) : t.st.addrOf j ≠ some (portOf n) := by
      intro hj
      obtain ⟨k, hk, -, heq⟩ := haddr j _ hj
      have hnat := congrArg UInt16.toNat (SocketAddr.v4.inj heq).2
      simp only [UInt16.toNat_ofNat'] at hnat
      omega
    refine ⟨{ t with st := s' }, ?_, ?_, fun i a hi => ?_⟩
    · rw [flood, List.range_succ, List.map_append, run_append, ← flood, hrun, Option.bind_some,
        List.map_singleton, run_cons, Shared.step, onEvent_initiation, ← hs', Option.bind_some,
        run_nil]
    · have hlt := htun.size_lt_iff.mpr ⟨hindex, hport⟩
      have hle := htun.size_le
      dsimp only
      omega
    · rw [htun.addrOf_eq] at hi
      split_ifs at hi with heq
      · exact ⟨n, by omega, heq, (Option.some_inj.mp hi).symm⟩
      · obtain ⟨k, hk, hpair⟩ := haddr i a (Option.filter_eq_some_iff.mp hi).1
        exact ⟨k, by omega, hpair⟩

section

variable (b : Build) (id : Identity) (targets : List Target) (outbound : Option OutboundRun)
  (mdnsReinject : Bool) (mdnsPartner : Bytes 32)

/-- **The bound holds throughout a run exactly if every initiation finds room.** -/
theorem capped_throughout_iff (es : List Event) :
    Throughout (Shared.step b id) (fun x => x.st.Capped)
        (Shared.start targets outbound mdnsReinject mdnsPartner) es ↔
      Along (Shared.step b id) (Shared.OnAccepted b id State.HasRoom)
        (Shared.start targets outbound mdnsReinject mdnsPartner) es := by
  have hstart : (Shared.start targets outbound mdnsReinject mdnsPartner).st.Capped :=
    Nat.zero_le maxTunnels
  exact Shared.throughout_iff b id State.capped_change hstart es

/-- One peer that sends from nine ports takes nine tunnels. -/
theorem nine_tunnels : ∃ t,
    run (Shared.step (plainBuild false) (device none)) emptyShared (flood 9) = some t ∧
      ¬ t.st.Capped := by
  obtain ⟨t, hrun, hsize, -⟩ := flood_spec false 9 (by decide)
  refine ⟨t, hrun, ?_⟩
  unfold State.Capped
  rw [hsize, maxTunnels]
  omega

/-! ## One tunnel for each address along a run -/

/-- After a housekeeping step no handshake is pending for an address that has a tunnel. -/
theorem settled_runPeriodic (x : Shared) (tick : UInt32) (now : ℕ) (added : List Target)
    (probing : Bool) (rand : UInt32) :
    (x.runPeriodic b tick now added probing rand).1.st.Settled := by
  obtain ⟨t, -, hlast⟩ := x.st_runPeriodic b tick now added probing rand
  have hsettled := t.settled_retryPending tick
  rwa [State.Settled, hlast.pending, hlast.addrOf]

/-- **One tunnel for each address**, throughout a run and with no handshake left over after
housekeeping, exactly if no tunnel moves to the address of another. -/
theorem onePerAddress_throughout_iff (es : List Event) :
    (Throughout (Shared.step b id) (fun x => x.st.OnePerAddress)
        (Shared.start targets outbound mdnsReinject mdnsPartner) es ∧
      ∀ pre tick now added probing rand t,
        pre ++ [.periodic tick now added probing rand] <+: es →
        run (Shared.step b id) (Shared.start targets outbound mdnsReinject mdnsPartner)
          (pre ++ [.periodic tick now added probing rand]) = some t → t.st.Settled) ↔
      Along (Shared.step b id) (Shared.OnAccepted b id State.StaysApart)
        (Shared.start targets outbound mdnsReinject mdnsPartner) es := by
  have hstart : (Shared.start targets outbound mdnsReinject mdnsPartner).st.OnePerAddress := by
    intro i j src hi
    cases hi
  rw [Shared.throughout_iff b id State.onePerAddress_change hstart, and_iff_left]
  intro pre tick now added probing rand t _ hrun
  rw [run_append] at hrun
  obtain ⟨x, -, hlast⟩ := Option.bind_eq_some_iff.mp hrun
  obtain ⟨x', hx', hnil⟩ := run_cons_eq_some.mp hlast
  obtain rfl : (x.runPeriodic b tick now added probing rand).1 = x' := Option.some_inj.mp hx'
  obtain rfl : _ = t := Option.some_inj.mp hnil
  exact settled_runPeriodic b x tick now added probing rand

/-- A peer has a tunnel from each of two ports, and the first moves to the port of the
second. -/
def movingRun : List Event :=
  [initiationFrom 7 (portOf 1), initiationFrom 8 (portOf 2), packetFrom 7 [] (portOf 2)]

/-- The tunnels come to have one address. -/
theorem two_tunnels_one_address : ∃ t,
    run (Shared.step (plainBuild false) (device none)) emptyShared movingRun = some t ∧
      ¬ t.st.OnePerAddress := by
  obtain ⟨s1, hs1⟩ : ∃ s1, s1 = emptyShared.st.insertTunnel (plainBuild false) 7 (tunnelAt 7)
      (portOf 1) alice.key := ⟨_, rfl⟩
  obtain ⟨s2, hs2⟩ : ∃ s2, s2 = s1.insertTunnel (plainBuild false) 8 (tunnelAt 8) (portOf 2)
      alice.key := ⟨_, rfl⟩
  have hport : portOf 1 ≠ portOf 2 := by decide
  obtain ⟨e, he, htun, haddr⟩ := State.exists_lookup_insertTunnel (plainBuild false)
    emptyShared.st 7 (tunnelAt 7) (portOf 1) alice.key
  have h7 : s2.tunnels.lookup 7 = some e := by
    rw [← hs1] at he
    exact hs2 ▸ State.lookup_insertTunnel_ne _ he (by decide) (haddr ▸ hport) _ _
  have h8 : s2.addrOf 8 = some (portOf 2) := by
    rw [State.addrOf, hs2, State.lookup_insertTunnel_self]
    rfl
  have hmem : (7 : UInt32) ∈ s2.tunnels :=
    AList.lookup_isSome.mp (Option.isSome_of_eq_some h7)
  refine ⟨{ emptyShared with
    st := (s2.handleDecrypted (plainBuild false) (device none) 7 (Wg.pad16 []) (portOf 2)
      (draw 0)).1 }, ?_, fun hone => ?_⟩
  · rw [movingRun, run_cons, Shared.step, onEvent_initiation, ← hs1, Option.bind_some, run_cons,
      Shared.step, onEvent_initiation, ← hs2, Option.bind_some, run_cons, Shared.step,
      onEvent_packet false (x := { emptyShared with st := s2 }) h7 htun (by decide)]
    rfl
  · have hmoved := State.addrOf_handleDecrypted (plainBuild false) (device none) hmem (Wg.pad16 [])
      (portOf 2) (draw 0)
    have heq := hone 7 8 (portOf 2) ((hmoved 7).trans (if_pos rfl))
      ((hmoved 8).trans ((if_neg (by decide)).trans h8))
    exact absurd heq (by decide)

/-! ## Routes along a run -/

/-- **Every learned route leads to a tunnel, and lwIP's packets for learned addresses are
sent**, throughout a run, exactly if no handshake takes the place of a tunnel that a route
leads to. -/
theorem routesLive_throughout_iff (es : List Event) :
    Throughout (Shared.step b id) (fun x => x.st.RoutesLive ∧ x.st.Delivers b)
        (Shared.start targets outbound mdnsReinject mdnsPartner) es ↔
      Along (Shared.step b id) (Shared.OnAccepted b id State.KeepsRoutes)
        (Shared.start targets outbound mdnsReinject mdnsPartner) es := by
  have hstart : (Shared.start targets outbound mdnsReinject mdnsPartner).st.RoutesLive := by
    intro ip idx hip
    cases hip
  rw [← Shared.throughout_iff b id State.routesLive_change hstart]
  have hiff (x : Shared) : x.st.RoutesLive ∧ x.st.Delivers b ↔ x.st.RoutesLive :=
    and_iff_left_of_imp (State.delivers_of_routesLive b)
  simp only [hiff]

end

/-- A packet of the peer from the address 100.64.0.5. -/
def fromPeer : List UInt8 :=
  [0x45, 0, 0, 20, 0, 0, 0, 0, 64, 17, 0, 0, 100, 64, 0, 5, 100, 64, 0, 2]

/-- The answer of lwIP. -/
def toPeer : List UInt8 :=
  [0x45, 0, 0, 20, 0, 0, 0, 0, 64, 17, 0, 0, 100, 64, 0, 2, 100, 64, 0, 5]

/-- A peer sends a packet and repeats its handshake. -/
def rekeyRun : List Event :=
  [initiationFrom 7 (portOf 1), packetFrom 7 fromPeer (portOf 1), initiationFrom 8 (portOf 1)]

/-- The route of the peer leads nowhere, and the answer is lost, though the peer has a
tunnel. -/
theorem answer_lost : ∃ t,
    run (Shared.step (plainBuild true) (device none)) emptyShared rekeyRun = some t ∧
      ¬ t.st.RoutesLive ∧ t.st.learned toPeer = true ∧
      (t.st.lwipDrainTx (plainBuild true) [toPeer]).2 = [] ∧
      (t.st.tunnels.lookup 8).map TunnelEntry.peerNode = some alice.key := by
  obtain ⟨s1, hs1⟩ : ∃ s1, s1 = emptyShared.st.insertTunnel (plainBuild true) 7 (tunnelAt 7)
      (portOf 1) alice.key := ⟨_, rfl⟩
  obtain ⟨s2, hs2⟩ : ∃ s2, s2 = (s1.handleDecrypted (plainBuild true) (device none) 7
      (Wg.pad16 fromPeer) (portOf 1) (draw 0)).1 := ⟨_, rfl⟩
  obtain ⟨s3, hs3⟩ : ∃ s3, s3 = s2.insertTunnel (plainBuild true) 8 (tunnelAt 8) (portOf 1)
      alice.key := ⟨_, rfl⟩
  obtain ⟨e, h7, htun, -⟩ := State.exists_lookup_insertTunnel (plainBuild true)
    emptyShared.st 7 (tunnelAt 7) (portOf 1) alice.key
  rw [← hs1] at h7
  have hmem : (7 : UInt32) ∈ s1.tunnels :=
    AList.lookup_isSome.mp (Option.isSome_of_eq_some h7)
  -- the packet teaches the route
  have hroute : s2.tsRoutes = s1.tsRoutes.insert ⟨100, 64, 0, 5⟩ 7 :=
    hs2 ▸ State.tsRoutes_handleDecrypted _ (device none) rfl hmem (by decide) rfl (portOf 1)
      (draw 0)
  have haddr : s2.addrOf 7 = some (portOf 1) := by
    rw [hs2, State.addrOf_handleDecrypted _ _ hmem, if_pos rfl]
  -- the second handshake takes the place of the tunnel
  have hplace : State.Tunneled s2 8 (portOf 1) s3 :=
    hs3 ▸ State.tunneled_insertTunnel _ rfl rfl 8 (tunnelAt 8) (portOf 1) alice.key
  have hgone : s3.tunnels.lookup 7 = none := by
    rw [AList.lookup_eq_none, ← State.addrOf_eq_none, hplace.addrOf_eq, if_neg (by decide), haddr]
    rfl
  have hlookup : s3.tsRoutes.lookup ⟨100, 64, 0, 5⟩ = some 7 := by
    rw [hplace.tsRoutes, hroute, AList.lookup_insert]
  have hdst : State.ipv4Dst toPeer = some ⟨100, 64, 0, 5⟩ := by decide
  refine ⟨{ emptyShared with st := s3 }, ?_, fun hlive => ?_, ?_, ?_, ?_⟩
  · rw [rekeyRun, run_cons, Shared.step, onEvent_initiation, ← hs1, Option.bind_some, run_cons,
      Shared.step, onEvent_packet true (x := { emptyShared with st := s1 }) h7 htun (by decide),
      ← hs2, Option.bind_some, run_cons, Shared.step, onEvent_initiation, ← hs3]
    rfl
  · exact AList.lookup_eq_none.mp hgone (hlive _ 7 hlookup)
  · rw [State.learned, hdst, Option.any_some, hlookup]
    rfl
  · rw [State.lwipDrainTx, State.drainOne, hdst]
    dsimp only
    rw [hlookup]
    dsimp only
    rw [hgone]
    rfl
  · rw [hs3, State.lookup_insertTunnel_self]
    rfl

/-! ## A response that is refused -/

namespace State

/-- A response is refused by the handshake that it names, or it names none. -/
def Refuses (b : Build) (s : State) (pkt : List UInt8) : Prop :=
  ∀ key p, s.answered pkt = some (key, p) → ∀ tun, p.hs.consumeResponse b.cr pkt ≠ .ok tun

/-- What a response names: by its receiver index, if it is long enough for one. -/
theorem answered_spec {s : State} {pkt : List UInt8} {key : Bytes 32} {p : Pending}
    (h : s.answered pkt = some (key, p)) :
    12 ≤ pkt.length ∧ s.pending.lookup key = some p ∧ p.ourIndex = Wg.u32At pkt 8 := by
  unfold answered at h
  split_ifs at h with hlen
  obtain ⟨entry, hfind, heq⟩ := Option.map_eq_some_iff.mp h
  obtain ⟨rfl, rfl⟩ := Prod.mk.inj heq
  have hindex := List.find?_some hfind
  exact ⟨Nat.le_of_not_lt hlen, Table.mem_entries.mp (List.mem_of_find?_eq_some hfind),
    of_decide_eq_true hindex⟩

/-- What becomes of the state: the handshake that the response names is dropped. -/
theorem handleWgResponse_of_refuses {b : Build} {s : State} {pkt : List UInt8}
    (h : s.Refuses b pkt) (src : SocketAddr) :
    s.handleWgResponse b pkt src =
      ((s.answered pkt).elim s fun e => { s with pending := s.pending.erase e.1 }, []) := by
  rw [handleWgResponse]
  cases hans : s.answered pkt with
  | none => rfl
  | some e =>
    dsimp only [Option.elim_some]
    cases hresp : e.2.hs.consumeResponse b.cr pkt with
    | error _ => rfl
    | ok tun => exact absurd hresp (h e.1 e.2 hans tun)

/-- A response names no handshake when it is too short for an index, or when no pending
handshake has the one that it carries. -/
theorem answered_eq_none_iff {s : State} {pkt : List UInt8} :
    s.answered pkt = none ↔ pkt.length < 12 ∨
      ∀ key p, s.pending.lookup key = some p → p.ourIndex ≠ Wg.u32At pkt 8 := by
  unfold answered
  split_ifs with hlen
  · exact ⟨fun _ => Or.inl hlen, fun _ => rfl⟩
  · rw [Option.map_eq_none_iff, List.find?_eq_none, or_iff_right hlen]
    constructor
    · intro hnone key p hp heq
      exact hnone ⟨key, p⟩ (Table.mem_entries.mpr hp) (decide_eq_true heq)
    · intro hnone e he heq
      exact hnone e.1 e.2 (Table.mem_entries.mp he) (of_decide_eq_true heq)

/-- **A bad response** sends nothing and touches no tunnel.  If it names a pending
handshake, that handshake is dropped and every other one stays, also one that waits under
the same index; if it names none, nothing changes. -/
theorem bad_response (b : Build) (s : State) (pkt : List UInt8) (src : SocketAddr)
    (h : s.Refuses b pkt) :
    (s.handleWgResponse b pkt src).2 = [] ∧
      (∃ pending, (s.handleWgResponse b pkt src).1 = { s with pending }) ∧
      (pkt.length < 12 ∨ (∀ key p, s.pending.lookup key = some p →
          p.ourIndex ≠ Wg.u32At pkt 8) → (s.handleWgResponse b pkt src).1 = s) ∧
      (12 ≤ pkt.length → ∀ key p, s.pending.lookup key = some p → p.ourIndex = Wg.u32At pkt 8 →
        ∃ named q, s.pending.lookup named = some q ∧ q.ourIndex = Wg.u32At pkt 8 ∧
          (s.handleWgResponse b pkt src).1.pending.lookup named = none ∧
          ∀ other ≠ named,
            (s.handleWgResponse b pkt src).1.pending.lookup other = s.pending.lookup other) := by
  rw [handleWgResponse_of_refuses h]
  cases hans : s.answered pkt with
  | none =>
    refine ⟨rfl, ⟨s.pending, rfl⟩, fun _ => rfl, fun hlen key p hp hindex => ?_⟩
    rcases answered_eq_none_iff.mp hans with hshort | hnone
    · exact absurd hlen (Nat.not_le.mpr hshort)
    · exact absurd hindex (hnone key p hp)
  | some e =>
    obtain ⟨named, q⟩ := e
    obtain ⟨hlen, hlookup, hindex⟩ := answered_spec hans
    refine ⟨rfl, ⟨s.pending.erase named, rfl⟩, fun hnone => ?_, fun _ _ _ _ _ => ?_⟩
    · exact nomatch hans.symm.trans (answered_eq_none_iff.mpr hnone)
    · exact ⟨named, q, hlookup, hindex, AList.lookup_erase _ _,
        fun other hother => AList.lookup_erase_ne hother⟩

end State

/-- A handshake that waits for its response. -/
def waiting : Pending :=
  ⟨portOf 1, [], ⟨zeros 32, zeros 32, Wg.keyOf 4, Wg.keyOf 2, 7⟩, 7, 0, 0⟩

def waitingState : State :=
  { emptyShared.st with pending := emptyShared.st.pending.insert alice.key waiting }

/-- Twelve bytes that name the handshake. -/
def forgedResponse : List UInt8 := [Wg.msgResponse, 0, 0, 0, 0, 0, 0, 0, 7, 0, 0, 0]

/-- The forged response names the handshake that is waited for. -/
theorem answered_forged : waitingState.answered forgedResponse = some (alice.key, waiting) := by
  have hindex : Wg.u32At forgedResponse 8 = 7 := by decide
  rw [State.answered, if_neg (by decide), hindex]
  rfl

/-- It is refused all the same. -/
theorem refuses_forged : waitingState.Refuses (plainBuild true) forgedResponse := by
  intro key p hans tun htun
  obtain ⟨rfl, rfl⟩ := Prod.mk.inj (Option.some.inj (answered_forged.symm.trans hans))
  rw [Wg.Handshake.consumeResponse, dif_pos (by decide)] at htun
  cases htun

/-- The forged response is not answered, and it drops one pending handshake. -/
theorem bad_response_forged :
    (waitingState.handleWgResponse (plainBuild true) forgedResponse (portOf 2)).2 = [] ∧
      ∃ named, (waitingState.handleWgResponse (plainBuild true) forgedResponse
        (portOf 2)).1.pending.lookup named = none ∧ waitingState.pending.lookup named ≠ none := by
  obtain ⟨hsilent, -, -, hdrop⟩ :=
    State.bad_response (plainBuild true) waitingState forgedResponse (portOf 2) refuses_forged
  obtain ⟨-, hlookup, hindex⟩ := State.answered_spec answered_forged
  obtain ⟨named, q, hq, -, hnone, -⟩ := hdrop (by decide) _ _ hlookup hindex
  exact ⟨hsilent, named, hnone, hq ▸ Option.some_ne_none q⟩

/-- **A bad response cancels a handshake.** -/
theorem handshake_cancelled : ∃ (b : Build) (s : State) (pkt : List UInt8) (src : SocketAddr),
    pkt.head? = some Wg.msgResponse ∧ s.Refuses b pkt ∧
      (s.handleWgResponse b pkt src).1.pending ≠ s.pending := by
  refine ⟨plainBuild true, waitingState, forgedResponse, portOf 2, rfl, refuses_forged, fun h => ?_⟩
  rw [State.handleWgResponse_of_refuses refuses_forged, answered_forged] at h
  have hlookup := congrArg (AList.lookup alice.key) h
  change AList.lookup alice.key (waitingState.pending.erase alice.key) = _ at hlookup
  rw [AList.lookup_erase] at hlookup
  have hwaiting : AList.lookup alice.key waitingState.pending = some waiting :=
    AList.lookup_insert _
  rw [hwaiting] at hlookup
  cases hlookup

end DataPlane
