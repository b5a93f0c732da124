/-
# The buffers of the lwIP bridge

`lwip_bridge.rs`: the tunnel as a network interface of lwIP.  A packet of the tunnel goes to
lwIP in a frame that is not copied: the frame stays in `RX_BUFS` until lwIP says that it is
done with it (`wgFreeRx`).  What lwIP sends comes to `wgTransmit`, which queues packets for
the data plane and answers ARP requests, with frames that go the same way.

The data plane and lwIP are threads of their own, and the frame of `esp_inject` is pushed and
handed over in two sections.  `frames_alive` is about every order of these sections: all that
lwIP can read is alive and is what was injected, and no frame stays behind.  `no_boot_loop`
is about the counter that keeps a bring-up that panics from booting for ever.
-/
import PySpell.Lib.Runs
import PySpell.TcpServer
import Mathlib.Data.List.Nodup
import Mathlib.Data.List.Perm.Basic

open Tcp Runs

namespace LwipBridge

/-! ## Frames -/

def ethHdr : ℕ := 14
def ethertypeIp : ℕ := 0x0800
def ethertypeArp : ℕ := 0x0806
def ourMac : List UInt8 := [0x02, 0x54, 0x53, 0x00, 0x00, 0x01]
def peerMac : List UInt8 := [0x02, 0x54, 0x53, 0x00, 0x00, 0x02]
def txQueueMax : ℕ := 64

/-- The frame of `inject_ip`. -/
def ipFrame (packet : List UInt8) : List UInt8 := ourMac ++ peerMac ++ be16 ethertypeIp ++ packet

/-- `handle_arp`: the frame of the answer, if there is one. -/
def arpReply (arp : List UInt8) : Option (List UInt8) :=
  if arp.length < 28 then none
  else if u16At arp 6 ≠ 1 then none
  else
    let senderMac := (arp.drop 8).take 6
    let senderIp := (arp.drop 14).take 4
    let targetIp := (arp.drop 24).take 4
    let payload := [0x00, 0x01] ++ be16 ethertypeIp ++ [6, 4] ++ [0x00, 0x02] ++ peerMac ++
      targetIp ++ senderMac ++ senderIp
    some (senderMac ++ peerMac ++ be16 ethertypeArp ++ payload)

/-! ## The state -/

/-- A frame at an address. -/
abbrev Buf := ℕ × List UInt8

/-- `swap_remove`. -/
def swapRemove (l : List Buf) (i : ℕ) : List Buf :=
  match l.getLast? with
  | none => l
  | some last => (l.set i last).dropLast

/-- The bridge, and what lwIP has of it: `handed` are the frames that are pushed but not yet
handed over, and `held` those that lwIP refers to. -/
structure State where
  netif : Bool
  rxBufs : List Buf
  txQueue : List (List UInt8)
  handed : List Buf
  held : List Buf

/-- What is in the memory at an address. -/
def State.memory (s : State) (addr : ℕ) : Option (List UInt8) :=
  (s.rxBufs.find? fun e => e.1 = addr).map Prod.snd

/-- The first section of `esp_inject`: the frame gets an address where nothing is alive. -/
def State.push (s : State) (frame : List UInt8) (addr : ℕ) : Option State :=
  if addr ∈ s.rxBufs.map Prod.fst then none
  else
    some
      { s with
        rxBufs := s.rxBufs ++ [(addr, frame)]
        handed := s.handed ++ [(addr, frame)] }

/-- `wg_free_rx`. -/
def wgFreeRx (bufs : List Buf) (key : ℕ) : List Buf :=
  match bufs.findIdx? fun e => e.1 = key with
  | none => bufs
  | some pos => swapRemove bufs pos

/-- `inject_ip`. -/
def State.injectIp (s : State) (packet : List UInt8) (addr : ℕ) : Option State :=
  if !s.netif ∨ packet = [] then some s else s.push (ipFrame packet) addr

/-- `wg_transmit`. -/
def State.wgTransmit (s : State) (frame : List UInt8) (addr : ℕ) : Option State :=
  if frame.length < ethHdr then some s
  else if u16At frame 12 = ethertypeArp then
    match arpReply (frame.drop ethHdr) with
    | none => some s
    | some reply => if s.netif then s.push reply addr else some s
  else if u16At frame 12 = ethertypeIp then
    if s.txQueue.length < txQueueMax then
      some { s with txQueue := s.txQueue ++ [frame.drop ethHdr] }
    else some s
  else some s

inductive Event where
  /-- `create` has come to its end. -/
  | created
  | inject (packet : List UInt8) (addr : ℕ)
  | transmit (frame : List UInt8) (addr : ℕ)
  /-- The second section of `esp_inject`, for a frame that is pushed. -/
  | receive (i : ℕ)
  /-- lwIP is done with a frame that it holds. -/
  | free (i : ℕ)
  /-- `drain_tx`. -/
  | drain

namespace State

def step (s : State) : Event → Option State
  | .created => some { s with netif := true }
  | .inject packet addr => s.injectIp packet addr
  | .transmit frame addr => s.wgTransmit frame addr
  | .receive i =>
    s.handed[i]?.map fun e => { s with handed := s.handed.eraseIdx i, held := s.held ++ [e] }
  | .free i =>
    s.held[i]?.map fun e =>
      { s with rxBufs := wgFreeRx s.rxBufs e.1, held := s.held.eraseIdx i }
  | .drain => some { s with txQueue := [] }

def start : State := ⟨false, [], [], [], []⟩

end State

/-! ## Who owns a frame -/

theorem swapRemove_perm {l : List Buf} {i : ℕ} (hi : i < l.length) :
    (swapRemove l i).Perm (l.eraseIdx i) := by
  obtain ⟨last, hlast⟩ := Option.isSome_iff_exists.mp
    (List.getLast?_isSome.mpr (List.ne_nil_of_length_pos (by omega : 0 < l.length)))
  have hset : (l.set i last).getLast? = some last := by
    rw [List.getLast?_eq_getElem?, List.length_set, List.getElem?_set]
    split_ifs
    · rfl
    · rw [← List.getLast?_eq_getElem?, hlast]
  have happend : (l.set i last).dropLast ++ [last] = l.set i last :=
    List.dropLast_append_getLast? _ hset
  have hperm : (last :: (l.set i last).dropLast).Perm (last :: l.eraseIdx i) := by
    refine (List.perm_append_singleton _ _).symm.trans ?_
    rw [happend]
    exact List.set_perm_cons_eraseIdx hi last
  rw [swapRemove, hlast]
  exact hperm.cons_inv

/-- The buffers are those that are pushed and those that lwIP holds, at addresses of their own. -/
structure Owns (bufs handed held : List Buf) : Prop where
  distinct : (bufs.map Prod.fst).Nodup
  perm : bufs.Perm (handed ++ held)

namespace Owns

variable {bufs handed held : List Buf}

theorem push (h : Owns bufs handed held) {addr : ℕ} (haddr : addr ∉ bufs.map Prod.fst)
    (frame : List UInt8) : Owns (bufs ++ [(addr, frame)]) (handed ++ [(addr, frame)]) held := by
  constructor
  · rw [List.map_append]
    exact h.distinct.append (List.nodup_singleton addr) (by simpa using haddr)
  · refine (h.perm.append_right _).trans ?_
    rw [List.append_assoc, List.append_assoc]
    exact List.perm_append_comm.append_left handed

theorem receive (h : Owns bufs handed held) {i : ℕ} {e : Buf} (hi : handed[i]? = some e) :
    Owns bufs (handed.eraseIdx i) (held ++ [e]) := by
  obtain ⟨hlt, rfl⟩ := List.getElem?_eq_some_iff.mp hi
  refine ⟨h.distinct, h.perm.trans ?_⟩
  calc handed ++ held
      _ |>.Perm (handed[i] :: handed.eraseIdx i ++ held) :=
        (List.getElem_cons_eraseIdx_perm hlt).symm.append_right held
      _ |>.Perm (handed.eraseIdx i ++ (held ++ [handed[i]])) := by
        rw [← List.append_assoc]
        exact (List.perm_append_singleton _ _).symm

/-- A frame is at its address, and no other. -/
theorem eq_of_key (h : Owns bufs handed held) {e e' : Buf} (he : e ∈ bufs) (he' : e' ∈ bufs)
    (hkey : e'.1 = e.1) : e' = e :=
  List.inj_on_of_nodup_map h.distinct he' he hkey

/-- lwIP frees a frame that it holds. -/
theorem free (h : Owns bufs handed held) {i : ℕ} {e : Buf} (hi : held[i]? = some e) :
    Owns (wgFreeRx bufs e.1) handed (held.eraseIdx i) := by
  obtain ⟨hlt, hget⟩ := List.getElem?_eq_some_iff.mp hi
  have hheld : (handed ++ held).Perm (e :: (handed ++ held.eraseIdx i)) := by
    refine ((List.getElem_cons_eraseIdx_perm hlt).symm.append_left handed).trans ?_
    rw [hget]
    exact List.perm_middle
  have hmem : e ∈ bufs := h.perm.mem_iff.mpr (hheld.mem_iff.mpr List.mem_cons_self)
  obtain ⟨pos, hpos⟩ : ∃ pos, bufs.findIdx? (fun e' => e'.1 = e.1) = some pos := by
    rw [← Option.isSome_iff_exists, List.findIdx?_isSome, List.any_eq_true]
    exact ⟨e, hmem, decide_eq_true rfl⟩
  obtain ⟨hbound, hkey, -⟩ := List.findIdx?_eq_some_iff_getElem.mp hpos
  have hentry : bufs[pos] = e := h.eq_of_key hmem (List.getElem_mem hbound) (of_decide_eq_true hkey)
  have hperm := swapRemove_perm hbound
  rw [wgFreeRx, hpos]
  refine ⟨((hperm.map Prod.fst).nodup_iff).mpr ?_, hperm.trans (List.Perm.cons_inv (a := e) ?_)⟩
  · exact h.distinct.sublist ((List.eraseIdx_sublist bufs pos).map Prod.fst)
  · refine .trans ?_ (h.perm.trans hheld)
    rw [← hentry]
    exact List.getElem_cons_eraseIdx_perm hbound

/-- A frame is in the memory. -/
theorem find?_eq (h : Owns bufs handed held) {e : Buf} (he : e ∈ handed ++ held) :
    bufs.find? (fun e' => e'.1 = e.1) = some e := by
  have hmem : e ∈ bufs := h.perm.mem_iff.mpr he
  cases hfind : bufs.find? fun e' => e'.1 = e.1 with
  | none => exact absurd (decide_eq_true rfl) (List.find?_eq_none.mp hfind e hmem)
  | some e' =>
    have hkey : e'.1 = e.1 := by simpa using List.find?_some hfind
    rw [h.eq_of_key hmem (List.mem_of_find?_eq_some hfind) hkey]

end Owns

/-! ## Runs -/

/-- What may be in a frame: a packet of the tunnel, or the answer to an ARP request. -/
def Injected (es : List Event) (frame : List UInt8) : Prop :=
  (∃ packet addr, Event.inject packet addr ∈ es ∧ frame = ipFrame packet) ∨
    ∃ request addr, Event.transmit request addr ∈ es ∧ arpReply (request.drop ethHdr) = some frame

/-- What holds at all times, for the events `es`. -/
structure Inv (es : List Event) (s : State) : Prop where
  owns : Owns s.rxBufs s.handed s.held
  injected : ∀ e ∈ s.rxBufs, Injected es e.2
  queue : s.txQueue.length ≤ txQueueMax

theorem mem_of_wgFreeRx {bufs : List Buf} {key : ℕ} {e : Buf} (he : e ∈ wgFreeRx bufs key) :
    e ∈ bufs := by
  rw [wgFreeRx] at he
  split at he
  · exact he
  · next pos hpos =>
    obtain ⟨hbound, -⟩ := List.findIdx?_eq_some_iff_getElem.mp hpos
    exact List.mem_of_mem_eraseIdx ((swapRemove_perm hbound).mem_iff.mp he)

variable {es : List Event} {s s' : State}

theorem Inv.push (h : Inv es s) {frame : List UInt8} {addr : ℕ} (hframe : Injected es frame)
    (hpush : s.push frame addr = some s') : Inv es s' := by
  unfold State.push at hpush
  split_ifs at hpush with haddr
  obtain rfl := Option.some_inj.mp hpush
  refine ⟨h.owns.push haddr frame, fun e he => ?_, h.queue⟩
  rcases List.mem_append.mp he with he | he
  · exact h.injected e he
  · rw [List.mem_singleton.mp he]
    exact hframe

/-- What `wg_transmit` can do. -/
theorem wgTransmit_cases {frame : List UInt8} {addr : ℕ}
    (h : s.wgTransmit frame addr = some s') : s' = s ∨
      (∃ reply, arpReply (frame.drop ethHdr) = some reply ∧ s.push reply addr = some s') ∨
      (s.txQueue.length < txQueueMax ∧
        s' = { s with txQueue := s.txQueue ++ [frame.drop ethHdr] }) := by
  unfold State.wgTransmit at h
  split at h
  · exact .inl (Option.some_inj.mp h).symm
  split at h
  · split at h
    · exact .inl (Option.some_inj.mp h).symm
    next reply hreply =>
    split at h
    · exact .inr (.inl ⟨reply, hreply, h⟩)
    · exact .inl (Option.some_inj.mp h).symm
  split at h
  · split at h
    next hroom => exact .inr (.inr ⟨hroom, (Option.some_inj.mp h).symm⟩)
    next => exact .inl (Option.some_inj.mp h).symm
  · exact .inl (Option.some_inj.mp h).symm

theorem Inv.transmit (h : Inv es s) {frame : List UInt8} {addr : ℕ}
    (he : Event.transmit frame addr ∈ es) (hstep : s.wgTransmit frame addr = some s') :
    Inv es s' := by
  rcases wgTransmit_cases hstep with rfl | ⟨reply, hreply, hpush⟩ | ⟨hroom, rfl⟩
  · exact h
  · exact h.push (.inr ⟨frame, addr, he, hreply⟩) hpush
  · refine ⟨h.owns, h.injected, ?_⟩
    rw [List.length_append, List.length_singleton]
    exact hroom

theorem Inv.step (h : Inv es s) {e : Event} (he : e ∈ es) (hstep : s.step e = some s') :
    Inv es s' := by
  cases e with
  | created =>
    obtain rfl := Option.some_inj.mp hstep
    exact ⟨h.owns, h.injected, h.queue⟩
  | inject packet addr =>
    rw [State.step, State.injectIp] at hstep
    split_ifs at hstep
    · exact Option.some_inj.mp hstep ▸ h
    · exact h.push (.inl ⟨packet, addr, he, rfl⟩) hstep
  | transmit frame addr => exact h.transmit he hstep
  | receive i =>
    obtain ⟨buf, hi, rfl⟩ := Option.map_eq_some_iff.mp hstep
    exact ⟨h.owns.receive hi, h.injected, h.queue⟩
  | free i =>
    obtain ⟨buf, hi, rfl⟩ := Option.map_eq_some_iff.mp hstep
    exact ⟨h.owns.free hi, fun e he => h.injected e (mem_of_wgFreeRx he), h.queue⟩
  | drain =>
    obtain rfl := Option.some_inj.mp hstep
    exact ⟨h.owns, h.injected, Nat.zero_le _⟩

/-- What holds of the frames. -/
structure Safe (es : List Event) (s : State) : Prop where
  /-- What lwIP refers to, or will refer to, is in the memory. -/
  alive : ∀ e ∈ s.handed ++ s.held, s.memory e.1 = some e.2
  /-- No frame lies over another one. -/
  distinct : ((s.handed ++ s.held).map Prod.fst).Nodup
  /-- What it refers to holds what was injected. -/
  injected : ∀ e ∈ s.handed ++ s.held, Injected es e.2
  /-- What lwIP is done with is freed. -/
  freed : s.rxBufs.length = s.handed.length + s.held.length
  queue : s.txQueue.length ≤ txQueueMax

/-- **Frames are alive as long as lwIP may read them, and no longer.** -/
theorem frames_alive {es : List Event} {s : State} (hrun : run State.step .start es = some s) :
    Safe es s := by
  have hstart : Inv es .start :=
    ⟨⟨List.nodup_nil, .refl _⟩, fun _ he => absurd he List.not_mem_nil, Nat.zero_le _⟩
  have halong : Along State.step (fun _ e => e ∈ es) .start es :=
    along_of_forall_mem _ fun _ he => he
  have hinv : Inv es s :=
    run_inv_along (fun _ _ _ h he hstep => h.step he hstep) hstart halong hrun
  have hperm := hinv.owns.perm
  refine ⟨fun e he => ?_, ?_, fun e he => ?_, ?_, hinv.queue⟩
  · rw [State.memory, hinv.owns.find?_eq he]
    rfl
  · exact (hperm.map Prod.fst).nodup_iff.mp hinv.owns.distinct
  · exact hinv.injected e (hperm.mem_iff.mpr he)
  · rw [hperm.length_eq, List.length_append]

/-- Two packets and an ARP request; the first frame is freed, and its address used again. -/
theorem frames_alive_reused : ∃ s,
    run State.step .start [.created, .inject [1] 100, .inject [2] 200, .receive 1, .receive 0,
      .free 1, .inject [3] 100, .free 0] = some s ∧
      Safe [.created, .inject [1] 100, .inject [2] 200, .receive 1, .receive 0, .free 1,
        .inject [3] 100, .free 0] s :=
  ⟨_, rfl, frames_alive rfl⟩

/-! ## The safeguard of the bring-up -/

def maxTries : ℕ := 2

/-- What becomes of a boot: the bring-up is skipped, or the device is stable after it, or it
panics and boots again. -/
inductive Boot where
  | skipped
  | stable
  | crashed

/-- `bring_up_guarded`, on the counter in the flash, and what becomes of the counter. -/
def bringUpGuarded (tries : ℕ) (survives : Bool) : ℕ × Boot :=
  if maxTries ≤ tries then (0, .skipped)
  else if survives then (0, .stable)
  else (tries + 1, .crashed)

/-- One boot after the other. -/
def boots : ℕ → List Bool → List Boot
  | _, [] => []
  | tries, survives :: rest =>
    (bringUpGuarded tries survives).2 :: boots (bringUpGuarded tries survives).1 rest

/-- The counter and the crashes that come next are two at most. -/
theorem crashes_le {n : ℕ} {survives : List Bool} : ∀ {tries : ℕ}, tries ≤ maxTries →
    List.replicate n .crashed <+: boots tries survives → tries + n ≤ maxTries := by
  induction survives generalizing n with
  | nil =>
    intro tries htries hprefix
    have hlen := hprefix.length_le
    rw [List.length_replicate, boots, List.length_nil] at hlen
    omega
  | cons survive rest ih =>
    intro tries htries hprefix
    cases n with
    | zero => exact htries
    | succ n =>
      obtain ⟨hhead, hrest⟩ := List.cons_prefix_cons.mp hprefix
      unfold bringUpGuarded at hhead hrest
      split_ifs at hhead hrest with hskip hsurvive
      have hle := ih (by dsimp only; omega) hrest
      dsimp only at hle
      omega

/-- **The device does not panic in the bring-up three boots in a row.** -/
theorem no_boot_loop (survives : List Bool) :
    ¬ List.replicate 3 Boot.crashed <:+: boots 0 survives := by
  suffices h : ∀ tries ≤ maxTries, ¬ List.replicate 3 Boot.crashed <:+: boots tries survives from
    h 0 (Nat.zero_le _)
  induction survives with
  | nil =>
    intro tries _ hinfix
    exact absurd hinfix.length_le (by rw [boots]; decide)
  | cons survive rest ih =>
    intro tries htries hinfix
    rcases List.infix_cons_iff.mp hinfix with hprefix | hrest
    · have hle := @crashes_le _ (survive :: rest) _ htries hprefix
      unfold maxTries at hle
      omega
    · refine ih _ ?_ hrest
      unfold bringUpGuarded
      split_ifs <;> dsimp only <;> omega

end LwipBridge
