/-
# The response of the device's own client

A server sends one byte stream and then a FIN, and the network loses, repeats and
reorders its segments.  The client appends the data that has the sequence number it
expects; but it takes a FIN at once, whatever its number is, so a FIN that overtakes the
data ends the connection with a part of the response (`fin_overtakes`).

`Sound` is what the buffer should be: a prefix of the stream, and all of it when the
client is done.  Where the data under the expected number is the data that comes next,
the client stays sound exactly along the runs whose FINs come last (`response_sound`);
for a stream of fewer than `2^32 - 1` bytes it is the data that comes next, provided that
none is under the number 0 before the SYN-ACK (`dataNext_of_short`).
-/
import PySpell.Lib.Runs
import PySpell.Outbound
import PySpell.TcpSession

open Tcp Runs

namespace Outbound

/-! ## Segments -/

/-- What the client reads of a packet. -/
structure Seg where
  seq : UInt32
  flags : UInt8
  payload : List UInt8

/-- The segment in a packet, by the lengths in its headers. -/
def segIn (inner : List UInt8) : Option Seg :=
  let ihl := (inner.getD 0 0).toNat % 16 * 4
  let total := u16At inner 2
  if total < ihl + 20 ∨ inner.length < total then none
  else
    let tcp := (inner.take total).drop ihl
    let dataOff := (tcp.getD 12 0).toNat / 16 * 4
    if dataOff < 20 ∨ tcp.length < dataOff then none
    else some ⟨u32At tcp 4, tcp.getD 13 0, tcp.drop dataOff⟩

/-- A packet that reads as one for a server reads as a segment. -/
theorem segIn_of_parsePacket {inner : List UInt8} {p : Packet} (h : parsePacket inner = some p) :
    segIn inner = some ⟨p.seq, p.flags, p.payload⟩ := by
  unfold parsePacket at h
  unfold segIn
  dsimp only at h ⊢
  by_cases hip : inner.length < 20 ∨ (inner.getD 0 0).toNat / 16 ≠ 4 ∨ inner.getD 9 0 ≠ protoTcp
  · rw [if_pos hip] at h
    cases h
  rw [if_neg hip] at h
  split at h
  · cases h
  next hlen =>
    rw [if_neg fun hbad => hlen (.inr hbad)]
    split at h
    · cases h
    next hdata =>
      rw [if_neg hdata, ← Option.some_inj.mp h]

/-! ## The server -/

/-- A server: the number before its first byte, and its bytes. -/
structure Server where
  isn : UInt32
  stream : List UInt8

/-- The segment is cut from the stream at an offset.  A SYN takes the number before the
first byte; a FIN stands behind the last one. -/
structure Server.CutAt (sv : Server) (off : ℕ) (s : Seg) : Prop where
  seq : s.seq = if s.flags &&& SYN ≠ 0 then sv.isn else sv.isn + 1 + UInt32.ofNat off
  syn : s.flags &&& SYN ≠ 0 → off = 0
  data : s.payload <+: sv.stream.drop off
  fin : s.flags &&& FIN ≠ 0 → off + s.payload.length = sv.stream.length

/-- A packet with a segment of the server, and where it is cut. -/
structure Arrival (sv : Server) where
  packet : List UInt8
  off : ℕ
  cut : ∀ ⦃s⦄, segIn packet = some s → sv.CutAt off s

/-- A packet that reads back as a segment of the server. -/
def Arrival.ofPacket {sv : Server} (p : Packet) (off : ℕ) (hread : parsePacket p.bytes = some p)
    (hcut : sv.CutAt off ⟨p.seq, p.flags, p.payload⟩) : Arrival sv :=
  ⟨p.bytes, off, fun s hs => by
    rw [segIn_of_parsePacket hread, Option.some_inj] at hs
    exact hs ▸ hcut⟩

namespace TcpClient

variable {sv : Server} {c : TcpClient} {inner : List UInt8}

/-! ## A step -/

/-- The segment is the answer to the SYN. -/
def Opens (c : TcpClient) (s : Seg) : Prop :=
  s.flags &&& SYN ≠ 0 ∧ s.flags &&& ACK ≠ 0 ∧ c.established = false

/-- The client takes a segment from the packet for its data and its FIN. -/
def Takes (c : TcpClient) (inner : List UInt8) (s : Seg) : Prop :=
  c.owns inner = true ∧ c.done = false ∧ segIn inner = some s ∧ ¬c.Opens s

/-- The client after the answer to its SYN. -/
def opened (c : TcpClient) (s : Seg) : TcpClient :=
  { c with
    rcvNxt := s.seq + 1
    established := true
    sndNxt := c.sndNxt + UInt32.ofNat c.request.length }

theorem onInner_closed (h : ¬(c.owns inner = true ∧ c.done = false)) :
    (c.onInner inner).1 = c := by
  have hguard : (!c.owns inner || c.done) = true := by
    rw [Bool.or_eq_true, Bool.not_eq_true', ← Bool.not_eq_true]
    by_contra hopen
    rw [not_or, not_not, Bool.not_eq_true] at hopen
    exact h hopen
  rw [onInner, if_pos hguard]

theorem onInner_open (howns : c.owns inner = true) (hdone : c.done = false) :
    (c.onInner inner).1 = (segIn inner).elim c fun s =>
      if s.flags &&& SYN ≠ 0 ∧ s.flags &&& ACK ≠ 0 ∧ c.established = false then c.opened s
      else (c.onSegment s.seq s.flags s.payload).1 := by
  have hguard : ¬(!c.owns inner || c.done) = true := by
    rw [howns, hdone]
    decide
  rw [onInner, if_neg hguard, segIn]
  dsimp only
  split
  · rfl
  split
  · rfl
  · rw [Option.elim_some]
    split <;> rfl

/-- **What a packet does to the client.** -/
theorem onInner_cases (c : TcpClient) (inner : List UInt8) :
    (c.onInner inner).1 = c ∧ (∀ s, ¬c.Takes inner s) ∨
      (∃ s, segIn inner = some s ∧ c.Opens s ∧ (c.onInner inner).1 = c.opened s) ∨
      ∃ s, c.Takes inner s ∧ (c.onInner inner).1 = (c.onSegment s.seq s.flags s.payload).1 := by
  by_cases hopen : c.owns inner = true ∧ c.done = false
  · have heq := onInner_open hopen.1 hopen.2
    cases hseg : segIn inner with
    | none =>
      refine .inl ⟨by rw [heq, hseg, Option.elim_none], fun s hs => ?_⟩
      cases hseg.symm.trans hs.2.2.1
    | some s =>
      rw [hseg, Option.elim_some] at heq
      by_cases hsyn : c.Opens s
      · exact .inr (.inl ⟨s, rfl, hsyn, heq.trans (if_pos hsyn)⟩)
      · exact .inr (.inr ⟨s, ⟨hopen.1, hopen.2, hseg, hsyn⟩, heq.trans (if_neg hsyn)⟩)
  · exact .inl ⟨onInner_closed hopen, fun s hs => hopen ⟨hs.1, hs.2.1⟩⟩

/-- The data of a segment after the SYN is appended if it has the expected number. -/
theorem response_onSegment (c : TcpClient) (seq : UInt32) (flags : UInt8) (payload : List UInt8) :
    (c.onSegment seq flags payload).1.response =
      if payload ≠ [] ∧ seq = c.rcvNxt then c.response ++ payload else c.response := by
  unfold onSegment
  by_cases hdata : payload = []
  · by_cases hfin : flags &&& FIN = 0 <;> simp [hdata, hfin]
  · by_cases hseq : seq = c.rcvNxt <;> by_cases hfin : flags &&& FIN = 0 <;>
      simp [hdata, hseq, hfin]

theorem done_onSegment (c : TcpClient) (seq : UInt32) (flags : UInt8) (payload : List UInt8) :
    (c.onSegment seq flags payload).1.done = (c.done || decide (flags &&& FIN ≠ 0)) := by
  unfold onSegment
  by_cases hdata : payload = []
  · by_cases hfin : flags &&& FIN = 0 <;> simp [hdata, hfin]
  · by_cases hseq : seq = c.rcvNxt <;> by_cases hfin : flags &&& FIN = 0 <;>
      simp [hdata, hseq, hfin]

/-! ## The response -/

/-- A packet comes in. -/
def step (c : TcpClient) (a : Arrival sv) : Option TcpClient := some (c.onInner a.packet).1

/-- **What the buffer should be.** -/
structure Sound (sv : Server) (c : TcpClient) : Prop where
  pre : c.response <+: sv.stream
  whole : c.done = true → c.response = sv.stream

/-- Data under the expected number is the data that comes next in the stream. -/
def DataNext (c : TcpClient) (a : Arrival sv) : Prop :=
  ∀ ⦃s⦄, c.Takes a.packet s → s.payload ≠ [] → s.seq = c.rcvNxt → a.off = c.response.length

/-- A FIN comes when the whole stream has come, or with the data that is expected. -/
def FinLast (c : TcpClient) (a : Arrival sv) : Prop :=
  ∀ ⦃s⦄, c.Takes a.packet s → s.flags &&& FIN ≠ 0 →
    c.response.length = sv.stream.length ∨ (s.payload ≠ [] ∧ s.seq = c.rcvNxt)

/-- The data that comes next keeps the buffer a prefix of the stream. -/
theorem prefix_onSegment {a : Arrival sv} {s : Seg} (hpre : c.response <+: sv.stream)
    (htakes : c.Takes a.packet s) (hdata : c.DataNext a) :
    (c.onSegment s.seq s.flags s.payload).1.response <+: sv.stream := by
  rw [response_onSegment]
  split
  next htake =>
    obtain ⟨rest, hrest⟩ := hpre
    have hnext := (a.cut htakes.2.2.1).data
    rw [hdata htakes htake.1 htake.2, ← hrest, List.drop_left] at hnext
    rw [← hrest]
    exact (List.prefix_append_right_inj _).mpr hnext
  · exact hpre

/-- A segment leaves a sound client sound exactly if its FIN comes last. -/
theorem sound_onSegment_iff {a : Arrival sv} {s : Seg} (hs : Sound sv c)
    (htakes : c.Takes a.packet s) (hdata : c.DataNext a) :
    Sound sv (c.onSegment s.seq s.flags s.payload).1 ↔ c.FinLast a := by
  obtain ⟨-, hopen, hseg, -⟩ := id htakes
  have hcut := a.cut hseg
  have honly : ∀ {s'}, c.Takes a.packet s' → s' = s := fun hs' =>
    Option.some.inj (hs'.2.2.1.symm.trans hseg)
  have hdone := c.done_onSegment s.seq s.flags s.payload
  rw [hopen, Bool.false_or] at hdone
  have hresponse := c.response_onSegment s.seq s.flags s.payload
  have hpre := prefix_onSegment hs.pre htakes hdata
  generalize (c.onSegment s.seq s.flags s.payload).1 = c' at hdone hresponse hpre ⊢
  have hwhole : c'.response = sv.stream ↔ c'.response.length = sv.stream.length :=
    ⟨fun h => congrArg List.length h, fun h => hpre.eq_of_length h⟩
  have hlength : s.flags &&& FIN ≠ 0 → (c'.response.length = sv.stream.length ↔
      c.response.length = sv.stream.length ∨ (s.payload ≠ [] ∧ s.seq = c.rcvNxt)) := by
    intro hfin
    rw [hresponse]
    split
    next htake =>
      refine iff_of_true ?_ (.inr htake)
      rw [List.length_append, ← hdata htakes htake.1 htake.2]
      exact hcut.fin hfin
    next htake => exact ⟨.inl, fun h => h.resolve_right htake⟩
  constructor
  · intro hsound s' hs' hfin
    obtain rfl := honly hs'
    exact (hlength hfin).mp (hwhole.mp (hsound.whole (hdone.trans (decide_eq_true hfin))))
  · refine fun hlast => ⟨hpre, fun h => ?_⟩
    have hfin := of_decide_eq_true (hdone.symm.trans h)
    exact hwhole.mpr ((hlength hfin).mpr (hlast htakes hfin))

/-- A packet leaves a sound client sound exactly if its FIN comes last. -/
theorem sound_step_iff (a : Arrival sv) (hs : Sound sv c) (hdata : c.DataNext a) :
    ∃ c', c.step a = some c' ∧ (Sound sv c' ↔ c.FinLast a) := by
  refine ⟨_, rfl, ?_⟩
  rcases c.onInner_cases a.packet with ⟨heq, hnone⟩ | ⟨s, hseg, hopens, heq⟩ | ⟨s, htakes, heq⟩
  · rw [heq]
    exact iff_of_true hs fun s h => absurd h (hnone s)
  · rw [heq]
    refine iff_of_true ⟨hs.pre, hs.whole⟩ fun s' h => ?_
    rw [Option.some.inj (h.2.2.1.symm.trans hseg)] at h
    exact absurd hopens h.2.2.2
  · rw [heq]
    exact sound_onSegment_iff hs htakes hdata

/-! ## Short streams -/

theorem established_onSegment (c : TcpClient) (seq : UInt32) (flags : UInt8)
    (payload : List UInt8) : (c.onSegment seq flags payload).1.established = c.established := by
  unfold onSegment
  by_cases hdata : payload = []
  · by_cases hfin : flags &&& FIN = 0 <;> simp [hdata, hfin]
  · by_cases hseq : seq = c.rcvNxt <;> by_cases hfin : flags &&& FIN = 0 <;>
      simp [hdata, hseq, hfin]

/-- Without a FIN, the expected number goes on with the data that is appended. -/
theorem rcvNxt_onSegment (c : TcpClient) (seq : UInt32) {flags : UInt8} (payload : List UInt8)
    (hfin : flags &&& FIN = 0) :
    (c.onSegment seq flags payload).1.rcvNxt =
      if payload ≠ [] ∧ seq = c.rcvNxt then c.rcvNxt + UInt32.ofNat payload.length
      else c.rcvNxt := by
  unfold onSegment
  by_cases hdata : payload = []
  · simp [hdata, hfin]
  · by_cases hseq : seq = c.rcvNxt <;> simp [hdata, hseq, hfin]

/-- The expected number counts the bytes of the buffer; before the SYN-ACK it is 0. -/
structure Numbered (sv : Server) (c : TcpClient) : Prop where
  pre : c.response <+: sv.stream
  early : c.done = false → c.established = false → c.rcvNxt = 0 ∧ c.response = []
  late : c.done = false → c.established = true →
    c.rcvNxt = sv.isn + 1 + UInt32.ofNat c.response.length

/-- Data under the number 0 does not come before the SYN-ACK. -/
def NotEarly (c : TcpClient) (a : Arrival sv) : Prop :=
  ∀ ⦃s⦄, c.Takes a.packet s → c.established = false → s.payload ≠ [] → s.seq ≠ 0

theorem Numbered.dataNext (hlen : sv.stream.length + 1 < 2 ^ 32) (h : Numbered sv c)
    {a : Arrival sv} (hearly : c.NotEarly a) : c.DataNext a := by
  intro s htakes hdata hseq
  have hcut := a.cut htakes.2.2.1
  cases hest : c.established with
  | false =>
    rw [(h.early htakes.2.1 hest).1] at hseq
    exact absurd hseq (hearly htakes hest hdata)
  | true =>
    have hn := h.pre.length_le
    have hoff : a.off ≤ sv.stream.length := by
      by_contra hfar
      have hnil := hcut.data
      rw [List.drop_eq_nil_of_le (by omega), List.prefix_nil] at hnil
      exact hdata hnil
    rw [h.late htakes.2.1 hest, hcut.seq] at hseq
    split at hseq
    · -- the number of a SYN is that of no byte
      have hzero : (0 : UInt32) = 1 + UInt32.ofNat c.response.length := by
        rw [← UInt32.add_right_inj sv.isn, UInt32.add_zero, ← UInt32.add_assoc]
        exact hseq
      have hnat := congrArg UInt32.toNat hzero
      rw [UInt32.toNat_add, UInt32.toNat_ofNat'] at hnat
      have hone : (1 : UInt32).toNat = 1 := rfl
      have hz : (0 : UInt32).toNat = 0 := rfl
      omega
    · have hnat := congrArg UInt32.toNat ((UInt32.add_right_inj _).mp hseq)
      rw [UInt32.toNat_ofNat', UInt32.toNat_ofNat'] at hnat
      omega

theorem Numbered.onSegment {a : Arrival sv} {s : Seg} (h : Numbered sv c)
    (htakes : c.Takes a.packet s) (hearly : c.NotEarly a) (hdata : c.DataNext a) :
    Numbered sv (c.onSegment s.seq s.flags s.payload).1 := by
  have hopen := htakes.2.1
  have hpre := prefix_onSegment h.pre htakes hdata
  have hresponse := c.response_onSegment s.seq s.flags s.payload
  have hest := c.established_onSegment s.seq s.flags s.payload
  have hrcv : (c.onSegment s.seq s.flags s.payload).1.done = false →
      (c.onSegment s.seq s.flags s.payload).1.rcvNxt =
        if s.payload ≠ [] ∧ s.seq = c.rcvNxt then c.rcvNxt + UInt32.ofNat s.payload.length
        else c.rcvNxt := by
    intro hdone
    rw [done_onSegment, Bool.or_eq_false_iff, decide_eq_false_iff_not, not_not] at hdone
    exact c.rcvNxt_onSegment s.seq s.payload hdone.2
  generalize (c.onSegment s.seq s.flags s.payload).1 = c' at hpre hresponse hest hrcv ⊢
  by_cases htake : s.payload ≠ [] ∧ s.seq = c.rcvNxt
  · rw [if_pos htake] at hresponse hrcv
    -- data is taken only after the SYN-ACK
    have hlate : c.established = true := by
      by_contra hnot
      rw [Bool.not_eq_true] at hnot
      rw [(h.early hopen hnot).1] at htake
      exact hearly htakes hnot htake.1 htake.2
    refine ⟨hpre, fun _ hnot => ?_, fun hdone _ => ?_⟩
    · rw [hest, hlate] at hnot
      cases hnot
    · rw [hrcv hdone, hresponse, h.late hopen hlate, List.length_append, UInt32.ofNat_add,
        UInt32.add_assoc (sv.isn + 1)]
  · rw [if_neg htake] at hresponse hrcv
    refine ⟨hpre, fun hdone hnot => ?_, fun hdone hyes => ?_⟩
    · rw [hrcv hdone, hresponse]
      exact h.early hopen (hest.symm.trans hnot)
    · rw [hrcv hdone, hresponse]
      exact h.late hopen (hest.symm.trans hyes)

theorem Numbered.onInner (hlen : sv.stream.length + 1 < 2 ^ 32) (h : Numbered sv c)
    {a : Arrival sv} (hearly : c.NotEarly a) : Numbered sv (c.onInner a.packet).1 := by
  rcases c.onInner_cases a.packet with ⟨heq, -⟩ | ⟨s, hseg, hopens, heq⟩ | ⟨s, htakes, heq⟩
  · rw [heq]
    exact h
  · rw [heq]
    refine ⟨h.pre, fun _ hest => Bool.noConfusion hest, fun hopen _ => ?_⟩
    show s.seq + 1 = sv.isn + 1 + UInt32.ofNat c.response.length
    rw [(a.cut hseg).seq, if_pos hopens.1, (h.early hopen hopens.2.2).2]
    exact (UInt32.add_zero _).symm
  · rw [heq]
    exact h.onSegment htakes hearly (h.dataNext hlen hearly)

/-- **The data of a short stream is the data that comes next.** -/
theorem dataNext_of_short (hlen : sv.stream.length + 1 < 2 ^ 32) {arrivals : List (Arrival sv)}
    (hc : Numbered sv c) (hearly : Along TcpClient.step NotEarly c arrivals) :
    Along TcpClient.step DataNext c arrivals := by
  have hstep : ∀ (c : TcpClient) (a : Arrival sv) (c' : TcpClient), Numbered sv c →
      c.NotEarly a → c.step a = some c' → Numbered sv c' := by
    rintro c a _ h he ⟨⟩
    exact h.onInner hlen he
  exact along_of_inv hstep (fun _ _ h he => h.dataNext hlen he) hc hearly

/-- A client that has sent its SYN. -/
def start (src dst : Ip) (sport dport : ℕ) (request : List UInt8) (rand : UInt32) : TcpClient :=
  (new src dst sport dport request rand).openConn.1

theorem numbered_start (src dst : Ip) (sport dport : ℕ) (request : List UInt8) (rand : UInt32)
    (sv : Server) : Numbered sv (start src dst sport dport request rand) :=
  ⟨List.nil_prefix, fun _ _ => ⟨rfl, rfl⟩, fun _ hest => Bool.noConfusion hest⟩

/-! ## FINs that come last, and one that overtakes the data -/

/-- A server that says `hi`. -/
def hiServer : Server := ⟨1000, [104, 105]⟩

/-- A segment of the server for port 5000. -/
def hiPacket (s : Seg) : Packet :=
  { srcIp := ⟨100, 64, 0, 2⟩, dstIp := ⟨100, 64, 0, 1⟩, sport := 80, dport := 5000, seq := s.seq,
    ack := 2, flags := s.flags, win := 64240, payload := s.payload }

theorem hiPacket_reads {off : ℕ} {s : Seg} (hcut : hiServer.CutAt off s) :
    parsePacket (hiPacket s).bytes = some (hiPacket s) := by
  have hlen := hcut.data.length_le
  have htwo : hiServer.stream.length = 2 := rfl
  rw [List.length_drop, htwo] at hlen
  have htotal : 40 + (hiPacket s).payload.length < 65536 := by
    show 40 + s.payload.length < 65536
    omega
  have hport : 80 < 65536 ∧ 5000 < 65536 ∧ 64240 < 65536 := by decide
  exact parsePacket_bytes htotal hport.1 hport.2.1 hport.2.2

def hiArrival (off : ℕ) (s : Seg) (hcut : hiServer.CutAt off s) : Arrival hiServer :=
  .ofPacket (hiPacket s) off (hiPacket_reads hcut) hcut

def synAck : Arrival hiServer :=
  hiArrival 0 ⟨1000, SYN ||| ACK, []⟩ ⟨rfl, fun _ => rfl, List.nil_prefix, by decide⟩

def lateFin : Arrival hiServer :=
  hiArrival 2 ⟨1003, FIN ||| ACK, []⟩ ⟨rfl, by decide, List.nil_prefix, fun _ => rfl⟩

def dataFin : Arrival hiServer :=
  hiArrival 0 ⟨1001, FIN ||| ACK, [104, 105]⟩ ⟨rfl, fun _ => rfl, List.prefix_refl _, fun _ => rfl⟩

def hiStart : TcpClient := start ⟨100, 64, 0, 1⟩ ⟨100, 64, 0, 2⟩ 5000 80 [71] 1

/-- **The response is sound exactly along the runs whose FINs come last.** -/
theorem response_sound (src dst : Ip) (sport dport : ℕ) (request : List UInt8) (rand : UInt32)
    (sv : Server) (arrivals : List (Arrival sv))
    (hdata : Along step DataNext (start src dst sport dport request rand) arrivals) :
    Throughout step (Sound sv) (start src dst sport dport request rand) arrivals ↔
      Along step FinLast (start src dst sport dport request rand) arrivals := by
  have hstart : Sound sv (start src dst sport dport request rand) :=
    ⟨List.nil_prefix, Bool.noConfusion⟩
  exact throughout_iff_along_of (fun _ a hs hd => sound_step_iff a hs hd) hstart hdata

theorem notEarly_hi (c : TcpClient) {off : ℕ} {s : Seg} (hcut : hiServer.CutAt off s)
    (hseq : s.seq ≠ 0) : c.NotEarly (hiArrival off s hcut) := by
  intro s' htakes _ _
  have hseg := segIn_of_parsePacket (hiPacket_reads hcut)
  rw [Option.some.inj (htakes.2.2.1.symm.trans hseg)]
  exact hseq

theorem response_sound_hi :
    Throughout step (Sound hiServer) hiStart [synAck, dataFin] ↔
      Along step FinLast hiStart [synAck, dataFin] :=
  response_sound ⟨100, 64, 0, 1⟩ ⟨100, 64, 0, 2⟩ 5000 80 [71] 1 hiServer [synAck, dataFin]
    (dataNext_of_short (by decide) (numbered_start ..)
      (along_cons_of_step (notEarly_hi _ _ (by decide)) rfl
        (along_cons_of_step (notEarly_hi _ _ (by decide)) rfl trivial)))

example : (run step hiStart [synAck, dataFin]).map (fun c => (c.response, c.done)) =
    some ([104, 105], true) := rfl

/-- **A FIN that overtakes the data ends the connection without it.** -/
theorem fin_overtakes : ¬Throughout step (Sound hiServer) hiStart [synAck, lateFin] := by
  intro h
  have hrun : (run step hiStart [synAck, lateFin]).map (fun c => (c.response, c.done)) =
    some ([], true) := rfl
  obtain ⟨c, hc, heq⟩ := Option.map_eq_some_iff.mp hrun
  obtain ⟨hresponse, hdone⟩ := Prod.mk.inj heq
  have hwhole := (h _ c (List.prefix_refl _) hc).whole hdone
  rw [hresponse] at hwhole
  cases hwhole

end TcpClient

end Outbound
