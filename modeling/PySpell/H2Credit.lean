/-
# The credit of the connection

The server may send as many DATA bytes as the client has given it credit for.  `credit`
is the sum of the client's window updates on the connection, `dataBytes` what came in as
DATA, and a session is `Balanced` when they agree on the frames that were read.

A reading loop gives credit for the DATA frames of its own stream (`Reader.owns`) and
reads the others away.  So a run is balanced throughout exactly if every DATA frame is
read by a loop that owns it, and none comes in before the settings of the server
(`credit_balanced`).
-/
import PySpell.Lib.Runs
import PySpell.H2

open Text

namespace NetMap.H2

/-! ## Credit and payloads -/

/-- The credit that a frame of the client gives to the connection. -/
def increment (fr : Frame) : ℕ :=
  if fr.typ = ftWindowUpdate ∧ fr.streamId = 0 then Bytes.toNatBe fr.payload else 0

def credit (frames : List Frame) : ℕ := (frames.map increment).sum

/-- The bytes of a DATA frame, padding included. -/
def payloadBytes (fr : Frame) : ℕ := if fr.typ = ftData then fr.payload.length else 0

def Read.bytes : Read → ℕ
  | .frame fr => payloadBytes fr.val
  | .failed _ => 0

def dataBytes (reads : List Read) : ℕ := (reads.map Read.bytes).sum

/-- The client gave credit for every DATA byte that it read, and for no other. -/
def Balanced (all : List Read) (s : Session) : Prop :=
  ∃ consumed, all = consumed ++ s.reads ∧ credit s.sent = dataBytes consumed

@[simp] theorem credit_nil : credit [] = 0 := rfl

@[simp] theorem credit_append (a b : List Frame) : credit (a ++ b) = credit a + credit b := by
  rw [credit, List.map_append, List.sum_append]
  rfl

theorem dataBytes_append (a b : List Read) : dataBytes (a ++ b) = dataBytes a + dataBytes b := by
  rw [dataBytes, List.map_append, List.sum_append]
  rfl

@[simp] theorem credit_ackSettings (fr : Frame) : credit (ackSettings fr) = 0 := by
  rw [ackSettings]
  split
  · rfl
  · rfl

/-- The ids of streams are not the connection's. -/
theorem streamId_ne_zero (sid : StreamId) : sid.val &&& 0x7fffffff ≠ 0 := by
  intro h
  have hodd := sid.property
  have hmask := congrArg UInt32.toNat h
  have hlow : (0x7fffffff : UInt32).toNat = 2 ^ 31 - 1 := rfl
  rw [UInt32.toNat_and, hlow, Nat.and_two_pow_sub_one_eq_mod] at hmask
  have hzero : (0 : UInt32).toNat = 0 := rfl
  omega

/-- A window update gives the connection its increment once. -/
theorem credit_windowUpdate (sid : StreamId) {n : ℕ} (h : n < 2 ^ 24) :
    credit (windowUpdate sid (UInt32.ofNat n)) = n := by
  have hn : (UInt32.ofNat n).toNat = n := UInt32.toNat_ofNat_of_lt' (h.trans (by decide))
  have hbytes : Bytes.toNatBe (Bytes.ofNatBe 4 n) = n :=
    Bytes.toNatBe_ofNatBe (h.trans (by decide))
  have hstream : increment (frame ftWindowUpdate 0 sid (Bytes.ofNatBe 4 n)) = 0 :=
    if_neg fun hconn => streamId_ne_zero sid hconn.2
  have hconn : increment (frame ftWindowUpdate 0 0 (Bytes.ofNatBe 4 n)) = n := by
    rw [increment, if_pos ⟨rfl, rfl⟩]
    exact hbytes
  rw [windowUpdate, hn, credit, List.map_cons, List.map_cons, hstream, hconn]
  simp

/-! ## Reading loops -/

/-- What a reading loop takes as its own, and the frames that end it. -/
structure Reader where
  owns : Frame → Bool
  stops : Frame → Bool

/-- The frames that a loop reads: up to the first that ends it. -/
def Reader.taken (r : Reader) : List Read → List Read
  | [] => []
  | .failed message :: _ => [.failed message]
  | .frame fr :: rest =>
    if r.stops fr.val then [.frame fr] else .frame fr :: r.taken rest

/-- Every DATA frame that the loop reads is its own, or empty. -/
def Reader.Keeps (r : Reader) (reads : List Read) : Prop :=
  ∀ fr, .frame fr ∈ r.taken reads → fr.val.typ = ftData → fr.val.payload ≠ [] →
    r.owns fr.val = true

/-- The loop of `start`. -/
def startReader : Reader where
  owns _ := false
  stops fr := fr.typ = ftSettings || fr.typ = ftGoaway

/-- The loop of `read_data`. -/
def dataReader (sid : StreamId) : Reader where
  owns fr := fr.streamId = sid
  stops fr :=
    if fr.typ = ftData then fr.streamId = sid && (fr.payload ≠ [] || fr.endsStream)
    else fr.typ = ftHeaders && fr.endsStream || fr.typ = ftGoaway

/-- The loop of `read_response_chunk`. -/
def chunkReader (sid : StreamId) : Reader where
  owns fr := !fr.isOther sid
  stops fr := !fr.isOther sid &&
    if fr.typ = ftData then fr.payload ≠ [] || fr.endsStream
    else fr.typ = ftHeaders && fr.endsStream || fr.typ = ftGoaway

/-- The loop of `read_response`. -/
def responseReader (sid : StreamId) : Reader where
  owns fr := !fr.isOther sid
  stops fr := !fr.isOther sid &&
    if fr.typ = ftData then fr.endsStream
    else fr.typ = ftHeaders && fr.endsStream || fr.typ = ftGoaway

def Next.isAgain {σ α : Type} : Next σ α → Bool
  | .again _ => true
  | .done _ => false
  | .fail _ => false

/-- A step of the loop gives credit for the payload of its own frames, and ends the loop
on the frames that it says. -/
structure Reader.Describes {σ α : Type} (r : Reader) (step : σ → Frame → List Frame × Next σ α) :
    Prop where
  gives : ∀ s (fr : WireFrame), credit (step s fr.val).1 =
    if r.owns fr.val then payloadBytes fr.val else 0
  ends : ∀ s fr, (step s fr).2.isAgain = !r.stops fr

/-! ### What a reader takes off the wire -/

/-- The kinds of frames that the loops tell apart. -/
theorem kind_cases (fr : Frame) :
    fr.typ = ftData ∨ fr.typ = ftHeaders ∨ fr.typ = ftSettings ∨ fr.typ = ftGoaway ∨
      (fr.typ ≠ ftData ∧ fr.typ ≠ ftHeaders ∧ fr.typ ≠ ftSettings ∧ fr.typ ≠ ftGoaway) := by
  tauto

theorem payloadBytes_of_data {fr : Frame} (h : fr.typ = ftData) :
    payloadBytes fr = fr.payload.length := if_pos h

theorem payloadBytes_of_ne {fr : Frame} (h : fr.typ ≠ ftData) : payloadBytes fr = 0 := if_neg h

theorem startReader_describes : startReader.Describes startStep where
  gives s fr := by
    rcases kind_cases fr.val with h | h | h | h | ⟨hd, hh, hs, hg⟩
    · simp [startStep, startReader, h, ftData, ftHeaders, ftSettings, ftGoaway, ftWindowUpdate]
    · simp [startStep, startReader, h, ftData, ftHeaders, ftSettings, ftGoaway, ftWindowUpdate]
    · simp [startStep, startReader, h, ftSettings]
    · simp [startStep, startReader, h, ftData, ftHeaders, ftSettings, ftGoaway, ftWindowUpdate]
    · simp [startStep, startReader, hd, hh, hs, hg]
  ends s fr := by
    rcases kind_cases fr with h | h | h | h | ⟨hd, hh, hs, hg⟩
    · simp [startStep, startReader, h, Next.isAgain, ftData, ftHeaders, ftSettings, ftGoaway]
    · simp [startStep, startReader, h, Next.isAgain, ftData, ftHeaders, ftSettings, ftGoaway]
    · simp [startStep, startReader, h, Next.isAgain, ftSettings, ftGoaway]
    · simp [startStep, startReader, h, Next.isAgain, ftData, ftHeaders, ftSettings, ftGoaway,
        ftWindowUpdate]
    · simp [startStep, startReader, hd, hh, hs, hg, Next.isAgain]

theorem dataReader_describes (sid : StreamId) : (dataReader sid).Describes (dataStep sid) where
  gives s fr := by
    rcases kind_cases fr.val with h | h | h | h | ⟨hd, hh, hs, hg⟩
    · have hpayload := payloadBytes_of_data h
      by_cases hown : fr.val.streamId = sid
      · by_cases hempty : fr.val.payload = []
        · cases hend : fr.val.endsStream <;> simp [dataStep, hpayload, h, hown, hempty, hend]
        · simp [dataStep, dataReader, hpayload, h, hown, hempty, credit_windowUpdate sid fr.property]
      · simp [dataStep, dataReader, h, hown, ftData, ftHeaders, ftSettings, ftGoaway]
    · have hpayload : payloadBytes fr.val = 0 := payloadBytes_of_ne (by rw [h]; decide)
      cases hend : fr.val.endsStream <;> simp [dataStep, hpayload, h, hend, ftData, ftHeaders]
    · have hpayload : payloadBytes fr.val = 0 := payloadBytes_of_ne (by rw [h]; decide)
      simp [dataStep, hpayload, h, ftData, ftHeaders, ftSettings]
    · have hpayload : payloadBytes fr.val = 0 := payloadBytes_of_ne (by rw [h]; decide)
      simp [dataStep, hpayload, h, ftData, ftHeaders, ftSettings, ftGoaway]
    · simp [dataStep, payloadBytes_of_ne hd, hd, hh, hs, hg]
  ends s fr := by
    rcases kind_cases fr with h | h | h | h | ⟨hd, hh, hs, hg⟩
    · by_cases hown : fr.streamId = sid
      · by_cases hempty : fr.payload = []
        · cases hend : fr.endsStream <;>
            simp [dataStep, dataReader, h, hown, hempty, hend, Next.isAgain]
        · simp [dataStep, dataReader, h, hown, hempty, Next.isAgain]
      · simp [dataStep, dataReader, h, hown, Next.isAgain, ftData, ftHeaders, ftSettings, ftGoaway]
    · cases hend : fr.endsStream <;>
        simp [dataStep, dataReader, h, hend, Next.isAgain, ftData, ftHeaders, ftGoaway]
    · simp [dataStep, dataReader, h, Next.isAgain, ftData, ftHeaders, ftSettings, ftGoaway]
    · simp [dataStep, dataReader, h, Next.isAgain, ftData, ftHeaders, ftSettings, ftGoaway]
    · simp [dataStep, dataReader, hd, hh, hs, hg, Next.isAgain]

theorem chunkReader_describes (sid : StreamId) : (chunkReader sid).Describes (chunkStep sid) where
  gives s fr := by
    by_cases hother : fr.val.isOther sid
    · simp [chunkStep, chunkReader, hother]
    · rcases kind_cases fr.val with h | h | h | h | ⟨hd, hh, hs, hg⟩
      · have hpayload := payloadBytes_of_data h
        by_cases hempty : fr.val.payload = []
        · cases hend : fr.val.endsStream <;>
            simp [chunkStep, hpayload, h, hother, hempty, hend, ftData, ftHeaders]
        · simp [chunkStep, chunkReader, hpayload, h, hother, hempty,
            credit_windowUpdate sid fr.property, ftData, ftHeaders]
      · have hpayload : payloadBytes fr.val = 0 := payloadBytes_of_ne (by rw [h]; decide)
        cases hend : fr.val.endsStream <;> simp [chunkStep, hpayload, h, hother, hend]
      · have hpayload : payloadBytes fr.val = 0 := payloadBytes_of_ne (by rw [h]; decide)
        simp [chunkStep, hpayload, h, hother, ftData, ftHeaders, ftSettings]
      · have hpayload : payloadBytes fr.val = 0 := payloadBytes_of_ne (by rw [h]; decide)
        simp [chunkStep, hpayload, h, hother, ftData, ftHeaders, ftSettings, ftGoaway]
      · simp [chunkStep, payloadBytes_of_ne hd, hother, hd, hh, hs, hg]
  ends s fr := by
    by_cases hother : fr.isOther sid
    · simp [chunkStep, chunkReader, hother, Next.isAgain]
    · rcases kind_cases fr with h | h | h | h | ⟨hd, hh, hs, hg⟩
      · by_cases hempty : fr.payload = []
        · cases hend : fr.endsStream <;>
            simp [chunkStep, chunkReader, h, hother, hempty, hend, Next.isAgain, ftData, ftHeaders]
        · simp [chunkStep, chunkReader, h, hother, hempty, Next.isAgain, ftData, ftHeaders]
      · cases hend : fr.endsStream <;>
          simp [chunkStep, chunkReader, h, hother, hend, Next.isAgain, ftData, ftHeaders, ftGoaway]
      · simp [chunkStep, chunkReader, h, hother, Next.isAgain, ftData, ftHeaders, ftSettings,
          ftGoaway]
      · simp [chunkStep, chunkReader, h, hother, Next.isAgain, ftData, ftHeaders, ftSettings,
          ftGoaway]
      · simp [chunkStep, chunkReader, hother, hd, hh, hs, hg, Next.isAgain]

theorem responseReader_describes (sid : StreamId) :
    (responseReader sid).Describes (responseStep sid) where
  gives s fr := by
    by_cases hother : fr.val.isOther sid
    · simp [responseStep, responseReader, hother]
    · rcases kind_cases fr.val with h | h | h | h | ⟨hd, hh, hs, hg⟩
      · have hpayload := payloadBytes_of_data h
        by_cases hempty : fr.val.payload = []
        · cases hend : fr.val.endsStream <;>
            simp [responseStep, hpayload, h, hother, hempty, hend, ftData, ftHeaders]
        · cases hend : fr.val.endsStream <;>
            simp [responseStep, responseReader, hpayload, h, hother, hempty, hend,
              credit_windowUpdate sid fr.property, ftData, ftHeaders]
      · have hpayload : payloadBytes fr.val = 0 := payloadBytes_of_ne (by rw [h]; decide)
        cases hend : fr.val.endsStream <;> simp [responseStep, hpayload, h, hother, hend]
      · have hpayload : payloadBytes fr.val = 0 := payloadBytes_of_ne (by rw [h]; decide)
        simp [responseStep, hpayload, h, hother, ftData, ftHeaders, ftSettings]
      · have hpayload : payloadBytes fr.val = 0 := payloadBytes_of_ne (by rw [h]; decide)
        simp [responseStep, hpayload, h, hother, ftData, ftHeaders, ftSettings, ftGoaway]
      · simp [responseStep, payloadBytes_of_ne hd, hother, hd, hh, hs, hg]
  ends s fr := by
    by_cases hother : fr.isOther sid
    · simp [responseStep, responseReader, hother, Next.isAgain]
    · rcases kind_cases fr with h | h | h | h | ⟨hd, hh, hs, hg⟩
      · cases hend : fr.endsStream <;>
          simp [responseStep, responseReader, h, hother, hend, Next.isAgain, ftData, ftHeaders]
      · cases hend : fr.endsStream <;>
          simp [responseStep, responseReader, h, hother, hend, Next.isAgain, ftData, ftHeaders,
            ftGoaway]
      · simp [responseStep, responseReader, h, hother, Next.isAgain, ftData, ftHeaders,
          ftSettings, ftGoaway]
      · simp [responseStep, responseReader, h, hother, Next.isAgain, ftData, ftHeaders,
          ftSettings, ftGoaway]
      · simp [responseStep, responseReader, hother, hd, hh, hs, hg, Next.isAgain]

/-! ## Loops -/

/-- The bytes of the frames that a loop owns. -/
def Reader.ownBytes (r : Reader) : Read → ℕ
  | .frame fr => if r.owns fr.val then payloadBytes fr.val else 0
  | .failed _ => 0

/-- **A loop gives credit for its own frames.**  What it reads is `taken`. -/
theorem readLoop_credit {σ α : Type} {r : Reader} {step : σ → Frame → List Frame × Next σ α}
    (h : r.Describes step) (closed : String) {reads : List Read} : ∀ {s : σ},
    r.taken reads ++ (readLoop step closed s reads).2.2 = reads ∧
      credit (readLoop step closed s reads).2.1 = ((r.taken reads).map r.ownBytes).sum := by
  induction reads with
  | nil => exact ⟨rfl, rfl⟩
  | cons read rest ih =>
    intro s
    cases read with
    | failed message => exact ⟨rfl, rfl⟩
    | frame fr =>
      have hgives := h.gives s fr
      have hends := h.ends s fr.val
      rw [Reader.taken, readLoop]
      rcases hs : step s fr.val with ⟨out, s' | a | message⟩
      · -- the loop goes on
        rw [hs] at hgives hends
        have hstop : r.stops fr.val = false := by simpa [Next.isAgain] using hends
        obtain ⟨hrest, hcredit⟩ := @ih s'
        rw [hstop, if_neg Bool.false_ne_true]
        dsimp only at hgives ⊢
        rw [credit_append, hgives, hcredit, List.map_cons, List.sum_cons]
        refine ⟨?_, rfl⟩
        rw [List.cons_append, hrest]
      · rw [hs] at hgives hends
        have hstop : r.stops fr.val = true := by simpa [Next.isAgain] using hends
        rw [hstop, if_pos rfl]
        dsimp only at hgives ⊢
        rw [hgives]
        refine ⟨rfl, ?_⟩
        simp [Reader.ownBytes]
      · rw [hs] at hgives hends
        have hstop : r.stops fr.val = true := by simpa [Next.isAgain] using hends
        rw [hstop, if_pos rfl]
        dsimp only at hgives ⊢
        rw [hgives]
        refine ⟨rfl, ?_⟩
        simp [Reader.ownBytes]

/-- What a loop owns is at most what it reads, and as much only if it owns every payload. -/
theorem ownBytes_le (r : Reader) (reads : List Read) :
    (reads.map r.ownBytes).sum ≤ dataBytes reads ∧
      ((reads.map r.ownBytes).sum = dataBytes reads ↔
        ∀ read ∈ reads, r.ownBytes read = read.bytes) := by
  induction reads with
  | nil => exact ⟨Nat.le_refl 0, iff_of_true rfl fun _ h => absurd h List.not_mem_nil⟩
  | cons read rest ih =>
    obtain ⟨hle, hiff⟩ := ih
    have hhead : r.ownBytes read ≤ read.bytes := by
      cases read with
      | failed message => exact Nat.le_refl 0
      | frame fr =>
        rw [Reader.ownBytes, Read.bytes]
        split
        · exact Nat.le_refl _
        · exact Nat.zero_le _
    rw [dataBytes] at hle hiff ⊢
    simp only [List.map_cons, List.sum_cons, List.forall_mem_cons, ← hiff]
    omega

theorem keeps_iff (r : Reader) (reads : List Read) :
    r.Keeps reads ↔ ((r.taken reads).map r.ownBytes).sum = dataBytes (r.taken reads) := by
  rw [(ownBytes_le r (r.taken reads)).2]
  constructor
  · intro h read hread
    cases read with
    | failed message => rfl
    | frame fr =>
      rw [Reader.ownBytes, Read.bytes]
      by_cases hdata : fr.val.typ = ftData
      · by_cases hempty : fr.val.payload = []
        · rw [payloadBytes_of_data hdata, hempty]
          exact ite_self 0
        · rw [if_pos (h fr hread hdata hempty)]
      · rw [payloadBytes_of_ne hdata, ite_self]
  · intro h fr hfr hdata hpayload
    have hown := h (.frame fr) hfr
    by_contra hnot
    rw [Reader.ownBytes, Read.bytes, if_neg hnot, payloadBytes_of_data hdata] at hown
    exact hpayload (List.length_eq_zero_iff.mp hown.symm)

/-- **A loop keeps the balance if and only if it owns the payloads that it reads.** -/
theorem balanced_read {σ α : Type} {r : Reader} {step : σ → Frame → List Frame × Next σ α}
    (h : r.Describes step) {all : List Read} {s : Session} (hs : Balanced all s) (init : σ) :
    Balanced all (s.read step init).2 ↔ r.Keeps s.reads := by
  obtain ⟨consumed, hall, hcredit⟩ := hs
  obtain ⟨hrest, hout⟩ := @readLoop_credit _ _ _ _ h s.closed s.reads init
  have hsent : (s.read step init).2.sent =
      s.sent ++ (readLoop step s.closed init s.reads).2.1 := rfl
  have hreads : (s.read step init).2.reads = (readLoop step s.closed init s.reads).2.2 := rfl
  have hsplit : all = consumed ++ r.taken s.reads ++ (s.read step init).2.reads := by
    rw [List.append_assoc, hreads, hrest, hall]
  rw [keeps_iff]
  constructor
  · rintro ⟨consumed', hall', hcredit'⟩
    have heq : consumed' = consumed ++ r.taken s.reads :=
      List.append_cancel_right (hall'.symm.trans hsplit)
    rw [heq, dataBytes_append, hsent, credit_append, hcredit, hout] at hcredit'
    omega
  · intro hkeeps
    refine ⟨consumed ++ r.taken s.reads, hsplit, ?_⟩
    rw [dataBytes_append, hsent, credit_append, hcredit, hout, hkeeps]

/-- The status and the body do not matter. -/
theorem balanced_readResponse {all : List Read} {s : Session} (hs : Balanced all s)
    (sid : StreamId) :
    Balanced all (readResponse sid s).2 ↔ (responseReader sid).Keeps s.reads := by
  have hstate : (readResponse sid s).2 = (s.read (responseStep sid) (0, [])).2 := by
    rw [readResponse]
    rcases s.read (responseStep sid) (0, []) with ⟨message | ⟨status, body⟩, s'⟩
    · rfl
    · rfl
  rw [hstate]
  exact balanced_read (responseReader_describes sid) hs (0, [])

/-- A request gives no credit. -/
theorem balanced_send {all : List Read} {s : Session} (hs : Balanced all s) (sid : StreamId)
    {frames : List Frame} (hframes : credit frames = 0) :
    Balanced all ({ s with nextStream := sid }.send frames) := by
  obtain ⟨consumed, hall, hcredit⟩ := hs
  refine ⟨consumed, hall, ?_⟩
  change credit (s.sent ++ frames) = dataBytes consumed
  rw [credit_append, hframes, hcredit, Nat.add_zero]

/-! ## Runs -/

/-- A call on a session. -/
inductive Call where
  | postJson (path : String) (body : List UInt8)
  | postStream (path : String) (body : List UInt8)
  | readData (sid : StreamId)
  | readResponseChunk (sid : StreamId)

def Call.run : Call → Session → Session
  | .postJson path body, s => (H2.postJson path body s).2
  | .postStream path body, s => (H2.postStream path body s).2
  | .readData sid, s => (H2.readData sid s).2
  | .readResponseChunk sid, s => (H2.readResponseChunk sid s).2

/-- A session is used by one call after the other, also when one fails. -/
def step (s : Session) (c : Call) : Option Session := some (c.run s)

/-- The DATA frames that the call reads away are those of the stream that it reads. -/
def Kept (s : Session) : Call → Prop
  | .postJson _ _ => (responseReader s.nextStream).Keeps s.reads
  | .postStream _ _ => True
  | .readData sid => (dataReader sid).Keeps s.reads
  | .readResponseChunk sid => (chunkReader sid).Keeps s.reads

theorem credit_request (sid : UInt32) (block body : List UInt8) :
    credit [frame ftHeaders flEndHeaders sid block, frame ftData flEndStream sid body] = 0 := rfl

/-- Step lemma. -/
theorem balanced_run {all : List Read} {s : Session} (hs : Balanced all s) (c : Call) :
    Balanced all (c.run s) ↔ Kept s c := by
  cases c with
  | postJson path body =>
    have hsend := balanced_send hs s.nextStream.next
      (credit_request s.nextStream (reqHeaders s.authority path body.length) body)
    exact balanced_readResponse hsend s.nextStream
  | postStream path body => exact iff_of_true (balanced_send hs _ (credit_request _ _ _)) trivial
  | readData sid => exact balanced_read (dataReader_describes sid) hs ()
  | readResponseChunk sid => exact balanced_read (chunkReader_describes sid) hs ()

/-- Run lemma, from a balanced session. -/
theorem throughout_balanced {all : List Read} {s : Session} (hs : Balanced all s)
    (calls : List Call) :
    Runs.Throughout step (Balanced all) s calls ↔ Runs.Along step Kept s calls :=
  Runs.throughout_iff_along (fun s c hs => ⟨c.run s, rfl, balanced_run hs c⟩) hs

/-- The session after `start`, when the early payload was read. -/
def started (reads : List Read) (closed authority : String) : Session :=
  (start (.ok none) reads closed authority).2

theorem balanced_started (reads : List Read) (closed authority : String) :
    Balanced reads (started reads closed authority) ↔ startReader.Keeps reads := by
  have hhello : Balanced reads (Session.hello settingsPayload reads closed authority) :=
    ⟨[], rfl, rfl⟩
  rw [started, start_ok]
  exact balanced_read startReader_describes hhello ()

/-- **The connection never leaks credit, in any run, if and only if** no DATA comes in before
the settings of the server, and every DATA frame is read by a call that reads its stream. -/
theorem credit_balanced (reads : List Read) (closed authority : String) (calls : List Call) :
    Runs.Throughout step (Balanced reads) (started reads closed authority) calls ↔
      startReader.Keeps reads ∧ Runs.Along step Kept (started reads closed authority) calls := by
  constructor
  · intro h
    have hstart := h [] _ List.nil_prefix rfl
    exact ⟨(balanced_started reads closed authority).mp hstart,
      (throughout_balanced hstart calls).mp h⟩
  · rintro ⟨hstart, h⟩
    exact (throughout_balanced ((balanced_started reads closed authority).mpr hstart) calls).mpr h

/-- The settings of the server, three bytes of the first stream, and the end of the second. -/
def abandonedReads : List Read :=
  [.frame ⟨⟨ftSettings, 0, 0, []⟩, by decide⟩, .frame ⟨⟨ftData, 0, 1, [1, 2, 3]⟩, by decide⟩,
    .frame ⟨⟨ftHeaders, 5, 3, []⟩, by decide⟩]

/-- **The first stream is given up**: its bytes are read away by the second request. -/
theorem abandoned_leaks :
    ¬ Runs.Throughout step (Balanced abandonedReads)
      (started abandonedReads "closed" "controlplane.tailscale.com")
      [.postStream "/machine/map" [], .postJson "/machine/map" []] := by
  intro h
  have hstart := (balanced_started _ _ _).mp (h [] _ List.nil_prefix rfl)
  have hrun := (throughout_balanced ((balanced_started _ _ _).mpr hstart) _).mp h
  have hkept := (hrun.2 _ rfl).1
  have hown := hkept ⟨⟨ftData, 0, 1, [1, 2, 3]⟩, by decide⟩ (by decide) rfl (by decide)
  exact absurd hown (by decide)

end NetMap.H2
