/-
# The two HTTP/2 clients agree

`H2` and `AsyncH2` on channels with the same bytes to come: every call returns the same,
also when it fails, and the frames that are sent are the same from the second on.  The
first is the client's own SETTINGS, in which the async client asks for a small window.
-/
import PySpell.ControlFraming
import PySpell.H2

open Control

namespace NetMap

/-- What a call returned, which neither panics nor runs out of fuel. -/
def ofOutcome {α : Type} : Outcome String α → Except String α
  | .ok a => .ok a
  | .err message => .error message
  | .panic => .error ""
  | .outOfFuel => .error ""

/-- The calls that both clients have. -/
inductive ClientCall where
  | postJson (path : String) (body : List UInt8)
  | postStream (path : String) (body : List UInt8)
  | readResponse (sid : UInt32)
  | readData (sid : UInt32)

/-- What the calls return. -/
inductive Reply where
  | response (r : Except String (ℕ × List UInt8))
  | stream (sid : H2.StreamId)
  | data (r : Except String (List UInt8))

namespace H2

/-- `H2::start`, on the channel. -/
def connect (ae : Aead) (t : Channel) (authority : String) :
    Except String (Option (List UInt8)) × Session :=
  let (early, t') := Channel.consumeEarlyPayload ae t
  let (reads, closed) := Channel.inbound ae t'
  start (ofOutcome early) reads closed authority

def call : ClientCall → Session → Reply × Session
  | .postJson path body, s => ((postJson path body s).map .response id)
  | .postStream path body, s => ((postStream path body s).map .stream id)
  | .readResponse sid, s => ((readResponse sid s).map .response id)
  | .readData sid, s => ((readData sid s).map .data id)

end H2

namespace AsyncH2

/-- `AsyncH2::start`, on the channel. -/
def connect (ae : Aead) (t : Channel) (authority : String) :
    Except String (Option (List UInt8)) × H2.Session :=
  let (early, t') := AsyncH2.consumeEarlyPayload ae t
  let (reads, closed) := AsyncH2.inbound ae t'
  start (ofOutcome early) reads closed authority

def call : ClientCall → H2.Session → Reply × H2.Session
  | .postJson path body, s => ((postJson path body s).map .response id)
  | .postStream path body, s => ((postStream path body s).map .stream id)
  | .readResponse sid, s => ((readResponse sid s).map .response id)
  | .readData sid, s => ((readData sid s).map .data id)

end AsyncH2

namespace H2

/-- One call after the other, also when one fails. -/
def runCalls (call : ClientCall → Session → Reply × Session) :
    List ClientCall → Session → List Reply × Session
  | [], s => ([], s)
  | c :: calls, s =>
    let (reply, s') := call c s
    let (replies, s'') := runCalls call calls s'
    (reply :: replies, s'')

/-! ## Sessions that agree -/

/-- The sessions differ in the first frame that they sent, and in nothing else. -/
structure Agree (s u : Session) : Prop where
  reads : s.reads = u.reads
  closed : s.closed = u.closed
  nextStream : s.nextStream = u.nextStream
  authority : s.authority = u.authority
  sent : ∃ out, s.sent = frame ftSettings 0 0 settingsPayload :: out ∧
    u.sent = frame ftSettings 0 0 AsyncH2.settingsPayload :: out

/-- The same result, and sessions that agree. -/
structure Alike {α : Type} (x y : α × Session) : Prop where
  result : x.1 = y.1
  agree : Agree x.2 y.2

/-- The session when a request is sent. -/
def Session.requested (s : Session) (path : String) (body : List UInt8) : Session :=
  { s with nextStream := s.nextStream.next }.send
    [frame ftHeaders flEndHeaders s.nextStream (reqHeaders s.authority path body.length),
      frame ftData flEndStream s.nextStream body]

theorem Agree.requested {s u : Session} (h : Agree s u) (path : String) (body : List UInt8) :
    Agree (s.requested path body) (u.requested path body) := by
  obtain ⟨out, hs, hu⟩ := h.sent
  refine ⟨h.reads, h.closed, congrArg StreamId.next h.nextStream, h.authority,
    out ++ [frame ftHeaders flEndHeaders u.nextStream (reqHeaders u.authority path body.length),
      frame ftData flEndStream u.nextStream body], ?_, ?_⟩
  · rw [← h.nextStream, ← h.authority]
    change s.sent ++ _ = _
    rw [hs, List.cons_append]
  · change u.sent ++ _ = _
    rw [hu, List.cons_append]

/-- **A reading loop does the same** on sessions that agree. -/
theorem Agree.read {σ α : Type} {s u : Session} (h : Agree s u)
    (step : σ → Frame → List Frame × Next σ α) (init : σ) :
    Alike (s.read step init) (u.read step init) := by
  obtain ⟨out, hs, hu⟩ := h.sent
  rw [Session.read, Session.read, h.reads, h.closed]
  refine ⟨rfl, rfl, rfl, h.nextStream, h.authority,
    out ++ (readLoop step u.closed init u.reads).2.1, ?_, ?_⟩
  · change s.sent ++ _ = _
    rw [hs, List.cons_append]
  · change u.sent ++ _ = _
    rw [hu, List.cons_append]

theorem readResponse_alike {s u : Session} (h : Agree s u) (sid : UInt32) :
    Alike (readResponse sid s) (AsyncH2.readResponse sid u) := by
  have hstep : AsyncH2.responseStep sid = responseStep sid := by
    funext acc fr
    rfl
  obtain ⟨hresult, hagree⟩ := h.read (responseStep sid) (0, [])
  rw [readResponse, AsyncH2.readResponse, hstep]
  rcases hs : s.read (responseStep sid) (0, []) with ⟨r, s'⟩
  rcases hu : u.read (responseStep sid) (0, []) with ⟨r', u'⟩
  rw [hs, hu] at hresult hagree
  obtain rfl : r = r' := hresult
  rcases r with message | ⟨status, body⟩
  · exact ⟨rfl, hagree⟩
  · exact ⟨rfl, hagree⟩

theorem readData_alike {s u : Session} (h : Agree s u) (sid : UInt32) :
    Alike (readData sid s) (AsyncH2.readData sid u) := by
  have hstep : AsyncH2.dataStep sid = dataStep sid := by
    funext _ fr
    rfl
  rw [readData, AsyncH2.readData, hstep]
  exact h.read (dataStep sid) ()

/-- Step lemma: every call. -/
theorem call_alike {s u : Session} (h : Agree s u) (c : ClientCall) :
    Alike (call c s) (AsyncH2.call c u) := by
  cases c with
  | postJson path body =>
    have hu : AsyncH2.call (.postJson path body) u =
        (AsyncH2.readResponse s.nextStream (u.requested path body)).map .response id := by
      rw [h.nextStream]
      rfl
    obtain ⟨hresult, hagree⟩ := readResponse_alike (h.requested path body) s.nextStream
    rw [hu]
    exact ⟨congrArg Reply.response hresult, hagree⟩
  | postStream path body => exact ⟨congrArg Reply.stream h.nextStream, h.requested path body⟩
  | readResponse sid =>
    obtain ⟨hresult, hagree⟩ := readResponse_alike h sid
    exact ⟨congrArg Reply.response hresult, hagree⟩
  | readData sid =>
    obtain ⟨hresult, hagree⟩ := readData_alike h sid
    exact ⟨congrArg Reply.data hresult, hagree⟩

/-- Run lemma. -/
theorem runCalls_alike (calls : List ClientCall) : ∀ {s u : Session}, Agree s u →
    Alike (runCalls call calls s) (runCalls AsyncH2.call calls u) := by
  induction calls with
  | nil => exact fun h => ⟨rfl, h⟩
  | cons c calls ih =>
    intro s u h
    obtain ⟨hreply, hnext⟩ := call_alike h c
    obtain ⟨hreplies, hend⟩ := ih hnext
    exact ⟨congrArg₂ List.cons hreply hreplies, hend⟩

/-! ## From the first byte -/

theorem start_alike (early : Except String (Option (List UInt8))) (reads : List Read)
    (closed authority : String) :
    Alike (start early reads closed authority) (AsyncH2.start early reads closed authority) := by
  have hhello : Agree (Session.hello settingsPayload reads closed authority)
      (Session.hello AsyncH2.settingsPayload reads closed authority) :=
    ⟨rfl, rfl, rfl, rfl, [], rfl, rfl⟩
  have hstep : AsyncH2.startStep = startStep := by
    funext _ fr
    rfl
  cases early with
  | error message => exact ⟨rfl, hhello⟩
  | ok early =>
    obtain ⟨hresult, hagree⟩ := hhello.read startStep ()
    rw [start_ok, AsyncH2.start_ok, hstep]
    exact ⟨congrArg (Except.map fun _ => early) hresult, hagree⟩

/-- **The clients agree** on every byte stream, whatever the pieces are in which each of them
reads it: `start` and every run of calls return the same, and after the first frame they
send the same. -/
theorem clients_agree (ae : Aead) {t u : Channel} (h : t.Same u) (authority : String)
    (calls : List ClientCall) :
    (connect ae t authority).1 = (AsyncH2.connect ae u authority).1 ∧
      (runCalls call calls (connect ae t authority).2).1 =
        (runCalls AsyncH2.call calls (AsyncH2.connect ae u authority).2).1 ∧
      ∃ out, (runCalls call calls (connect ae t authority).2).2.sent =
          frame ftSettings 0 0 settingsPayload :: out ∧
        (runCalls AsyncH2.call calls (AsyncH2.connect ae u authority).2).2.sent =
          frame ftSettings 0 0 AsyncH2.settingsPayload :: out := by
  have hconnect : Alike (connect ae t authority) (AsyncH2.connect ae u authority) := by
    rcases Channel.consumeEarlyPayload_agrees ae t u h with ⟨e, he, -⟩ | ⟨hearly, hsame⟩
    · exact he.elim
    · rw [connect, AsyncH2.connect, Control.AsyncH2.consumeEarlyPayload_eq]
      dsimp only
      rw [Control.AsyncH2.inbound_eq, hearly, Channel.inbound_same ae hsame]
      exact start_alike _ _ _ _
  obtain ⟨hreplies, hagree⟩ := runCalls_alike calls hconnect.agree
  exact ⟨hconnect.result, hreplies, hagree.sent⟩

/-- A record without content, in two pieces or in one. -/
def slowChannel : Channel :=
  ⟨⟨[⟨[msgRecord], List.cons_ne_nil _ _⟩, ⟨[0, 0], List.cons_ne_nil _ _⟩], .closed, []⟩,
    Transport.new (Bytes.zeros 32) (Bytes.zeros 32), []⟩

def fastChannel : Channel :=
  ⟨⟨[⟨[msgRecord, 0, 0], List.cons_ne_nil _ _⟩], .closed, []⟩,
    Transport.new (Bytes.zeros 32) (Bytes.zeros 32), []⟩

theorem clients_agree_pieces :
    (connect chachaPoly slowChannel "host").1 = (AsyncH2.connect chachaPoly fastChannel "host").1 ∧
      (runCalls call [.readData 1] (connect chachaPoly slowChannel "host").2).1 =
        (runCalls AsyncH2.call [.readData 1] (AsyncH2.connect chachaPoly fastChannel "host").2).1 ∧
      ∃ out, (runCalls call [.readData 1] (connect chachaPoly slowChannel "host").2).2.sent =
          frame ftSettings 0 0 settingsPayload :: out ∧
        (runCalls AsyncH2.call [.readData 1]
            (AsyncH2.connect chachaPoly fastChannel "host").2).2.sent =
          frame ftSettings 0 0 AsyncH2.settingsPayload :: out :=
  have hsame : slowChannel.Same fastChannel := ⟨⟨rfl, rfl⟩, rfl, rfl⟩
  clients_agree chachaPoly hsame "host" [.readData 1]

end H2

end NetMap
