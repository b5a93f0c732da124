/-
# The HTTP/2 client

The two clients of `h2.rs`, `H2` and `AsyncH2`, above the tunnel: what `read_frame`
returns is a list of frames and errors (`Read`), and what is sent is the list of frames
that `frame` builds, in order.  The bytes of a frame are `encode`, and
`splitFrame` reads them as `read_frame` does.

Every function that reads is a loop over the frames that come in.  Its body is a step
(`dataStep`, `chunkStep`, `responseStep`, `startStep`), which says for one frame what is
sent and whether the loop goes on.  The async client has its own steps, as the source
has its own loops.

Stream ids are odd, from the first one on (`StreamId`).  Writing to the tunnel does not
fail here, and the id wraps as in a release build.
-/
import PySpell.Lib.Bytes
import PySpell.NetMap

open Text

namespace NetMap.H2

/-! ## Frames -/

def ftWindowUpdate : UInt8 := 8
def flAck : UInt8 := 1
def flEndHeaders : UInt8 := 4

/-- `MAX_FRAME_SIZE`. -/
def maxFrameSize : ℕ := 16384

/-- `frame`: the reserved bit of the stream id is cleared. -/
def frame (typ flags : UInt8) (streamId : UInt32) (payload : List UInt8) : Frame :=
  ⟨typ, flags, streamId &&& 0x7fffffff, payload⟩

/-- The bytes of a frame; of the length there are three. -/
def encode (fr : Frame) : List UInt8 :=
  Bytes.ofNatBe 3 fr.payload.length ++ [fr.typ, fr.flags] ++
    Bytes.ofNatBe 4 fr.streamId.toNat ++ fr.payload

/-- `read_frame`, when all of the frame is there. -/
def splitFrame (l : List UInt8) : Option (Frame × List UInt8) :=
  let len := Bytes.toNatBe (l.take 3)
  if l.length < 9 + len then none
  else
    let streamId := UInt32.ofNat (Bytes.toNatBe ((l.drop 5).take 4)) &&& 0x7fffffff
    some (⟨l.getD 3 0, l.getD 4 0, streamId, (l.drop 9).take len⟩, l.drop (9 + len))

/-- A frame that `read_frame` can return: its length has three bytes. -/
abbrev WireFrame := {fr : Frame // fr.payload.length < 2 ^ 24}

/-- What `read_frame` returns: a frame, or an error of the layers below. -/
inductive Read where
  | frame (fr : WireFrame)
  | failed (message : String)
  deriving DecidableEq

/-! ## Header blocks -/

/-- The length of a string, behind the first 127: seven bits in a byte. -/
def encRem : ℕ → ℕ → List UInt8
  | 0, rem => [UInt8.ofNat rem]
  | fuel + 1, rem =>
    if 0x80 ≤ rem then UInt8.ofNat (rem % 0x80 + 0x80) :: encRem fuel (rem / 0x80)
    else [UInt8.ofNat rem]

/-- `enc_str`. -/
def encStr (s : List UInt8) : List UInt8 :=
  if s.length < 0x7f then UInt8.ofNat s.length :: s
  else 0x7f :: encRem s.length (s.length - 0x7f) ++ s

/-- `enc_header`. -/
def encHeader (name value : String) : List UInt8 := 0 :: encStr (utf8 name) ++ encStr (utf8 value)

/-- The header block of a request, as `post_json` and `post_stream` have it line by line. -/
def reqHeaders (authority path : String) (bodyLen : ℕ) : List UInt8 :=
  encHeader ":method" "POST" ++ encHeader ":scheme" "http" ++
    encHeader ":authority" authority ++ encHeader ":path" path ++
    encHeader "content-type" "application/json" ++
    encHeader "content-length" (toString bodyLen) ++ encHeader "accept" "application/json"

/-- A string of a block, with its length in front, and what is behind it. -/
def literal : List UInt8 → Option (List UInt8 × List UInt8)
  | [] => none
  | n :: rest =>
    let len := (n &&& 0x7f).toNat
    if rest.length < len then none else some (rest.take len, rest.drop len)

def decodeStatusLoop : ℕ → List UInt8 → Option ℕ
  | 0, _ => none
  | _ + 1, [] => none
  | fuel + 1, b :: rest =>
    if b &&& 0x80 ≠ 0 then
      if b &&& 0x7f = 8 then some 200 else decodeStatusLoop fuel rest
    else if b &&& 0xf0 = 0 then do
      let (name, rest) ← literal rest
      let (val, rest) ← literal rest
      if name = utf8 ":status" then
        match fromUtf8 val with
        | .ok s => parseUnsigned 16 s
        | .error _ => none
      else decodeStatusLoop fuel rest
    else none

/-- `decode_status`. -/
def decodeStatus (block : List UInt8) : Option ℕ := decodeStatusLoop (block.length + 1) block

/-! ## The session -/

/-- The ids that the client gives to its streams. -/
abbrev StreamId := {sid : UInt32 // sid.toNat % 2 = 1}

theorem odd_add_two {sid : UInt32} (h : sid.toNat % 2 = 1) : (sid + 2).toNat % 2 = 1 := by
  have htwo : (2 : UInt32).toNat = 2 := rfl
  rw [UInt32.toNat_add, htwo]
  omega

/-- The id two further on. -/
def StreamId.next (sid : StreamId) : StreamId := ⟨sid.val + 2, odd_add_two sid.property⟩

/-- `H2` and `AsyncH2`: what the tunnel still delivers, and the error when there is
nothing left; the frames that were sent. -/
structure Session where
  reads : List Read
  closed : String
  sent : List Frame
  nextStream : StreamId
  authority : String

/-- How the body of a reading loop ends. -/
inductive Next (σ α : Type) where
  | again (s : σ)
  | done (a : α)
  | fail (message : String)

/-- A reading loop, one step a frame: its result, the frames that it sends, and what it
leaves unread. -/
def readLoop {σ α : Type} (step : σ → Frame → List Frame × Next σ α) (closed : String) :
    σ → List Read → Except String α × List Frame × List Read
  | _, [] => (.error closed, [], [])
  | _, .failed message :: rest => (.error message, [], rest)
  | s, .frame fr :: rest =>
    match step s fr.val with
    | (out, .again s') =>
      let (result, more, rest') := readLoop step closed s' rest
      (result, out ++ more, rest')
    | (out, .done a) => (.ok a, out, rest)
    | (out, .fail message) => (.error message, out, rest)

def Session.read {σ α : Type} (step : σ → Frame → List Frame × Next σ α) (init : σ)
    (s : Session) : Except String α × Session :=
  let (result, out, rest) := readLoop step s.closed init s.reads
  (result, { s with sent := s.sent ++ out, reads := rest })

/-- `H2::send`. -/
def Session.send (s : Session) (frames : List Frame) : Session :=
  { s with sent := s.sent ++ frames }

/-- The session when the client has sent its SETTINGS. -/
def Session.hello (settings : List UInt8) (reads : List Read) (closed authority : String) :
    Session :=
  ⟨reads, closed, [frame ftSettings 0 0 settings], ⟨1, rfl⟩, authority⟩

/-- The settings are acknowledged, if they are no acknowledgement. -/
def ackSettings (fr : Frame) : List Frame :=
  if fr.flags &&& flAck = 0 then [frame ftSettings flAck 0 []] else []

/-- `window_update`. -/
def windowUpdate (sid : UInt32) (inc : UInt32) : List Frame :=
  let p := Bytes.ofNatBe 4 inc.toNat
  [frame ftWindowUpdate 0 sid p, frame ftWindowUpdate 0 0 p]

/-! ## Blocking -/

/-- The payload of the SETTINGS: no push, and the largest frame. -/
def settingsPayload : List UInt8 := [0, 2, 0, 0, 0, 0, 0, 5] ++ Bytes.ofNatBe 4 maxFrameSize

/-- The body of the loop of `start`. -/
def startStep (_ : Unit) (fr : Frame) : List Frame × Next Unit Unit :=
  if fr.typ = ftSettings then (ackSettings fr, .done ())
  else if fr.typ = ftWindowUpdate ∨ fr.typ = ftHeaders ∨ fr.typ = ftData then ([], .again ())
  else if fr.typ = ftGoaway then ([], .fail "server GOAWAY during startup")
  else ([], .again ())

/-- `H2::start`, on what `consume_early_payload` returns. -/
def start (early : Except String (Option (List UInt8))) (reads : List Read) (closed : String)
    (authority : String) : Except String (Option (List UInt8)) × Session :=
  let s := Session.hello settingsPayload reads closed authority
  match early with
  | .error message => (.error message, s)
  | .ok early =>
    match s.read startStep () with
    | (.ok _, s) => (.ok early, s)
    | (.error message, s) => (.error message, s)

theorem start_ok (early : Option (List UInt8)) (reads : List Read) (closed authority : String) :
    start (.ok early) reads closed authority =
      ((Session.hello settingsPayload reads closed authority).read startStep ()).map
        (Except.map fun _ => early) id := by
  rw [start]
  split
  · next h => rw [h]; rfl
  · next h => rw [h]; rfl

/-- The body of the loop of `read_data`. -/
def dataStep (sid : UInt32) (_ : Unit) (fr : Frame) : List Frame × Next Unit (List UInt8) :=
  if fr.typ = ftData ∧ fr.streamId = sid then
    if fr.payload ≠ [] then
      (windowUpdate sid (UInt32.ofNat fr.payload.length), .done fr.payload)
    else if fr.endsStream then ([], .fail "map stream closed by server")
    else ([], .again ())
  else if fr.typ = ftHeaders then
    if fr.endsStream then ([], .fail "map stream closed (HEADERS END_STREAM)")
    else ([], .again ())
  else if fr.typ = ftSettings then (ackSettings fr, .again ())
  else if fr.typ = ftGoaway then ([], .fail "server GOAWAY on map stream")
  else ([], .again ())

/-- `H2::read_data`. -/
def readData (sid : UInt32) (s : Session) : Except String (List UInt8) × Session :=
  s.read (dataStep sid) ()

/-- The body of the loop of `read_response_chunk`. -/
def chunkStep (sid : UInt32) (_ : Unit) (fr : Frame) :
    List Frame × Next Unit (Option (List UInt8) × Bool) :=
  if fr.isOther sid then ([], .again ())
  else if fr.typ = ftHeaders then
    if fr.endsStream then ([], .done (none, true)) else ([], .again ())
  else if fr.typ = ftData then
    if fr.payload ≠ [] then
      (windowUpdate sid (UInt32.ofNat fr.payload.length), .done (some fr.payload, fr.endsStream))
    else if fr.endsStream then ([], .done (none, true))
    else ([], .again ())
  else if fr.typ = ftSettings then (ackSettings fr, .again ())
  else if fr.typ = ftGoaway then ([], .fail "server GOAWAY (response stream)")
  else ([], .again ())

/-- `H2::read_response_chunk`. -/
def readResponseChunk (sid : UInt32) (s : Session) :
    Except String (Option (List UInt8) × Bool) × Session :=
  s.read (chunkStep sid) ()

/-- The body of the loop of `read_response`, on the status and the body so far. -/
def responseStep (sid : UInt32) (acc : ℕ × List UInt8) (fr : Frame) :
    List Frame × Next (ℕ × List UInt8) (ℕ × List UInt8) :=
  if fr.isOther sid then ([], .again acc)
  else if fr.typ = ftHeaders then
    let acc := ((decodeStatus fr.payload).getD acc.1, acc.2)
    if fr.endsStream then ([], .done acc) else ([], .again acc)
  else if fr.typ = ftData then
    let acc := (acc.1, acc.2 ++ fr.payload)
    let out :=
      if fr.payload ≠ [] then windowUpdate sid (UInt32.ofNat fr.payload.length) else []
    if fr.endsStream then (out, .done acc) else (out, .again acc)
  else if fr.typ = ftSettings then (ackSettings fr, .again acc)
  else if fr.typ = ftGoaway then
    ([], .fail ("server GOAWAY (status so far " ++ toString acc.1 ++ ")"))
  else ([], .again acc)

/-- `H2::read_response`. -/
def readResponse (sid : UInt32) (s : Session) : Except String (ℕ × List UInt8) × Session :=
  match s.read (responseStep sid) (0, []) with
  | (.ok (status, body), s) => (.ok (status, stripWirePrefix body), s)
  | (.error message, s) => (.error message, s)

/-- `H2::post_stream`. -/
def postStream (path : String) (body : List UInt8) (s : Session) : StreamId × Session :=
  let sid := s.nextStream
  let hdr := reqHeaders s.authority path body.length
  let out := [frame ftHeaders flEndHeaders sid hdr, frame ftData flEndStream sid body]
  (sid, { s with nextStream := sid.next }.send out)

/-- `H2::post_json`. -/
def postJson (path : String) (body : List UInt8) (s : Session) :
    Except String (ℕ × List UInt8) × Session :=
  let sid := s.nextStream
  let hdr := reqHeaders s.authority path body.length
  let out := [frame ftHeaders flEndHeaders sid hdr, frame ftData flEndStream sid body]
  readResponse sid ({ s with nextStream := sid.next }.send out)

end NetMap.H2

/-! ## Async -/

namespace NetMap.AsyncH2

open H2 hiding Session reqHeaders windowUpdate

/-- `settings_payload`: beside the largest frame, a window of one frame. -/
def settingsPayload : List UInt8 :=
  [0, 2, 0, 0, 0, 0, 0, 4] ++ Bytes.ofNatBe 4 maxFrameSize ++ [0, 5] ++ Bytes.ofNatBe 4 maxFrameSize

/-- `req_headers`. -/
def reqHeaders (authority path : String) (bodyLen : ℕ) : List UInt8 :=
  encHeader ":method" "POST" ++ encHeader ":scheme" "http" ++
    encHeader ":authority" authority ++ encHeader ":path" path ++
    encHeader "content-type" "application/json" ++
    encHeader "content-length" (toString bodyLen) ++ encHeader "accept" "application/json"

/-- `AsyncH2::send`. -/
def send (s : H2.Session) (frames : List Frame) : H2.Session :=
  { s with sent := s.sent ++ frames }

/-- `AsyncH2::window_update`. -/
def windowUpdate (sid : UInt32) (inc : UInt32) : List Frame :=
  let p := Bytes.ofNatBe 4 inc.toNat
  [frame ftWindowUpdate 0 sid p, frame ftWindowUpdate 0 0 p]

/-- The body of the loop of `start`. -/
def startStep (_ : Unit) (fr : Frame) : List Frame × Next Unit Unit :=
  if fr.typ = ftSettings then (ackSettings fr, .done ())
  else if fr.typ = ftWindowUpdate ∨ fr.typ = ftHeaders ∨ fr.typ = ftData then ([], .again ())
  else if fr.typ = ftGoaway then ([], .fail "server GOAWAY during startup")
  else ([], .again ())

/-- `AsyncH2::start`, on what `consume_early_payload` returns. -/
def start (early : Except String (Option (List UInt8))) (reads : List Read) (closed : String)
    (authority : String) : Except String (Option (List UInt8)) × H2.Session :=
  let s : H2.Session := ⟨reads, closed, [frame ftSettings 0 0 settingsPayload], ⟨1, rfl⟩, authority⟩
  match early with
  | .error message => (.error message, s)
  | .ok early =>
    match s.read startStep () with
    | (.ok _, s) => (.ok early, s)
    | (.error message, s) => (.error message, s)

theorem start_ok (early : Option (List UInt8)) (reads : List Read) (closed authority : String) :
    start (.ok early) reads closed authority =
      ((H2.Session.hello settingsPayload reads closed authority).read startStep ()).map
        (Except.map fun _ => early) id := by
  rw [start]
  split
  · next h => rw [H2.Session.hello, h]; rfl
  · next h => rw [H2.Session.hello, h]; rfl

/-- The body of the loop of `read_data`. -/
def dataStep (sid : UInt32) (_ : Unit) (fr : Frame) : List Frame × Next Unit (List UInt8) :=
  if fr.typ = ftData ∧ fr.streamId = sid then
    if fr.payload ≠ [] then
      (windowUpdate sid (UInt32.ofNat fr.payload.length), .done fr.payload)
    else if fr.endsStream then ([], .fail "map stream closed by server")
    else ([], .again ())
  else if fr.typ = ftHeaders then
    if fr.endsStream then ([], .fail "map stream closed (HEADERS END_STREAM)")
    else ([], .again ())
  else if fr.typ = ftSettings then (ackSettings fr, .again ())
  else if fr.typ = ftGoaway then ([], .fail "server GOAWAY on map stream")
  else ([], .again ())

/-- `AsyncH2::read_data`. -/
def readData (sid : UInt32) (s : H2.Session) : Except String (List UInt8) × H2.Session :=
  s.read (dataStep sid) ()

/-- The body of the loop of `read_response`. -/
def responseStep (sid : UInt32) (acc : ℕ × List UInt8) (fr : Frame) :
    List Frame × Next (ℕ × List UInt8) (ℕ × List UInt8) :=
  if fr.isOther sid then ([], .again acc)
  else if fr.typ = ftHeaders then
    let acc := ((decodeStatus fr.payload).getD acc.1, acc.2)
    if fr.endsStream then ([], .done acc) else ([], .again acc)
  else if fr.typ = ftData then
    let acc := (acc.1, acc.2 ++ fr.payload)
    let out :=
      if fr.payload ≠ [] then windowUpdate sid (UInt32.ofNat fr.payload.length) else []
    if fr.endsStream then (out, .done acc) else (out, .again acc)
  else if fr.typ = ftSettings then (ackSettings fr, .again acc)
  else if fr.typ = ftGoaway then
    ([], .fail ("server GOAWAY (status so far " ++ toString acc.1 ++ ")"))
  else ([], .again acc)

/-- `AsyncH2::read_response`. -/
def readResponse (sid : UInt32) (s : H2.Session) : Except String (ℕ × List UInt8) × H2.Session :=
  match s.read (responseStep sid) (0, []) with
  | (.ok (status, body), s) => (.ok (status, stripWirePrefix body), s)
  | (.error message, s) => (.error message, s)

/-- `AsyncH2::post_stream`. -/
def postStream (path : String) (body : List UInt8) (s : H2.Session) : StreamId × H2.Session :=
  let sid := s.nextStream
  let hdr := reqHeaders s.authority path body.length
  let out := [frame ftHeaders flEndHeaders sid hdr, frame ftData flEndStream sid body]
  (sid, send { s with nextStream := sid.next } out)

/-- `AsyncH2::post_json`. -/
def postJson (path : String) (body : List UInt8) (s : H2.Session) :
    Except String (ℕ × List UInt8) × H2.Session :=
  let sid := s.nextStream
  let hdr := reqHeaders s.authority path body.length
  let out := [frame ftHeaders flEndHeaders sid hdr, frame ftData flEndStream sid body]
  readResponse sid (send { s with nextStream := sid.next } out)

end NetMap.AsyncH2
