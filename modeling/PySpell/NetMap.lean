/-
# The network map

`fetch_peers` of `control/mod.rs`, with what it uses of `h2.rs` and `peers.rs`: the
response of `/machine/map` is read frame by frame, each frame is scanned for our own
address, and the bytes go to the JSON deserialiser, which keeps the peers and the packet
filter.  Beside it, what `h2.rs` and `peers.rs` do with a response that is buffered.

The connection is the list of frames that come in; what is sent back (window updates,
acknowledged settings) changes nothing here, and the status of the response is not used.
The deserialiser is a parameter (`Serde`).
-/
import PySpell.Lib.Text
import PySpell.Lib.Hex
import PySpell.Lib.Search
import PySpell.Lib.Outcome

open Text

namespace NetMap

/-! ## `h2.rs` -/

/-- `Frame`. -/
structure Frame where
  typ : UInt8
  flags : UInt8
  streamId : UInt32
  payload : List UInt8
  deriving DecidableEq, Repr

def ftData : UInt8 := 0
def ftHeaders : UInt8 := 1
def ftSettings : UInt8 := 4
def ftGoaway : UInt8 := 7
def flEndStream : UInt8 := 1

/-- Why a response ends early: a GOAWAY, or a connection without further frames. -/
inductive H2Error where
  | goaway | closed
  deriving DecidableEq, Repr

def Frame.endsStream (fr : Frame) : Bool := fr.flags &&& flEndStream ≠ 0

/-- Frames of other streams are passed over. -/
def Frame.isOther (sid : UInt32) (fr : Frame) : Bool := fr.streamId ≠ sid && fr.streamId ≠ 0

/-- `read_response_chunk`: the next payload, if any, whether it is the last, and the frames
still to come. -/
def readResponseChunk (sid : UInt32) :
    List Frame → Outcome H2Error ((Option (List UInt8) × Bool) × List Frame)
  | [] => .err .closed
  | fr :: frames =>
    if fr.isOther sid then readResponseChunk sid frames
    else if fr.typ = ftHeaders then
      if fr.endsStream then .ok ((none, true), frames) else readResponseChunk sid frames
    else if fr.typ = ftData then
      if fr.payload ≠ [] then .ok ((some fr.payload, fr.endsStream), frames)
      else if fr.endsStream then .ok ((none, true), frames)
      else readResponseChunk sid frames
    else if fr.typ = ftGoaway then .err .goaway
    else readResponseChunk sid frames

/-- A length of four bytes stands in front of the object. -/
def hasWirePrefix (body : List UInt8) : Bool :=
  5 ≤ body.length && body[0]? ≠ some '{'.toUInt8 && body[4]? = some '{'.toUInt8

/-- `strip_wire_prefix`. -/
def stripWirePrefix (body : List UInt8) : List UInt8 :=
  if hasWirePrefix body then body.drop 4 else body

/-- The loop of `read_response`. -/
def readBody (sid : UInt32) : List UInt8 → List Frame → Outcome H2Error (List UInt8)
  | _, [] => .err .closed
  | body, fr :: frames =>
    if fr.isOther sid then readBody sid body frames
    else if fr.typ = ftHeaders then
      if fr.endsStream then .ok body else readBody sid body frames
    else if fr.typ = ftData then
      if fr.endsStream then .ok (body ++ fr.payload) else readBody sid (body ++ fr.payload) frames
    else if fr.typ = ftGoaway then .err .goaway
    else readBody sid body frames

/-- `read_response`: the whole body, without the length. -/
def readResponse (sid : UInt32) (frames : List Frame) : Outcome H2Error (List UInt8) := do
  let body ← readBody sid [] frames
  .ok (stripWirePrefix body)

/-! ## `scan_tailscale_ip` -/

/-- `"100.` -/
def addressStart : List UInt8 := utf8 "\"100."

/-- The address text does not end at this byte. -/
def inAddress (b : UInt8) : Bool := b ≠ '/'.toUInt8 && b ≠ '"'.toUInt8

/-- The text from behind the quote up to `/` or `"`. -/
def addressText (raw : List UInt8) (pos : ℕ) : List UInt8 :=
  (raw.drop (pos + 1)).takeWhile inAddress

/-- A dotted address, or so it looks. -/
def acceptAddress (text : List UInt8) : Option String :=
  match fromUtf8 text with
  | .error _ => none
  | .ok s =>
    if s.toList.all (fun c => isDigit c || c = '.') && 7 ≤ (utf8 s).length then some s else none

/-- `scan_tailscale_ip`. -/
def scanTailscaleIp (raw : List UInt8) : Option String := do
  let pos ← Search.position addressStart raw
  acceptAddress (addressText raw pos)

/-! ## `peers.rs` -/

structure PeerInfo where
  nodeKey : List UInt8
  discoKey : List UInt8
  tailscaleIp : Option String
  endpoints : List String
  hostname : String
  deriving DecidableEq, Repr

structure Hostinfo where
  hostname : Option String
  deriving DecidableEq, Repr

/-- `PeerT` and `PeerTS`. -/
structure PeerT where
  key : Option String
  discoKey : Option String
  addresses : Option (List String)
  endpoints : Option (List String)
  hostinfo : Option Hostinfo
  deriving DecidableEq, Repr

structure NetPortRange where
  ip : Option String
  deriving DecidableEq, Repr

structure FilterRule where
  srcIps : Option (List String)
  dstPorts : Option (List NetPortRange)
  deriving DecidableEq, Repr

/-- `MapStreamResp`. -/
structure MapStreamResp where
  peers : Option (List PeerT)
  packetFilter : Option (List FilterRule)
  deriving DecidableEq, Repr

/-- `Cidr`: a network and its mask. -/
abbrev Cidr := UInt32 × UInt32

/-- `parse_keyed_hex`: 64 digits behind the last colon. -/
def parseKeyedHex (s : String) : Option (List UInt8) :=
  let hex := utf8 (String.ofList (s.toList.reverse.takeWhile (· ≠ ':')).reverse)
  if hex.length ≠ 64 then none else Hex.pairs hex

/-- A number of an address: up to three digits, none of them a leading zero. -/
def parseOctet (s : String) : Option ℕ := do
  let n ← parseDigits s.toList
  if s.length ≤ 3 ∧ (s.length = 1 ∨ s.toList.head? ≠ some '0') ∧ n < 256 then some n else none

/-- `Ipv4Addr::from_str`, in host order. -/
def parseIpv4 (s : String) : Option UInt32 :=
  match splitChar '.' s with
  | [a, b, c, d] => do
    let a ← parseOctet a
    let b ← parseOctet b
    let c ← parseOctet c
    let d ← parseOctet d
    some (UInt32.ofNat (((a * 256 + b) * 256 + c) * 256 + d))
  | _ => none

/-- `str::split_once` at a slash. -/
def splitSlash (s : String) : Option (String × String) :=
  match s.toList.dropWhile (· ≠ '/') with
  | [] => none
  | _ :: bits => some (String.ofList (s.toList.takeWhile (· ≠ '/')), String.ofList bits)

/-- The mask of so many leading bits. -/
def maskOf (bits : ℕ) : UInt32 :=
  if bits = 0 then 0 else 0xffffffff <<< UInt32.ofNat (32 - min bits 32)

/-- `parse_cidr`. -/
def parseCidr (s : String) : Option Cidr := do
  let (ip, bits) ← match splitSlash s with
    | some (i, b) => do some (i, ← parseUnsigned 32 b)
    | none => some (s, 32)
  let net ← parseIpv4 ip
  some (net, maskOf bits)

/-- `cidr_contains`. -/
def cidrContains (c : Option Cidr) (ip : UInt32) : Bool :=
  match c with
  | some (net, mask) => ip &&& mask = net &&& mask
  | none => false

/-- The peer, if it has both keys. -/
def peerInfo (p : PeerT) : Option PeerInfo := do
  let nodeKey ← p.key.bind parseKeyedHex
  let discoKey ← p.discoKey.bind parseKeyedHex
  let addresses := (p.addresses.getD []).map fun a => String.ofList (a.toList.takeWhile (· ≠ '/'))
  some {
    nodeKey := nodeKey
    discoKey := discoKey
    tailscaleIp := addresses.find? fun a => "100.".toList.isPrefixOf a.toList
    endpoints := p.endpoints.getD []
    hostname := (p.hostinfo.bind Hostinfo.hostname).getD "?" }

/-- A rule's destinations cover the address. -/
def coversUs (rule : FilterRule) (ours : UInt32) : Bool :=
  ((rule.dstPorts.getD []).filterMap NetPortRange.ip).any fun ip =>
    ip = "*" || cidrContains (parseCidr ip) ours

/-- A source of a rule; a star is any. -/
def sourceCidr (s : String) : Option Cidr := if s = "*" then some (0, 0) else parseCidr s

/-- The sources that the rules allow to reach an address. -/
def allowedSrcs (packetFilter : Option (List FilterRule)) (our : String) : Option (List Cidr) := do
  let rules ← packetFilter
  let ours ← parseCidr (our ++ "/32")
  some (rules.flatMap fun rule =>
    if coversUs rule ours.1 then (rule.srcIps.getD []).filterMap sourceCidr else [])

/-! ## The deserialiser -/

/-- White space of JSON. -/
def isBlank (b : UInt8) : Bool :=
  b = ' '.toUInt8 || b = '\n'.toUInt8 || b = '\t'.toUInt8 || b = '\r'.toUInt8

/-- `serde_json` at the three types that are read from a response. -/
structure Serde where
  streamResp : List UInt8 → Option MapStreamResp
  mapResp : List UInt8 → Option (Option (List PeerT))
  filterResp : List UInt8 → Option (Option (List FilterRule))

/-- The text is a JSON object, as a MapResponse is. -/
def IsObject (bytes : List UInt8) : Prop :=
  (bytes.dropWhile isBlank).head? = some '{'.toUInt8

instance (bytes : List UInt8) : Decidable (IsObject bytes) :=
  inferInstanceAs (Decidable (_ = _))

/-- What is relied on: each field of an object is read by itself, white space in front is
skipped, and nothing else may stand in front of an object.  (A derived struct also reads an
array of all its fields, so the three structs differ on arrays.) -/
structure Serde.Correct (serde : Serde) : Prop where
  fields : ∀ bytes m, IsObject bytes → (serde.streamResp bytes = some m ↔
    serde.mapResp bytes = some m.peers ∧ serde.filterResp bytes = some m.packetFilter)
  blank : ∀ pre bytes, (∀ b ∈ pre, isBlank b) →
    serde.streamResp (pre ++ bytes) = serde.streamResp bytes
  front : ∀ pre bytes m, serde.streamResp bytes = some m → bytes.head? = some '{'.toUInt8 →
    (∃ b ∈ pre, ¬ isBlank b) → serde.streamResp (pre ++ bytes) = none

/-! ## Buffered -/

/-- `parse_peers`. -/
def parsePeers (serde : Serde) (raw : List UInt8) : Option (List PeerInfo) := do
  let peers ← serde.mapResp raw
  some ((peers.getD []).filterMap peerInfo)

/-- `parse_allowed_srcs`. -/
def parseAllowedSrcs (serde : Serde) (raw : List UInt8) (our : String) : Option (List Cidr) := do
  let packetFilter ← serde.filterResp raw
  allowedSrcs packetFilter our

/-- Our address, the peers and the allowed sources. -/
abbrev NetworkMap := Option String × List PeerInfo × Option (List Cidr)

instance : DecidableEq NetworkMap := inferInstance

/-- A buffered body, scanned and parsed as a whole. -/
def bufferedMap (serde : Serde) (body : List UInt8) : Option NetworkMap := do
  let peers ← parsePeers serde body
  let ip := scanTailscaleIp body
  some (ip, peers, ip.bind (parseAllowedSrcs serde body))

/-! ## Streamed -/

/-- `H2Body`. -/
structure H2Body where
  frames : List Frame
  buf : List UInt8
  pos : ℕ
  eof : Bool
  prefixStripped : Bool
  ip : Option String

/-- A payload that came in: it is scanned, and it is what is read next.  The length is
looked for in the first one. -/
def H2Body.receive (b : H2Body) (chunk : List UInt8) (last : Bool) (frames : List Frame) :
    H2Body where
  frames := frames
  buf := chunk
  pos := if !b.prefixStripped && hasWirePrefix chunk then 4 else 0
  eof := last
  prefixStripped := true
  ip := match b.ip with
    | some ip => some ip
    | none => scanTailscaleIp chunk

/-- `read` into a buffer of `n` bytes, with a bound on the rounds of its loop. -/
def readLoop (sid : UInt32) (n : ℕ) : ℕ → H2Body → Outcome H2Error (List UInt8 × H2Body)
  | 0, _ => .outOfFuel
  | fuel + 1, b =>
    if b.buf.length ≤ b.pos then
      if b.eof then .ok ([], b)
      else
        match readResponseChunk sid b.frames with
        | .ok ((some chunk, last), frames) => readLoop sid n fuel (b.receive chunk last frames)
        | .ok ((none, last), frames) =>
          if last then .ok ([], { b with eof := last, frames := frames })
          else readLoop sid n fuel { b with eof := last, frames := frames }
        | .err e => .err e
        | .panic => .panic
        | .outOfFuel => .outOfFuel
    else .ok ((b.buf.drop b.pos).take n, { b with pos := b.pos + min n (b.buf.length - b.pos) })

/-- `H2Body::read`. -/
def H2Body.read (sid : UInt32) (n : ℕ) (b : H2Body) : Outcome H2Error (List UInt8 × H2Body) :=
  readLoop sid n (b.frames.length + 2) b

/-- Everything that the deserialiser reads, in buffers of its choice, up to the end. -/
def readToEnd (sid : UInt32) (sizes : ℕ → ℕ) :
    ℕ → ℕ → H2Body → Outcome H2Error (List UInt8 × H2Body)
  | 0, _, _ => .outOfFuel
  | fuel + 1, k, b => do
    let (bytes, b) ← b.read sid (sizes k)
    if bytes = [] then .ok ([], b)
    else
      let (more, b) ← readToEnd sid sizes fuel (k + 1) b
      .ok (bytes ++ more, b)

inductive FetchError where
  | h2 (e : H2Error)
  | json
  deriving DecidableEq, Repr

/-- The bytes that can come in. -/
def totalBytes (frames : List Frame) : ℕ := (frames.map fun fr => fr.payload.length).sum

/-- `fetch_peers`, on the frames that come in after the request. -/
def fetchPeers (serde : Serde) (sizes : ℕ → ℕ) (sid : UInt32) (frames : List Frame) :
    Outcome FetchError NetworkMap :=
  match readToEnd sid sizes (totalBytes frames + 1) 0
      ⟨frames, [], 0, false, false, none⟩ with
  | .ok (bytes, reader) =>
    match serde.streamResp bytes with
    | some m => .ok (reader.ip, (m.peers.getD []).filterMap peerInfo,
        reader.ip.bind (allowedSrcs m.packetFilter))
    | none => .err .json
  | .err e => .err (.h2 e)
  | .panic => .panic
  | .outOfFuel => .outOfFuel

end NetMap
