/-
# The control channel

What lies below HTTP/2: `transport.rs` reads a TCP connection into a buffer and takes
frames of the control protocol from it, `noise.rs` seals and opens the records in these
frames, and the plumbing of `h2.rs` collects the plaintext and takes HTTP/2 frames from
it.  Each of the three layers keeps what it has not used yet.

A connection is the list of the pieces in which `read` hands out the bytes that come in,
none of them empty, and what `read` says ever after.  The async variants have the same
state and functions of their own (`AsyncConn`, `AsyncH2`), which agree with the blocking
ones: they differ in when they give memory back, which is not modelled.  The AEAD is a
parameter (`Aead`); the counters wrap as in a release build.

`Channel.inbound` is what `read_frame` returns, call after call.
-/
import PySpell.Lib.ChaChaPoly
import PySpell.Lib.StateOutcome
import PySpell.H2

open Text

namespace Control

/-! ## `transport.rs` -/

/-- What one `read` returns: at least one byte. -/
abbrev Piece := {bytes : List UInt8 // bytes ≠ []}

/-- What `read` says when all bytes are read: the connection is closed, or broken. -/
inductive Ending where
  | closed
  | failed
  deriving DecidableEq

/-- `Conn` and `AsyncConn`. -/
structure Conn where
  pieces : List Piece
  ending : Ending
  rx : List UInt8

/-- The bytes that can still be taken. -/
def Conn.pending (c : Conn) : List UInt8 := c.rx ++ (c.pieces.map Subtype.val).flatten

/-- The error of `fill_to` when the bytes do not suffice. -/
def Ending.message (wanted have' : ℕ) : Ending → String
  | .closed =>
    "connection closed (wanted " ++ toString wanted ++ ", have " ++ toString have' ++ ")"
  | .failed => "stream read"

def fillLoop (ending : Ending) (n : ℕ) : List Piece → List UInt8 → Outcome String Unit × Conn
  | [], rx =>
    if rx.length < n then (.err (ending.message n rx.length), ⟨[], ending, rx⟩)
    else (.ok (), ⟨[], ending, rx⟩)
  | piece :: rest, rx =>
    if rx.length < n then fillLoop ending n rest (rx ++ piece.val)
    else (.ok (), ⟨piece :: rest, ending, rx⟩)

/-- `fill_to`. -/
def Conn.fillTo (n : ℕ) : StateOutcome Conn String Unit := fun c => fillLoop c.ending n c.pieces c.rx

/-- `take`. -/
def Conn.take (n : ℕ) : StateOutcome Conn String (List UInt8) := do
  Conn.fillTo n
  let out ← StateOutcome.gets fun c => c.rx.take n
  StateOutcome.modify fun c => { c with rx := c.rx.drop n }
  pure out

/-- `Conn::read_frame`: a type, a length of two bytes, and the payload. -/
def Conn.readFrame : StateOutcome Conn String (UInt8 × List UInt8) := do
  let hdr ← Conn.take 3
  let payload ← Conn.take (Bytes.toNatBe (hdr.drop 1))
  pure (hdr.getD 0 0, payload)

/-- The end of a block of header fields. -/
def headEnd : List UInt8 := utf8 "\r\n\r\n"

/-- The loop of `connect_and_upgrade`: the head, where the body starts, and the pieces that
were not read. -/
def upgradeLoop (ending : Ending) :
    List Piece → List UInt8 → Except String (List UInt8 × ℕ × List Piece)
  | [], _ =>
    match ending with
    | .closed => .error "connection closed during upgrade"
    | .failed => .error "upgrade read"
  | piece :: rest, head =>
    match Search.position headEnd (head ++ piece.val) with
    | some pos => .ok (head ++ piece.val, pos + 4, rest)
    | none =>
      if 8192 < (head ++ piece.val).length then .error "upgrade response headers too large"
      else upgradeLoop ending rest (head ++ piece.val)

/-- The first line of the response. -/
def statusLine (head : List UInt8) : String :=
  trim (fromUtf8Lossy (head.takeWhile (· ≠ '\n'.toUInt8)))

/-- `connect_and_upgrade`, behind the request. -/
def connectAndUpgrade (ending : Ending) (pieces : List Piece) : Except String Conn :=
  match upgradeLoop ending pieces [] with
  | .error message => .error message
  | .ok (head, bodyStart, rest) =>
    let status := statusLine head
    if (Search.position (utf8 " 101 ") (utf8 status)).isSome then
      .ok ⟨rest, ending, head.drop bodyStart⟩
    else
      .error ("upgrade failed: '" ++ status ++ "' body='" ++
        trim (fromUtf8Lossy (head.drop bodyStart)) ++ "'")

/-! ## `noise.rs` -/

/-- `ChaCha20Poly1305` with no associated data: what was encrypted is decrypted, and the tag
takes 16 bytes. -/
structure Aead where
  encrypt : Bytes 32 → Bytes 12 → List UInt8 → List UInt8
  decrypt : Bytes 32 → Bytes 12 → List UInt8 → Option (List UInt8)
  opens : ∀ key nonce msg, decrypt key nonce (encrypt key nonce msg) = some msg
  length_encrypt : ∀ key nonce msg, (encrypt key nonce msg).length = msg.length + 16
  length_decrypt : ∀ key nonce ct msg, decrypt key nonce ct = some msg →
    ct.length = msg.length + 16

/-- ChaCha20-Poly1305 with no associated data. -/
def chachaPoly : Aead where
  encrypt key nonce msg := ChaChaPoly.encrypt key nonce msg []
  decrypt key nonce ct := ChaChaPoly.decrypt key nonce ct []
  opens key nonce msg := ChaChaPoly.decrypt_encrypt key nonce msg []
  length_encrypt key nonce msg := ChaChaPoly.length_encrypt key nonce msg []
  length_decrypt _ _ _ _ h := ChaChaPoly.length_of_decrypt h

def msgError : UInt8 := 3
def msgRecord : UInt8 := 4

/-- `be_nonce`: four zeros and the counter. -/
def beNonce (counter : UInt64) : Bytes 12 :=
  ⟨List.replicate 4 0 ++ Bytes.ofNatBe 8 counter.toNat, by
    rw [List.length_append, List.length_replicate, Bytes.length_ofNatBe]⟩

/-- `Transport`. -/
structure Transport where
  send : Bytes 32
  recv : Bytes 32
  txNonce : UInt64
  rxNonce : UInt64

/-- `Transport::new`. -/
def Transport.new (send recv : Bytes 32) : Transport := ⟨send, recv, 0, 0⟩

variable (ae : Aead)

/-- `seal_record`: the framed record, and the transport after it. -/
def Transport.sealRecord (tr : Transport) (plaintext : List UInt8) : List UInt8 × Transport :=
  let ct := ae.encrypt tr.send (beNonce tr.txNonce) plaintext
  (msgRecord :: Bytes.ofNatBe 2 ct.length ++ ct, { tr with txNonce := tr.txNonce + 1 })

/-- `open_record`; the counter goes on also when the record is not opened. -/
def Transport.openRecord (ct : List UInt8) : StateOutcome Transport String (List UInt8) := fun tr =>
  let tr' := { tr with rxNonce := tr.rxNonce + 1 }
  match ae.decrypt tr.recv (beNonce tr.rxNonce) ct with
  | some pt => (.ok pt, tr')
  | none => (.err ("open failed (MAC) at rx_nonce=" ++ toString tr.rxNonce.toNat), tr')

/-! ## The plumbing of `h2.rs` -/

/-- What `H2` reads from: the plaintext that is not consumed yet lies in `rx`. -/
structure Channel where
  conn : Conn
  tr : Transport
  rx : List UInt8

namespace Channel

/-- A computation of the connection. -/
def onConn {α : Type} (m : StateOutcome Conn String α) : StateOutcome Channel String α := fun t =>
  ((m t.conn).1, { t with conn := (m t.conn).2 })

/-- A computation of the transport. -/
def onTransport {α : Type} (m : StateOutcome Transport String α) :
    StateOutcome Channel String α := fun t =>
  ((m t.tr).1, { t with tr := (m t.tr).2 })

/-- `pull`: the plaintext of one record is appended. -/
def pull : StateOutcome Channel String Unit := do
  let (typ, ct) ← onConn Conn.readFrame
  if typ = msgRecord then
    let pt ← onTransport (Transport.openRecord ae ct)
    StateOutcome.modify fun t => { t with rx := t.rx ++ pt }
  else if typ = msgError then StateOutcome.fail ("control error: " ++ fromUtf8Lossy ct)
  else StateOutcome.fail ("unexpected control frame type " ++ toString typ.toNat)

/-- The loop of `read_exact`, with a bound on its rounds. -/
def pullLoop (n : ℕ) : ℕ → StateOutcome Channel String Unit
  | 0 => StateOutcome.lift .outOfFuel
  | fuel + 1 => fun t =>
    if t.rx.length < n then (pull ae >>= fun _ => pullLoop n fuel) t else (.ok (), t)

/-- `read_exact`; every record takes bytes from the connection. -/
def readExact (n : ℕ) : StateOutcome Channel String (List UInt8) := fun t =>
  (do
    pullLoop ae n (t.conn.pending.length + 1)
    let out ← StateOutcome.gets fun t : Channel => t.rx.take n
    StateOutcome.modify fun t : Channel => { t with rx := t.rx.drop n }
    pure out : StateOutcome Channel String (List UInt8)) t

/-- `EARLY_MAGIC`. -/
def earlyMagic : List UInt8 := [0xff, 0xff, 0xff, 0x54, 0x53]

/-- `consume_early_payload`: without the magic number the nine bytes are pushed back. -/
def consumeEarlyPayload : StateOutcome Channel String (Option (List UInt8)) := do
  let hdr ← readExact ae 9
  if hdr.take 5 = earlyMagic then
    let json ← readExact ae (Bytes.toNatBe (hdr.drop 5))
    pure (some json)
  else
    StateOutcome.modify fun t => { t with rx := hdr ++ t.rx }
    pure none

/-- `H2::read_frame`. -/
def readFrame : StateOutcome Channel String NetMap.Frame := do
  let hdr ← readExact ae 9
  let len := Bytes.toNatBe (hdr.take 3)
  let streamId := UInt32.ofNat (Bytes.toNatBe (hdr.drop 5)) &&& 0x7fffffff
  let payload ← if 0 < len then readExact ae len else pure []
  pure ⟨hdr.getD 3 0, hdr.getD 4 0, streamId, payload⟩

/-! ## What comes in -/

/-- There is no header of a frame left, nor one of a record: every later call fails alike. -/
def Exhausted (t : Channel) : Prop := t.rx.length < 9 ∧ t.conn.pending.length < 3

instance (t : Channel) : Decidable t.Exhausted := inferInstanceAs (Decidable (_ ∧ _))

/-- The error of a channel that is exhausted. -/
def closed (t : Channel) : String := t.conn.ending.message 3 t.conn.pending.length

/-- The bytes that are left, sealed or not. -/
def weight (t : Channel) : ℕ := t.rx.length + t.conn.pending.length

/-- What a call of `read_frame` returned; the length of a payload has three bytes. -/
def toRead : Outcome String NetMap.Frame → NetMap.H2.Read
  | .ok fr => if h : fr.payload.length < 2 ^ 24 then .frame ⟨fr, h⟩ else .failed ""
  | .err message => .failed message
  | .panic => .failed ""
  | .outOfFuel => .failed ""

def inboundLoop : ℕ → Channel → List NetMap.H2.Read × String
  | 0, t => ([], t.closed)
  | fuel + 1, t =>
    if t.Exhausted then ([], t.closed)
    else
      let (reads, closed) := inboundLoop fuel (readFrame ae t).2
      (toRead (readFrame ae t).1 :: reads, closed)

/-- What `read_frame` returns, call after call, and the error that it returns ever after. -/
def inbound (t : Channel) : List NetMap.H2.Read × String := inboundLoop ae t.weight t

end Channel

/-! ## The async variants -/

namespace AsyncConn

def fillLoop (ending : Ending) (n : ℕ) : List Piece → List UInt8 → Outcome String Unit × Conn
  | [], rx =>
    if rx.length < n then (.err (ending.message n rx.length), ⟨[], ending, rx⟩)
    else (.ok (), ⟨[], ending, rx⟩)
  | piece :: rest, rx =>
    if rx.length < n then fillLoop ending n rest (rx ++ piece.val)
    else (.ok (), ⟨piece :: rest, ending, rx⟩)

/-- `AsyncConn::fill_to`. -/
def fillTo (n : ℕ) : StateOutcome Conn String Unit := fun c => fillLoop c.ending n c.pieces c.rx

/-- `AsyncConn::take`, which gives the memory of a large buffer back when it is empty. -/
def take (n : ℕ) : StateOutcome Conn String (List UInt8) := do
  fillTo n
  let out ← StateOutcome.gets fun c => c.rx.take n
  StateOutcome.modify fun c => { c with rx := c.rx.drop n }
  pure out

/-- `AsyncConn::read_frame`. -/
def readFrame : StateOutcome Conn String (UInt8 × List UInt8) := do
  let hdr ← take 3
  let payload ← take (Bytes.toNatBe (hdr.drop 1))
  pure (hdr.getD 0 0, payload)

/-- The async connection is filled as the blocking one. -/
theorem fillTo_eq (n : ℕ) : fillTo n = Conn.fillTo n := by
  have hloop (ending : Ending) (pieces : List Piece) : ∀ rx,
      fillLoop ending n pieces rx = Control.fillLoop ending n pieces rx := by
    induction pieces with
    | nil => exact fun _ => rfl
    | cons piece rest ih =>
      intro rx
      rw [fillLoop, Control.fillLoop, ih]
  funext c
  exact hloop c.ending c.pieces c.rx

theorem take_eq (n : ℕ) : take n = Conn.take n := by
  rw [take, Conn.take, fillTo_eq]

theorem readFrame_eq : readFrame = Conn.readFrame := by
  rw [readFrame, Conn.readFrame]
  simp only [take_eq]

end AsyncConn

namespace AsyncH2

open Channel (onConn onTransport)

/-- `AsyncH2::pull`. -/
def pull : StateOutcome Channel String Unit := do
  let (typ, ct) ← onConn AsyncConn.readFrame
  if typ = msgRecord then
    let pt ← onTransport (Transport.openRecord ae ct)
    StateOutcome.modify fun t => { t with rx := t.rx ++ pt }
  else if typ = msgError then StateOutcome.fail ("control error: " ++ fromUtf8Lossy ct)
  else StateOutcome.fail ("unexpected control frame type " ++ toString typ.toNat)

/-- The loop of `read_exact`, with a bound on its rounds. -/
def pullLoop (n : ℕ) : ℕ → StateOutcome Channel String Unit
  | 0 => StateOutcome.lift .outOfFuel
  | fuel + 1 => fun t =>
    if t.rx.length < n then (pull ae >>= fun _ => pullLoop n fuel) t else (.ok (), t)

/-- `AsyncH2::read_exact`, which gives the memory of a large buffer back when it is empty. -/
def readExact (n : ℕ) : StateOutcome Channel String (List UInt8) := fun t =>
  (do
    pullLoop ae n (t.conn.pending.length + 1)
    let out ← StateOutcome.gets fun t : Channel => t.rx.take n
    StateOutcome.modify fun t : Channel => { t with rx := t.rx.drop n }
    pure out : StateOutcome Channel String (List UInt8)) t

/-- `AsyncH2::consume_early_payload`. -/
def consumeEarlyPayload : StateOutcome Channel String (Option (List UInt8)) := do
  let hdr ← readExact ae 9
  if hdr.take 5 = Channel.earlyMagic then
    let json ← readExact ae (Bytes.toNatBe (hdr.drop 5))
    pure (some json)
  else
    StateOutcome.modify fun t => { t with rx := hdr ++ t.rx }
    pure none

/-- `AsyncH2::read_frame`. -/
def readFrame : StateOutcome Channel String NetMap.Frame := do
  let hdr ← readExact ae 9
  let len := Bytes.toNatBe (hdr.take 3)
  let streamId := UInt32.ofNat (Bytes.toNatBe (hdr.drop 5)) &&& 0x7fffffff
  let payload ← if 0 < len then readExact ae len else pure []
  pure ⟨hdr.getD 3 0, hdr.getD 4 0, streamId, payload⟩

def inboundLoop : ℕ → Channel → List NetMap.H2.Read × String
  | 0, t => ([], t.closed)
  | fuel + 1, t =>
    if t.Exhausted then ([], t.closed)
    else
      let (reads, closed) := inboundLoop fuel (readFrame ae t).2
      (Channel.toRead (readFrame ae t).1 :: reads, closed)

/-- What `read_frame` returns, call after call, and the error that it returns ever after. -/
def inbound (t : Channel) : List NetMap.H2.Read × String := inboundLoop ae t.weight t

theorem pull_eq : pull ae = Channel.pull ae := by
  rw [pull, Channel.pull, AsyncConn.readFrame_eq]

/-- The async session reads as the blocking one. -/
theorem readExact_eq (n : ℕ) : readExact ae n = Channel.readExact ae n := by
  have hloop : ∀ fuel, pullLoop ae n fuel = Channel.pullLoop ae n fuel := by
    intro fuel
    induction fuel with
    | zero => rfl
    | succ fuel ih => rw [pullLoop, Channel.pullLoop, pull_eq, ih]
  funext t
  rw [readExact, Channel.readExact, hloop]

theorem consumeEarlyPayload_eq : consumeEarlyPayload ae = Channel.consumeEarlyPayload ae := by
  rw [consumeEarlyPayload, Channel.consumeEarlyPayload]
  simp only [readExact_eq]

theorem readFrame_eq : readFrame ae = Channel.readFrame ae := by
  rw [readFrame, Channel.readFrame]
  simp only [readExact_eq]

/-- **Frame after frame the async session reads what the blocking one reads.** -/
theorem inbound_eq (t : Channel) : inbound ae t = Channel.inbound ae t := by
  have hloop : ∀ fuel t, inboundLoop ae fuel t = Channel.inboundLoop ae fuel t := by
    intro fuel
    induction fuel with
    | zero => exact fun _ => rfl
    | succ fuel ih =>
      intro t
      rw [inboundLoop, Channel.inboundLoop, ih, readFrame_eq]
  exact hloop t.weight t

end AsyncH2

end Control
