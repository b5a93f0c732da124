/-
# Pushing programs over the serial link

Two parties and two queues of bytes.  The host (`push_program` and `read_reply_line`
of `main.rs`) writes a program as a line of hexadecimal and reads lines until one
starts with `OK ` or `ERR `; the device (the main loop and `handle_line` of the
firmware) collects the bytes of a line, decodes and evaluates the line at its end,
and writes one line back.  A line that grows past `MAX_LINE` is dropped and reported
at once.

`step` is one event: a call of `push_program`, a byte that the device takes, a line
that the device logs, or a byte that the host takes.  The link also keeps, for the
theorems only, the request lines written, the lines the device has decoded with the
readings they were evaluated against, and the replies it has sent.
-/
import PySpell.Eval
import PySpell.Lib.Hex
import PySpell.Lib.Runs

namespace Serial

open Text

/-! ## What lies outside -/

/-- The codec of the wire format, and what belongs to the machine. -/
structure Platform where
  toBytes : Program → Except DslError (List UInt8)
  fromBytes : List UInt8 → Except DslError Program
  encodeValue : Value → Except DslError (List UInt8)
  decodeValue : List UInt8 → Except DslError Value
  toUppercase : String → String
  toLowercase : String → String
  sizeOfValue : ℕ

/-- What the device reads from its sensors for one evaluation. -/
structure Readings where
  freeHeap : UInt32
  minFreeHeap : UInt32
  uptimeUs : Int64
  deriving DecidableEq

variable (pf : Platform)

/-! ## The device -/

/-- `MAX_LINE`. -/
def maxLine : ℕ := 8 * 1024

/-- `device_env`. -/
def deviceEnv (r : Readings) (name : String) : Option Value :=
  [("free_heap", Value.int (Int64.ofNat r.freeHeap.toNat)),
    ("min_free_heap", Value.int (Int64.ofNat r.minFreeHeap.toNat)),
    ("uptime_ms", Value.int (r.uptimeUs / 1000)),
    ("uptime_s", Value.int (r.uptimeUs / 1000000))].lookup name

/-- The device as a host of programs: an environment and no capability. -/
def deviceHost (r : Readings) : Host where
  env := fun _ => deviceEnv r
  net := none
  display := none
  actuator := none
  deadline := none
  toUppercase := pf.toUppercase
  toLowercase := pf.toLowercase
  sizeOfValue := pf.sizeOfValue

/-- `eval::run` on the device. -/
def evalOn (r : Readings) (p : Program) : Outcome DslError Value :=
  (Eval.runWith (deviceHost pf r) p p.maxSteps 0xffffffff).1

/-- `reply_ok`. -/
def replyOk (payload : List UInt8) : String := "OK " ++ Hex.encode payload

/-- `reply_err`. -/
def replyErr (msg : String) : String := "ERR " ++ msg

/-- `handle_line`: the reply, or `none` when the evaluation panics. -/
def handleLine (r : Readings) (line : List UInt8) : Option String :=
  match Hex.decode line with
  | none => some (replyErr "malformed hex")
  | some bytes =>
    match pf.fromBytes bytes with
    | .error e => some (replyErr ("decode: " ++ e.text))
    | .ok program =>
      match evalOn pf r program with
      | .ok value =>
        match pf.encodeValue value with
        | .ok payload => some (replyOk payload)
        | .error e => some (replyErr ("encode: " ++ e.text))
      | .err e => some (replyErr ("eval: " ++ e.text))
      | .panic => none
      | .outOfFuel => none

/-- `b'\n' | b'\r'`. -/
def isNewline (b : UInt8) : Bool := b = 10 || b = 13

/-- What the main loop does with a byte: the line buffer behind it, the line it has
handled and the reply it has sent, if any. -/
def onByte (r : Readings) (line : List UInt8) (byte : UInt8) :
    Option (List UInt8 × Option (List UInt8) × Option String) :=
  if isNewline byte then
    if line = [] then some ([], none, none)
    else (handleLine pf r line).map fun reply => ([], some line, some reply)
  else if line.length < maxLine then some (line ++ [byte], none, none)
  else some ([], none, some (replyErr "request line too long"))

/-- `reply_line`. -/
def replyLine (s : String) : List UInt8 := utf8 s ++ [10]

/-! ## The host -/

/-- `str::starts_with`. -/
def startsWith (s pre : String) : Bool := pre.toList.isPrefixOf s.toList

/-- `str::strip_prefix`. -/
def stripPrefix (s pre : String) : Option String :=
  if startsWith s pre then some (String.ofList (s.toList.drop pre.length)) else none

/-- The lines that `read_reply_line` returns. -/
def isReply (s : String) : Bool := startsWith s "OK " || startsWith s "ERR "

/-- What `push_program` makes of the reply line. -/
def interpret (line : String) : Except String Value :=
  match stripPrefix line "OK " with
  | some rest =>
    match Hex.decode (utf8 (trim rest)) with
    | none => .error "device sent malformed hex"
    | some payload => (pf.decodeValue payload).mapError DslError.text
  | none =>
    match stripPrefix line "ERR " with
    | some msg => .error ("device: " ++ trim msg)
    | none => .error ("unexpected device reply: " ++ line)

/-- The request line of a program, without the newline. -/
def requestLine (bytes : List UInt8) : List UInt8 := utf8 (Hex.encode bytes)

/-! ## The link -/

/-- Both parties and what is in flight between them. -/
structure Link where
  toDevice : List UInt8
  toHost : List UInt8
  /-- The line buffer of the device. -/
  device : List UInt8
  /-- The line that a call of `push_program` has read so far, while one waits. -/
  waiting : Option (List UInt8)
  /-- The programs that are still to be pushed. -/
  todo : List Program
  /-- What the calls have returned. -/
  results : List (Except String Value)
  requests : List (List UInt8)
  handled : List (List UInt8 × Readings)
  replies : List String

/-- An empty link and programs to push. -/
def start (programs : List Program) : Link where
  toDevice := []
  toHost := []
  device := []
  waiting := none
  todo := programs
  results := []
  requests := []
  handled := []
  replies := []

inductive LinkEvent where
  /-- The host calls `push_program` with the next program. -/
  | call
  /-- The device takes a byte; the readings are those of the moment. -/
  | deviceByte (r : Readings)
  /-- The device logs a line. -/
  | log (text : List UInt8) (newline : UInt8)
  /-- The host takes a byte. -/
  | hostByte

/-- `push_program` up to its wait for the reply. -/
def callNext (s : Link) : Option Link :=
  match s.waiting, s.todo with
  | none, p :: ps =>
    match pf.toBytes p with
    | .error e => some { s with todo := ps, results := s.results ++ [.error e.text] }
    | .ok bytes => some { s with
        todo := ps
        waiting := some []
        toDevice := s.toDevice ++ (requestLine bytes ++ [10])
        requests := s.requests ++ [requestLine bytes] }
  | _, _ => none

/-- A turn of the main loop. -/
def deviceTakes (s : Link) (r : Readings) : Option Link :=
  match s.toDevice with
  | [] => none
  | byte :: rest =>
    (onByte pf r s.device byte).map fun (line, ran, reply) => { s with
      toDevice := rest
      device := line
      toHost := s.toHost ++ reply.elim [] replyLine
      handled := s.handled ++ ran.toList.map fun l => (l, r)
      replies := s.replies ++ reply.toList }

/-- The device logs a line that does not start like a reply. -/
def deviceLogs (s : Link) (text : List UInt8) (newline : UInt8) : Option Link :=
  if isNewline newline ∧ text.all (fun b => !isNewline b) ∧ ¬ isReply (fromUtf8Lossy text) then
    some { s with toHost := s.toHost ++ (text ++ [newline]) }
  else none

/-- A turn of `read_reply_line`, and the rest of `push_program` when it returns. -/
def hostTakes (s : Link) : Option Link :=
  match s.waiting, s.toHost with
  | some line, byte :: rest =>
    if isNewline byte then
      if line = [] then some { s with toHost := rest }
      else if isReply (fromUtf8Lossy line) then
        some { s with
          toHost := rest
          waiting := none
          results := s.results ++ [interpret pf (fromUtf8Lossy line)] }
      else some { s with toHost := rest, waiting := some [] }
    else some { s with toHost := rest, waiting := some (line ++ [byte]) }
  | _, _ => none

def step (s : Link) : LinkEvent → Option Link
  | .call => callNext pf s
  | .deviceByte r => deviceTakes pf s r
  | .log text newline => deviceLogs s text newline
  | .hostByte => hostTakes pf s

/-! ## What a call is for -/

/-- The outcome of a program: what its evaluation gives, or why it gives nothing. -/
def outcome (r : Readings) (p : Program) : Except String Value :=
  match pf.toBytes p with
  | .error e => .error e.text
  | .ok _ =>
    match evalOn pf r p with
    | .ok v =>
      match pf.encodeValue v with
      | .ok _ => .ok v
      | .error e => .error ("device: " ++ trim ("encode: " ++ e.text))
    | .err e => .error ("device: " ++ trim ("eval: " ++ e.text))
    | .panic => .error "panic"
    | .outOfFuel => .error "panic"

/-- A text without a line break. -/
def OneLine (s : String) : Prop := '\n' ∉ s.toList ∧ '\r' ∉ s.toList

/-- What the wire format promises: whatever is encoded decodes to itself, a program
takes a byte at least, and its own errors are one line long. -/
structure Platform.Sound : Prop where
  toBytes_ne_nil : ∀ {p bytes}, pf.toBytes p = .ok bytes → bytes ≠ []
  fromBytes_toBytes : ∀ {p bytes}, pf.toBytes p = .ok bytes → pf.fromBytes bytes = .ok p
  decodeValue_encodeValue : ∀ {v bytes}, pf.encodeValue v = .ok bytes →
    pf.decodeValue bytes = .ok v
  encodeValue_error : ∀ {v e}, pf.encodeValue v = .error e → OneLine e.text

/-- The programs that the link can carry: at most half of `MAX_LINE` bytes long, and
evaluated without a panic and without an error text that breaks the line. -/
structure Fits (p : Program) : Prop where
  size : ∀ bytes, pf.toBytes p = .ok bytes → bytes.length ≤ 4096
  returns : ∀ r, (evalOn pf r p).Returns
  oneLine : ∀ r e, evalOn pf r p = .err e → OneLine e.text

end Serial
