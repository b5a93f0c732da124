/-
# One fetch between two devices

The client that one device runs (`TcpClient`) against the server of another (`TcpServer`),
over a tunnel that delivers the packets of each side in order.  A `Link` is the two ends with
the packets in flight; its events deliver the first packet of a direction, in any
interleaving, and let the server's timer tick.

As long as no timer fires, the client's buffer is a prefix of the response that the server
staged, and all of it when the client is done; there are at most five deliveries for each
byte of the response, and fourteen more; and when no packet is in flight the client is done
and the server has closed the connection (`fetch_completes`).

`Phase` is the invariant: where the exchange stands, with a bound on the deliveries to come.
-/
import PySpell.Checksums
import PySpell.LocalServer
import PySpell.OutboundClient
import PySpell.TcpAck
import PySpell.TcpBatch

open Text Http Tcp TcpServer Runs SeqNumber

/-! ## Segments read back -/

namespace Outbound

/-- The bytes of a segment, for the checksums that it carries. -/
theorem tcpSegment_bytes (src dst : Ip) (sport dport : ℕ) (seq ack : UInt32) (flags : UInt8)
    (payload : List UInt8) : ∃ sum sum', tcpSegment src dst sport dport seq ack flags payload =
      [0x45, 0] ++ (be16 (40 + payload.length) ++ ([0, 0, 0x40, 0, 64, protoTcp] ++ (be16 sum ++
        (src.bytes ++ (dst.bytes ++ (be16 sport ++ (be16 dport ++ (be32 seq ++ (be32 ack ++
        ([0x50, flags] ++ (be16 64240 ++ (be16 sum' ++ ([0, 0] ++ payload))))))))))))) := by
  rw [tcpSegment]
  dsimp only
  generalize l4Checksum _ _ _ _ = sum'
  rw [ipv4Packet]
  dsimp only
  generalize checksum _ = sum
  refine ⟨sum, sum', ?_⟩
  have hlen : 20 + (be16 sport ++ be16 dport ++ be32 seq ++ be32 ack ++ [0x50, flags] ++
      be16 64240 ++ be16 sum' ++ [0, 0] ++ payload).length = 40 + payload.length := by
    simp only [be16, be32, List.length_append, List.length_cons, List.length_nil]
    omega
  rw [hlen]
  simp only [List.append_assoc]

/-- **A segment is read back**, by a server and by the client. -/
theorem parsePacket_tcpSegment {src dst : Ip} {sport dport : ℕ} {seq ack : UInt32} {flags : UInt8}
    {payload : List UInt8} (hlen : 40 + payload.length < 65536) (hsport : sport < 65536)
    (hdport : dport < 65536) :
    parsePacket (tcpSegment src dst sport dport seq ack flags payload) =
      some ⟨src, dst, sport, dport, seq, ack, flags, 64240, payload⟩ := by
  obtain ⟨sum, sum', heq⟩ := tcpSegment_bytes src dst sport dport seq ack flags payload
  have hwindow : 64240 < 65536 := by decide
  generalize tcpSegment src dst sport dport seq ack flags payload = inner at heq ⊢
  generalize 64240 = win at heq hwindow ⊢
  have hversion : inner.getD 0 0 = 0x45 := by rw [heq]; rfl
  have hproto : inner.getD 9 0 = protoTcp := by rw [heq]; rfl
  have hoff : (inner.drop 20).getD 12 0 = 0x50 := by rw [heq]; rfl
  have hflags : (inner.drop 20).getD 13 0 = flags := by rw [heq]; rfl
  have hpayload : (inner.drop 20).drop 20 = payload := by rw [heq]; rfl
  have hsrc : ipAt inner 12 = src := by rw [heq]; rfl
  have hdst : ipAt inner 16 = dst := by rw [heq]; rfl
  have htotal : u16At inner 2 = 40 + payload.length := by rw [heq]; exact u16_of_be16 hlen
  have hsp : u16At (inner.drop 20) 0 = sport := by rw [heq]; exact u16_of_be16 hsport
  have hdp : u16At (inner.drop 20) 2 = dport := by rw [heq]; exact u16_of_be16 hdport
  have hwin : u16At (inner.drop 20) 14 = win := by rw [heq]; exact u16_of_be16 hwindow
  have hseq : u32At (inner.drop 20) 4 = seq := by rw [heq]; exact u32_of_be32 seq
  have hack : u32At (inner.drop 20) 8 = ack := by rw [heq]; exact u32_of_be32 ack
  have hbytes : inner.length = 40 + payload.length := by
    have hlength := congrArg List.length heq
    simp only [List.length_append, Ip.bytes, be16, be32, List.length_cons, List.length_nil]
      at hlength
    omega
  have hihl : (0x45 : UInt8).toNat % 16 * 4 = 20 := by decide
  have hdataOff : (0x50 : UInt8).toNat / 16 * 4 = 20 := by decide
  have hfour : (0x45 : UInt8).toNat / 16 = 4 := by decide
  clear heq
  have htake : inner.take (40 + payload.length) = inner := List.take_of_length_le (by omega)
  have hdrop : (inner.drop 20).length = 20 + payload.length := by
    rw [List.length_drop]
    omega
  unfold parsePacket
  rw [hversion, hproto, hfour, if_neg (by rintro (h | h | h) <;> [omega; exact h rfl; exact h rfl])]
  dsimp only
  rw [hihl, htotal, htake, if_neg (by omega), hoff, hdataOff, hdrop, if_neg (by omega)]
  rw [hsrc, hdst, hsp, hdp, hseq, hack, hflags, hwin, hpayload]

namespace TcpClient

/-- The client owns the packets for its port. -/
theorem owns_of_parsePacket {c : TcpClient} {inner : List UInt8} {p : Packet}
    (h : parsePacket inner = some p) (hport : p.dport = c.sport) : c.owns inner = true := by
  unfold parsePacket at h
  split at h
  · cases h
  next hip =>
  dsimp only at h
  split at h
  · cases h
  next hlen =>
  split at h
  · cases h
  rw [← Option.some_inj.mp h] at hport
  dsimp only at hport
  rw [not_or, not_or, not_lt, not_lt, not_lt] at hlen
  unfold owns
  rw [if_neg hip]
  dsimp only
  generalize (inner.getD 0 0).toNat % 16 * 4 = ihl at hlen hport ⊢
  have hget : ∀ i, i < 20 →
      ((inner.take (u16At inner 2)).drop ihl).getD i 0 = inner.getD (ihl + i) 0 := by
    intro i hi
    rw [List.getD_eq_getElem?_getD, List.getElem?_drop, List.getElem?_take, if_pos (by omega),
      ← List.getD_eq_getElem?_getD]
  rw [u16At, hget 2 (by omega), hget 3 (by omega)] at hport
  rw [Bool.and_eq_true, decide_eq_true_iff, decide_eq_true_iff]
  exact ⟨by omega, hport⟩

/-- **What the client does with a packet for its port.** -/
theorem onInner_of_parsePacket {c : TcpClient} {inner : List UInt8} {p : Packet}
    (h : parsePacket inner = some p) (hport : p.dport = c.sport) (hdone : c.done = false) :
    c.onInner inner =
      if p.flags &&& SYN ≠ 0 ∧ p.flags &&& ACK ≠ 0 ∧ c.established = false then
        let c := { c with rcvNxt := p.seq + 1, established := true }
        ({ c with sndNxt := c.sndNxt + UInt32.ofNat c.request.length },
          [c.segment ACK [], c.segment (PSH ||| ACK) c.request])
      else c.onSegment p.seq p.flags p.payload := by
  have hguard : ¬(!c.owns inner || c.done) = true := by
    rw [owns_of_parsePacket h hport, hdone]
    decide
  unfold parsePacket at h
  split at h
  · cases h
  dsimp only at h
  split at h
  · cases h
  next hlen =>
  split at h
  · cases h
  next hdata =>
  rw [onInner, if_neg hguard]
  dsimp only
  rw [if_neg fun hbad => hlen (.inr hbad), if_neg hdata, ← Option.some_inj.mp h]

/-- Nothing more is taken once the client is done. -/
theorem onInner_of_done {c : TcpClient} (hdone : c.done = true) (inner : List UInt8) :
    c.onInner inner = (c, []) := by
  rw [onInner, hdone, Bool.or_true, if_pos rfl]

end TcpClient

end Outbound

/-! ## The link -/

/-- The two ends, and the packets in flight. -/
structure Link where
  client : Outbound.TcpClient
  server : TcpServer
  up : List (List UInt8)
  down : List (List UInt8)

namespace Link

open Outbound

/-- A delivery to one side, with the time and the number that a connection starts from, or
a tick of the server's timer. -/
inductive Event where
  | toServer (now : ℕ) (iss : UInt32)
  | toClient
  | tick (now : ℕ)

def step (x : Link) : Event → Option Link
  | .toServer now iss =>
    match x.up with
    | [] => none
    | inner :: up =>
      let (server, sent) := x.server.handleStream inner now iss
      some ⟨x.client, server, up, x.down ++ sent.map Sent.packet⟩
  | .toClient =>
    match x.down with
    | [] => none
    | inner :: down =>
      let (client, sent) := x.client.onInner inner
      some ⟨client, x.server, x.up ++ sent, down⟩
  | .tick now =>
    let (server, sent) := x.server.tick now
    some ⟨x.client, server, x.up, x.down ++ sent.map Sent.packet⟩

/-- The client has sent its SYN to a server in any state. -/
def start (c : TcpClient) (s : TcpServer) : Link := ⟨c.openConn.1, s, [c.openConn.2], []⟩

/-- Neither the retransmission timer nor the watchdog fires. -/
def Quiet (x : Link) : Event → Prop
  | .tick now => x.server.conn.active = true →
    now - x.server.conn.openedMs ≤ maxConnMs ∧ x.server.rtoFires now = false
  | _ => True

/-- Whether an event is a delivery. -/
def Event.delivers : Event → Bool
  | .tick _ => false
  | _ => true

end Link

namespace TcpServer

/-- What `route_request` replies to a request for an address. -/
def replyTo (s : TcpServer) (ourIp : Ip) (req : List UInt8) : HttpReply :=
  ({ s with conn := { s.conn with ourIp := ourIp } }.routeRequest req).2

/-- The reply depends on the handler and on the address. -/
theorem replyTo_congr {s t : TcpServer} (h : s.handler = t.handler) (ourIp : Ip)
    (req : List UInt8) : s.replyTo ourIp req = t.replyTo ourIp req := by
  unfold replyTo routeRequest
  dsimp only
  rw [h]
  split <;> rfl

/-- What a request is answered with depends on the request and on the address that it came to. -/
theorem routeRequest_snd (s : TcpServer) (req : List UInt8) :
    (s.routeRequest req).2 = s.replyTo s.conn.ourIp req := rfl

/-- A timer that does not fire does nothing. -/
theorem tick_of_quiet {s : TcpServer} {now : ℕ} (h : s.conn.active = true →
    now - s.conn.openedMs ≤ maxConnMs ∧ s.rtoFires now = false) : s.tick now = (s, []) := by
  unfold tick
  cases hactive : s.conn.active with
  | false => rfl
  | true =>
    obtain ⟨hopen, hfires⟩ := h hactive
    rw [if_neg (by decide), if_neg (by omega), hfires]
    rfl

end TcpServer

namespace Link

open Outbound

/-! ## Numbers -/

/-- The number of a byte of the response. -/
def number (iss : UInt32) (n : ℕ) : UInt32 := iss + 1 + UInt32.ofNat n

/-- Numbers of the stream go on by counts. -/
theorem number_add (iss : UInt32) (a b : ℕ) :
    number iss a + UInt32.ofNat b = number iss (a + b) := by
  rw [number, number, UInt32.ofNat_add, UInt32.add_assoc]

/-- The position of a number of the stream is its count, below half of the sequence numbers. -/
theorem pos_number (iss : UInt32) {n : ℕ} (h : n < 2 ^ 31) : pos (iss + 1) (number iss n) = n := by
  have hself := pos_self (iss + 1)
  rw [number, pos_add (by omega), hself, zero_add]

/-- There the comparison of sequence numbers is the one of counts. -/
theorem lt_number (iss : UInt32) {a b : ℕ} (ha : a < 2 ^ 31) (hb : b < 2 ^ 31) :
    SeqNumber.lt (number iss a) (number iss b) = decide (a < b) := by
  have hposa := pos_number iss ha
  have hposb := pos_number iss hb
  by_cases hab : a < b
  · rw [decide_eq_true hab]
    exact lt_eq_true_of_pos (b := iss + 1) (by omega) (by omega)
  · rw [decide_eq_false hab]
    exact lt_eq_false_of_pos (b := iss + 1) (by omega) (by omega)

/-- And a number stands for one count only. -/
theorem number_inj {iss : UInt32} {a b : ℕ} (ha : a < 2 ^ 31) (hb : b < 2 ^ 31)
    (h : number iss a = number iss b) : a = b := by
  have hposa := pos_number iss ha
  rw [h, pos_number iss hb] at hposa
  omega

/-! ## Pieces of the response -/

/-- What is asked of a fetch: the request fits in a segment, and the response that it stages
is short enough for the sequence numbers and can be read. -/
structure Fits (c₀ : TcpClient) (handler : Option RouteFn) (r : RespState) : Prop where
  fresh : c₀.established = false ∧ c₀.done = false ∧ c₀.response = []
  dport : c₀.dport = httpPort
  sport : c₀.sport < 65536
  request : c₀.request ≠ []
  segment : 40 + c₀.request.length < 65536
  staged : r = stageResponse ((TcpServer.new handler).replyTo c₀.dst c₀.request) c₀.request
  small : r.totalLen + 1 < 2 ^ 31
  fills : r.source.Fills

variable {c₀ : TcpClient} {handler : Option RouteFn} {r : RespState} {iss : UInt32}

/-- A packet from the server. -/
def FromServer (c₀ : TcpClient) (seq : UInt32) (flags : UInt8) (bytes inner : List UInt8) : Prop :=
  ∃ ack, parsePacket inner =
    some ⟨c₀.dst, c₀.src, c₀.dport, c₀.sport, seq, ack, flags, 64240, bytes⟩

/-- A packet from the client. -/
def FromClient (c₀ : TcpClient) (ack : UInt32) (flags : UInt8) (bytes inner : List UInt8) : Prop :=
  ∃ seq, parsePacket inner =
    some ⟨c₀.src, c₀.dst, c₀.sport, c₀.dport, seq, ack, flags, 64240, bytes⟩

/-- The flags of a piece: the last one takes the FIN along. -/
def pieceFlags (r : RespState) (stop : ℕ) : UInt8 :=
  if stop = r.totalLen then PSH ||| ACK ||| FIN else PSH ||| ACK

/-- The packets carry the response from one offset to another. -/
inductive Pieces (c₀ : TcpClient) (r : RespState) (iss : UInt32) : ℕ → ℕ → List (List UInt8) → Prop
  | nil (k : ℕ) : Pieces c₀ r iss k k []
  | cons {k m : ℕ} {inner bytes : List UInt8} {rest : List (List UInt8)}
      (hinner : FromServer c₀ (number iss k) (pieceFlags r (k + bytes.length)) bytes inner)
      (hne : bytes ≠ []) (hle : k + bytes.length ≤ r.totalLen)
      (hbytes : r.stream.take k ++ bytes = r.stream.take (k + bytes.length))
      (hrest : Pieces c₀ r iss (k + bytes.length) m rest) : Pieces c₀ r iss k m (inner :: rest)

/-- Pieces up to an offset, and pieces from there on. -/
theorem Pieces.append {k m n : ℕ} {xs ys : List (List UInt8)} (h : Pieces c₀ r iss k m xs)
    (h' : Pieces c₀ r iss m n ys) : Pieces c₀ r iss k n (xs ++ ys) := by
  induction h with
  | nil => exact h'
  | cons hinner hne hle hbytes _ ih => exact .cons hinner hne hle hbytes (ih h')

/-- Pieces go forward. -/
theorem Pieces.le {k m : ℕ} {xs : List (List UInt8)} (h : Pieces c₀ r iss k m xs) : k ≤ m := by
  induction h with
  | nil => exact le_rfl
  | cons hinner hne hle hbytes hrest ih => omega

/-- No piece is empty, so none leads from an offset to itself. -/
theorem Pieces.eq_nil {k : ℕ} {xs : List (List UInt8)} (h : Pieces c₀ r iss k k xs) : xs = [] := by
  cases h with
  | nil => rfl
  | cons hinner hne hle hbytes hrest =>
    have hlong := hrest.le
    have hpos := List.length_pos_of_ne_nil hne
    omega

/-- The stream of a response is as long as the response. -/
theorem length_stream (hfills : r.source.Fills) : r.stream.length = r.totalLen :=
  (drain_spec (RespState.readsAt hfills) (by decide : 0 < Tcp.mss) (r.totalLen + 1) 0 (by omega)).1

/-- A piece at an offset continues what is before it. -/
theorem take_stream_append (hfills : r.source.Fills) {k : ℕ} {bytes : List UInt8}
    (hbytes : BytesAt bytes r.byteAt k) (hle : k + bytes.length ≤ r.totalLen) :
    r.stream.take k ++ bytes = r.stream.take (k + bytes.length) := by
  obtain ⟨-, hstream⟩ := drain_spec (RespState.readsAt hfills) (by decide : 0 < Tcp.mss)
    (r.totalLen + 1) 0 (by omega)
  have hlen := length_stream hfills
  rw [← RespState.stream] at hstream
  rw [List.take_add]
  congr 1
  apply List.ext_getElem
  · rw [List.length_take, List.length_drop]
    omega
  · intro i hi hi'
    rw [List.getElem_take, List.getElem_drop, hbytes i hi, hstream, Nat.zero_add]

/-! ## The server's side -/

/-- The server streams the response: so much is acknowledged, and so much is sent. -/
structure Serves (c₀ : TcpClient) (r : RespState) (iss : UInt32) (u m : ℕ) (c : Conn) : Prop where
  active : c.active = true
  clientIp : c.clientIp = c₀.src
  ourIp : c.ourIp = c₀.dst
  clientPort : c.clientPort = c₀.sport
  start : c.iss = iss
  una : c.sndUna = number iss u
  nxt : c.sndNxt = number iss (m + if m = r.totalLen then 1 else 0)
  resp : c.resp = some (r.withFin (decide (m = r.totalLen)))
  le : u ≤ m
  le_total : m ≤ r.totalLen

variable {u m : ℕ} {c : Conn}

/-- A segment of the server is parsed by the client as what it was made of, since the fields
fit. -/
theorem fromServer_segment (hip : c.clientIp = c₀.src) (hour : c.ourIp = c₀.dst)
    (hport : c.clientPort = c₀.sport) (hfits : Fits c₀ handler r) (flags : UInt8)
    {bytes : List UInt8} (hlen : 40 + bytes.length < 65536) :
    FromServer c₀ c.sndNxt flags bytes (c.segment flags bytes) := by
  refine ⟨c.rcvNxt, ?_⟩
  rw [Checksums.segment_eq_tcpSegment, parsePacket_tcpSegment hlen
    (show httpPort < 65536 by decide) (by rw [hport]; exact hfits.sport), hip, hour, hport,
    hfits.dport]

/-- A piece of the stream arrives with its number and its bytes. -/
theorem Serves.segment (h : Serves c₀ r iss u m c) (hfits : Fits c₀ handler r) {flags : UInt8}
    {bytes : List UInt8} (hbytes : bytes.length ≤ mss) (hm : m < r.totalLen) :
    FromServer c₀ (number iss m) flags bytes (c.segment flags bytes) := by
  have hmss : mss = 512 := rfl
  have hnxt : c.sndNxt = number iss m := by rw [h.nxt, if_neg hm.ne, Nat.add_zero]
  have hsent := fromServer_segment h.clientIp h.ourIp h.clientPort hfits flags
    (show 40 + bytes.length < 65536 by omega)
  rwa [hnxt] at hsent

/-- The server's own counts of what was acknowledged and sent are those of the stream. -/
theorem Serves.bytes (h : Serves c₀ r iss u m c) (hsmall : r.totalLen + 1 < 2 ^ 31) :
    c.ackedBytes = u ∧ c.sentBytes = m := by
  have hle := h.le
  have htotal := h.le_total
  have hwhole : (r.withFin (decide (m = r.totalLen))).totalLen = r.totalLen := rfl
  constructor
  · have hpos := Conn.bytesBefore_pos h.resp c.sndUna
    rw [Conn.rel, h.start, h.una, pos_number iss (by omega), hwhole] at hpos
    rw [Conn.ackedBytes, h.una]
    omega
  · have hpos := Conn.bytesBefore_pos h.resp c.sndNxt
    have hfin : m + (if m = r.totalLen then 1 else 0) = m ∨
        m = r.totalLen ∧ m + (if m = r.totalLen then 1 else 0) = m + 1 := by
      split <;> omega
    have hnxt := h.nxt
    generalize (if m = r.totalLen then 1 else 0) = fin at hfin hnxt
    rw [Conn.rel, h.start, hnxt, pos_number iss (by omega), hwhole] at hpos
    rw [Conn.sentBytes, hnxt]
    omega

/-! ### Pumping -/

/-- The number behind a piece, while the FIN has not gone out. -/
theorem Serves.nxt_add (h : Serves c₀ r iss u m c) (hm : m < r.totalLen) (k : ℕ) :
    c.sndNxt + UInt32.ofNat k = number iss (m + k) := by
  rw [h.nxt, if_neg hm.ne, Nat.add_zero, number_add]

/-- A piece that does not end the response takes the count on, and nothing else. -/
theorem Serves.more (h : Serves c₀ r iss u m c) {k : ℕ} (hk : m + k < r.totalLen) (now : ℕ) :
    Serves c₀ r iss u (m + k)
      { c with sndNxt := c.sndNxt + UInt32.ofNat k, lastSendMs := now } := by
  have hle := h.le
  have hm : m < r.totalLen := by omega
  constructor
  · exact h.active
  · exact h.clientIp
  · exact h.ourIp
  · exact h.clientPort
  · exact h.start
  · exact h.una
  · rw [if_neg hk.ne]
    exact h.nxt_add hm k
  · rw [decide_eq_false hk.ne]
    dsimp only
    rw [h.resp, decide_eq_false hm.ne]
  · omega
  · omega

/-- The last piece takes the FIN along, which has a number of its own. -/
theorem Serves.last (h : Serves c₀ r iss u m c) {k : ℕ} (hm : m < r.totalLen)
    (hk : m + k = r.totalLen) (now : ℕ) :
    Serves c₀ r iss u r.totalLen
      { c with
        sndNxt := c.sndNxt + UInt32.ofNat k + 1
        lastSendMs := now
        resp := c.resp.map (·.withFin true) } := by
  have hle := h.le
  constructor
  · exact h.active
  · exact h.clientIp
  · exact h.ourIp
  · exact h.clientPort
  · exact h.start
  · exact h.una
  · rw [if_pos rfl, ← hk]
    dsimp only
    rw [h.nxt_add hm]
    exact number_add iss (m + k) 1
  · rw [decide_eq_true rfl]
    dsimp only
    rw [h.resp]
    rfl
  · omega
  · exact le_rfl

/-- What the pump reads of the response: some of what is wanted, and it continues what went
before. -/
theorem Serves.read (h : Serves c₀ r iss u m c) (hfits : Fits c₀ handler r) (want : ℕ)
    (hm : m < r.totalLen) (hwant : 0 < want) (hle : m + want ≤ r.totalLen) :
    c.readResponse m want ≠ [] ∧ (c.readResponse m want).length ≤ want ∧
      r.stream.take m ++ c.readResponse m want =
        r.stream.take (m + (c.readResponse m want).length) := by
  have hread : c.readResponse m want = r.read m want := by
    rw [Conn.readResponse, h.resp, Option.elim_some]
    rfl
  obtain ⟨hlen, hat⟩ := r.read_spec m want
  rw [hread]
  exact ⟨(RespState.readsAt hfits.fills).ne_nil m want hm hwant, hlen,
    take_stream_append hfits.fills hat (by omega)⟩

/-- **What the pump sends**: pieces of the response, up to the edge of the window.  By
induction on the fuel; each round sends a piece and leaves less to be sent. -/
theorem Serves.pumpLoop (hfits : Fits c₀ handler r) (now window fuel : ℕ) :
    ∀ {m : ℕ} {c : Conn}, Serves c₀ r iss u m c → r.totalLen - m < fuel →
      ∃ m', m ≤ m' ∧ min (u + window) r.totalLen ≤ m' ∧
        Serves c₀ r iss u m' (c.pumpLoop now window r.totalLen fuel).1 ∧
        Pieces c₀ r iss m m' ((c.pumpLoop now window r.totalLen fuel).2.map Sent.packet) ∧
        (c.pumpLoop now window r.totalLen fuel).2.length ≤ m' - m := by
  induction fuel with
  | zero => exact fun _ hfuel => absurd hfuel (Nat.not_lt_zero _)
  | succ fuel ih =>
    intro m c h hfuel
    obtain ⟨hacked, hsent⟩ := h.bytes hfits.small
    have htotal := h.le_total
    rw [Conn.pumpLoop, hacked, hsent]
    dsimp only
    -- the window is used up
    by_cases hedge : min (u + window) r.totalLen ≤ m
    · rw [if_pos hedge]
      exact ⟨m, le_rfl, hedge, h, .nil m, Nat.zero_le _⟩
    rw [if_neg hedge]
    have hm : m < r.totalLen := by omega
    have hmss : 0 < mss := by decide
    generalize hwant : min (min (u + window) r.totalLen - m) mss = want
    obtain ⟨hne, hlen, hcont⟩ := h.read hfits want hm (by omega) (by omega)
    generalize c.readResponse m want = bytes at hne hlen hcont ⊢
    have hpos := List.length_pos_of_ne_nil hne
    -- a piece of the response, of which something is left
    have hpiece (flags : UInt8) :
        FromServer c₀ (number iss m) flags bytes (c.segment flags bytes) :=
      h.segment hfits (by omega) hm
    rw [if_neg (by omega)]
    -- the last piece carries the FIN
    by_cases hlast : r.totalLen ≤ m + bytes.length
    · rw [if_pos hlast]
      have hend : m + bytes.length = r.totalLen := by omega
      have hflags : pieceFlags r (m + bytes.length) = PSH ||| ACK ||| FIN := if_pos hend
      refine ⟨r.totalLen, by omega, by omega, h.last hm hend now, ?_,
        by dsimp only [List.length_singleton]; omega⟩
      rw [← hend, List.map_singleton]
      refine .cons ?_ hne (by omega) hcont (.nil _)
      rw [hflags]
      exact hpiece _
    · rw [if_neg hlast]
      have hmore : m + bytes.length < r.totalLen := not_le.mp hlast
      have hflags : pieceFlags r (m + bytes.length) = PSH ||| ACK := if_neg hmore.ne
      obtain ⟨m', hmm, hedge', hserves, hpieces, hcount⟩ := ih (h.more hmore now) (by omega)
      refine ⟨m', by omega, hedge', hserves, ?_, ?_⟩
      · dsimp only
        rw [List.map_cons]
        refine .cons ?_ hne (by omega) hcont hpieces
        rw [hflags]
        exact hpiece _
      · dsimp only
        rw [List.length_cons]
        omega

/-- The pump of a connection that streams. -/
theorem Serves.pump (h : Serves c₀ r iss u m c) (hfits : Fits c₀ handler r) (now window : ℕ) :
    ∃ m', m ≤ m' ∧ min (u + window) r.totalLen ≤ m' ∧
      Serves c₀ r iss u m' (c.pump now window).1 ∧
      Pieces c₀ r iss m m' ((c.pump now window).2.map Sent.packet) ∧
      (c.pump now window).2.length ≤ m' - m := by
  have hsmall := hfits.small
  rw [Conn.pump, h.resp]
  exact h.pumpLoop hfits now window Conn.pumpFuel (by rw [Conn.pumpFuel]; omega)

/-! ### Acknowledgements of the server's pieces -/

/-- An acknowledgement of what was sent. -/
theorem Serves.onAck (h : Serves c₀ r iss u m c) (hsmall : r.totalLen + 1 < 2 ^ 31) {a : ℕ}
    (ha : a ≤ m) (win : ℕ) : Serves c₀ r iss (max u a) m (c.onAck (number iss a) win) := by
  have hle := h.le
  have htotal := h.le_total
  have hnxt : (m + if m = r.totalLen then 1 else 0) < 2 ^ 31 := by split <;> omega
  obtain ⟨hstart, hnxt', -, hactive, hport, -⟩ := c.onAck_spec (number iss a) win
  have hlt : SeqNumber.lt c.sndUna (number iss a) = decide (u < a) := by
    rw [h.una, lt_number iss (by omega) (by omega)]
  have hnot : SeqNumber.lt c.sndNxt (number iss a) = false := by
    rw [h.nxt, lt_number iss hnxt (by omega)]
    exact decide_eq_false (by omega)
  have huna : (c.onAck (number iss a) win).sndUna = number iss (max u a) := by
    rw [c.sndUna_onAck, hlt, hnot, h.una]
    rcases Nat.lt_or_ge u a with hua | hua
    · rw [decide_eq_true hua, max_eq_right hua.le]
      rfl
    · rw [decide_eq_false (by omega), max_eq_left hua]
      rfl
  have hresp : (c.onAck (number iss a) win).resp = c.resp := by
    unfold Conn.onAck
    dsimp only
    split
    · rw [h.resp]
      dsimp only
      -- the FIN is behind everything that can be acknowledged here
      refine if_neg fun hfin => ?_
      rw [Bool.and_eq_true, beq_iff_eq, h.nxt] at hfin
      have heq := number_inj (by omega) hnxt hfin.2
      have hend : m = r.totalLen := of_decide_eq_true hfin.1
      rw [if_pos hend] at heq
      omega
    · rfl
  have hip : (c.onAck (number iss a) win).clientIp = c.clientIp ∧
      (c.onAck (number iss a) win).ourIp = c.ourIp := by
    unfold Conn.onAck
    dsimp only
    split <;> exact ⟨rfl, rfl⟩
  constructor
  · rw [hactive, h.active]
  · rw [hip.1, h.clientIp]
  · rw [hip.2, h.ourIp]
  · rw [hport, h.clientPort]
  · rw [hstart, h.start]
  · exact huna
  · rw [hnxt', h.nxt]
  · rw [hresp, h.resp]
  · omega
  · exact htotal

/-- The window of a connection that has heard from the client. -/
theorem sendWindow_onAck (c : Conn) (ack : UInt32) : (c.onAck ack 64240).sendWindow = cwnd := by
  have hwin : (c.onAck ack 64240).peerWin = 64240 := by
    unfold Conn.onAck
    dsimp only
    split <;> rfl
  rw [Conn.sendWindow, hwin]
  rfl

/-- What arrives from the client belongs to the connection. -/
theorem takes_of_fromClient {s : TcpServer} {seq ack : UInt32} {flags : UInt8}
    {bytes inner : List UInt8} (hfits : Fits c₀ handler r) (hactive : s.conn.active = true)
    (hip : s.conn.clientIp = c₀.src) (hport : s.conn.clientPort = c₀.sport)
    (hin : parsePacket inner =
      some ⟨c₀.src, c₀.dst, c₀.sport, c₀.dport, seq, ack, flags, 64240, bytes⟩)
    (hsyn : flags &&& SYN = 0) (hrst : flags &&& RST = 0) :
    s.Takes inner ⟨c₀.src, c₀.dst, c₀.sport, c₀.dport, seq, ack, flags, 64240, bytes⟩ :=
  ⟨hin, hfits.dport, hsyn, ⟨hactive, hip.symm, hport.symm⟩, hrst⟩

/-- **An acknowledgement moves the window on**, and the pump fills it. -/
theorem Serves.handleStream_ack {s : TcpServer} (h : Serves c₀ r iss u m s.conn)
    (hfits : Fits c₀ handler r) {a : ℕ} (ha : a ≤ m) {inner : List UInt8}
    (hin : FromClient c₀ (number iss a) ACK [] inner) (now : ℕ) (iss' : UInt32) :
    ∃ m', m ≤ m' ∧ min (max u a + cwnd) r.totalLen ≤ m' ∧
      Serves c₀ r iss (max u a) m' (s.handleStream inner now iss').1.conn ∧
      Pieces c₀ r iss m m' ((s.handleStream inner now iss').2.map Sent.packet) ∧
      (s.handleStream inner now iss').2.length ≤ m' - m := by
  obtain ⟨seq, hseq⟩ := hin
  have htakes := takes_of_fromClient hfits h.active h.clientIp h.clientPort hseq (by decide)
    (by decide)
  have hafter : s.afterAck ⟨c₀.src, c₀.dst, c₀.sport, c₀.dport, seq, number iss a, ACK, 64240,
      []⟩ = { s with conn := s.conn.onAck (number iss a) 64240 } :=
    if_pos (show ACK &&& ACK ≠ 0 by decide)
  rw [htakes.handleStream_ack rfl (show ACK &&& FIN = 0 by decide), hafter]
  dsimp only [TcpServer.pumped]
  rw [sendWindow_onAck]
  exact (h.onAck hfits.small ha 64240).pump hfits now cwnd

/-! ### The request -/

/-- The server has answered the SYN; so much of its answer is acknowledged. -/
structure Accepted (c₀ : TcpClient) (iss una : UInt32) (c : Conn) : Prop where
  active : c.active = true
  clientIp : c.clientIp = c₀.src
  ourIp : c.ourIp = c₀.dst
  clientPort : c.clientPort = c₀.sport
  start : c.iss = iss
  una : c.sndUna = una
  nxt : c.sndNxt = number iss 0
  resp : c.resp = none

/-- The stream starts behind the SYN. -/
theorem number_zero (iss : UInt32) : number iss 0 = iss + 1 := UInt32.add_zero (iss + 1)

/-- The acknowledgement of the SYN's answer, the first time and again. -/
theorem Accepted.onAck {una : UInt32} (h : Accepted c₀ iss una c)
    (huna : una = iss ∨ una = number iss 0) :
    Accepted c₀ iss (number iss 0) (c.onAck (number iss 0) 64240) := by
  have hself : SeqNumber.lt (number iss 0) (number iss 0) = false := by
    rw [lt_number iss (by decide) (by decide)]
    rfl
  rcases huna with rfl | rfl
  · have hlt : SeqNumber.lt c.sndUna (number una 0) = true := by
      rw [h.una, number_zero]
      exact lt_next una
    have hif : (SeqNumber.lt c.sndUna (number una 0) && !SeqNumber.lt c.sndNxt (number una 0)) =
        true := by rw [hlt, h.nxt, hself]; rfl
    unfold Conn.onAck
    dsimp only
    rw [if_pos hif, h.resp]
    exact ⟨h.active, h.clientIp, h.ourIp, h.clientPort, h.start, rfl, h.nxt, rfl⟩
  · have hif : ¬(SeqNumber.lt c.sndUna (number iss 0) &&
        !SeqNumber.lt c.sndNxt (number iss 0)) = true := by
      rw [h.una, hself, Bool.false_and]
      decide
    unfold Conn.onAck
    dsimp only
    rw [if_neg hif]
    exact ⟨h.active, h.clientIp, h.ourIp, h.clientPort, h.start, h.una, h.nxt, h.resp⟩

/-- The SYN of the client, for a server in any state. -/
theorem accepted_of_syn {s : TcpServer} (hfits : Fits c₀ handler r) {inner : List UInt8}
    (hin : FromClient c₀ c₀.rcvNxt SYN [] inner) (now : ℕ) (iss : UInt32) :
    Accepted c₀ iss iss (s.handleStream inner now iss).1.conn ∧
      (s.handleStream inner now iss).1.handler = s.handler ∧
      ∃ sent, (s.handleStream inner now iss).2.map Sent.packet = [sent] ∧
        FromServer c₀ iss (SYN ||| ACK) [] sent := by
  obtain ⟨seq, hseq⟩ := hin
  rw [handleStream_syn (opening_eq_some.mpr
    ⟨hseq, hfits.dport, show SYN &&& SYN ≠ 0 by decide⟩) now iss]
  exact ⟨⟨rfl, rfl, rfl, rfl, rfl, rfl, (number_zero iss).symm, rfl⟩, rfl, _, rfl,
    fromServer_segment rfl rfl rfl hfits _ (show 40 + 0 < 65536 by decide)⟩

/-- The client's first acknowledgement. -/
theorem Accepted.handleStream_ack {s : TcpServer} (h : Accepted c₀ iss iss s.conn)
    (hfits : Fits c₀ handler r) {inner : List UInt8}
    (hin : FromClient c₀ (number iss 0) ACK [] inner) (now : ℕ) (iss' : UInt32) :
    Accepted c₀ iss (number iss 0) (s.handleStream inner now iss').1.conn ∧
      (s.handleStream inner now iss').1.handler = s.handler ∧
      (s.handleStream inner now iss').2 = [] := by
  obtain ⟨seq, hseq⟩ := hin
  have htakes := takes_of_fromClient hfits h.active h.clientIp h.clientPort hseq (by decide)
    (by decide)
  have hafter : s.afterAck ⟨c₀.src, c₀.dst, c₀.sport, c₀.dport, seq, number iss 0, ACK, 64240,
      []⟩ = { s with conn := s.conn.onAck (number iss 0) 64240 } :=
    if_pos (show ACK &&& ACK ≠ 0 by decide)
  have hacked := h.onAck (.inl rfl)
  rw [htakes.handleStream_ack rfl (show ACK &&& FIN = 0 by decide), hafter]
  dsimp only [TcpServer.pumped]
  rw [Conn.pump, hacked.resp]
  exact ⟨hacked, rfl, rfl⟩

/-- A staged response has no FIN out. -/
theorem withFin_stageResponse (reply : HttpReply) (req : List UInt8) :
    (stageResponse reply req).withFin false = stageResponse reply req := by
  simp only [stageResponse, RespState.withFin]

/-- **The request stages the response.** -/
theorem Accepted.requested {s : TcpServer} (h : Accepted c₀ iss (number iss 0) s.conn)
    (hhandler : s.handler = handler) (hfits : Fits c₀ handler r) {p : Packet}
    (hack : p.flags &&& ACK ≠ 0) (hnum : p.ack = number iss 0) (hwin : p.win = 64240)
    (hpayload : p.payload = c₀.request) :
    (s.afterAck p).conn.resp = none ∧ Serves c₀ r iss 0 0 (s.requested p).conn ∧
      (s.requested p).conn.sendWindow = cwnd := by
  have hacked := h.onAck (.inr rfl)
  have hwindow := sendWindow_onAck s.conn (number iss 0)
  have hafter : s.afterAck p = { s with conn := s.conn.onAck (number iss 0) 64240 } := by
    rw [TcpServer.afterAck, if_pos hack, hnum, hwin]
  generalize s.conn.onAck (number iss 0) 64240 = c at hacked hwindow hafter
  -- the response is the one that the route gives for the request
  have hreply : r = stageResponse (((s.afterAck p).afterData p).routeRequest p.payload).2
      p.payload := by
    have hour : ((s.afterAck p).afterData p).conn.ourIp = c₀.dst := by
      rw [hafter]
      exact hacked.ourIp
    have hsame : ((s.afterAck p).afterData p).handler = (TcpServer.new handler).handler := by
      rw [hafter]
      exact hhandler
    rw [TcpServer.routeRequest_snd, hpayload, hour, TcpServer.replyTo_congr hsame]
    exact hfits.staged
  have hpos : 0 < r.totalLen := by
    rw [hreply]
    exact (stageResponse_pos _ _).1
  have hfin : r.withFin false = r := by
    rw [hreply]
    exact withFin_stageResponse _ _
  have hresp := s.requested_resp p
  rw [← hreply] at hresp
  obtain ⟨r', action, heq⟩ := ((s.afterAck p).afterData p).buildResponse_eq p.payload
  rw [← TcpServer.requested, hafter] at heq
  refine ⟨by rw [hafter]; exact hacked.resp, ?_, by rw [heq]; exact hwindow⟩
  -- every field of the server's side, from the staged response
  constructor
  · rw [heq]
    exact hacked.active
  · rw [heq]
    exact hacked.clientIp
  · rw [heq]
    exact hacked.ourIp
  · rw [heq]
    exact hacked.clientPort
  · rw [heq]
    exact hacked.start
  · rw [heq]
    exact hacked.una
  · rw [heq, if_neg hpos.ne]
    exact hacked.nxt
  · rw [hresp, decide_eq_false hpos.ne, hfin]
  · exact le_rfl
  · exact hpos.le

/-- The pump sends the first window of it. -/
theorem Accepted.handleStream_request {s : TcpServer}
    (h : Accepted c₀ iss (number iss 0) s.conn) (hhandler : s.handler = handler)
    (hfits : Fits c₀ handler r) {inner : List UInt8}
    (hin : FromClient c₀ (number iss 0) (PSH ||| ACK) c₀.request inner) (now : ℕ)
    (iss' : UInt32) :
    ∃ m', min (0 + cwnd) r.totalLen ≤ m' ∧
      Serves c₀ r iss 0 m' (s.handleStream inner now iss').1.conn ∧
      Pieces c₀ r iss 0 m' ((s.handleStream inner now iss').2.map Sent.packet) ∧
      (s.handleStream inner now iss').2.length ≤ m' := by
  obtain ⟨seq, hseq⟩ := hin
  have htakes := takes_of_fromClient hfits h.active h.clientIp h.clientPort hseq (by decide)
    (by decide)
  generalize hp : (⟨c₀.src, c₀.dst, c₀.sport, c₀.dport, seq, number iss 0, PSH ||| ACK, 64240,
    c₀.request⟩ : Packet) = p at htakes
  have hflags : p.flags = PSH ||| ACK := by rw [← hp]
  have hpayload : p.payload = c₀.request := by rw [← hp]
  obtain ⟨hnone, hserves, hwindow⟩ := h.requested hhandler hfits (by rw [hflags]; decide)
    (by rw [← hp]) (by rw [← hp]) hpayload
  rw [htakes.handleStream_request (by rw [hpayload]; exact hfits.request) hnone,
    ← TcpServer.requested, hwindow]
  dsimp only [TcpServer.pumped]
  obtain ⟨m', -, hedge, hserves', hpieces, hcount⟩ := hserves.pump hfits now cwnd
  exact ⟨m', hedge, hserves', hpieces, hcount⟩

/-! ## The client's side -/

/-- A client with the ends and the request of another. -/
structure Same (c₀ c : TcpClient) : Prop where
  src : c.src = c₀.src
  dst : c.dst = c₀.dst
  sport : c.sport = c₀.sport
  dport : c.dport = c₀.dport
  request : c.request = c₀.request

variable {d : TcpClient}

/-- A segment of the client is parsed by the server as what it was made of. -/
theorem Same.segment (h : Same c₀ d) (hfits : Fits c₀ handler r) (flags : UInt8)
    {bytes : List UInt8} (hlen : 40 + bytes.length < 65536) :
    FromClient c₀ d.rcvNxt flags bytes (d.segment flags bytes) := by
  refine ⟨d.sndNxt, ?_⟩
  rw [TcpClient.segment, h.src, h.dst, h.sport, h.dport,
    parsePacket_tcpSegment hlen hfits.sport (by rw [hfits.dport]; decide)]

/-- The client has sent its SYN. -/
structure Asking (c₀ d : TcpClient) : Prop where
  same : Same c₀ d
  established : d.established = false
  done : d.done = false
  response : d.response = []

/-- The client has so much of the response. -/
structure Receiving (c₀ : TcpClient) (r : RespState) (iss : UInt32) (k : ℕ) (d : TcpClient) :
    Prop where
  same : Same c₀ d
  established : d.established = true
  done : d.done = false
  rcvNxt : d.rcvNxt = number iss k
  response : d.response = r.stream.take k

/-- The client has the whole response. -/
structure Done (r : RespState) (d : TcpClient) : Prop where
  done : d.done = true
  response : d.response = r.stream

/-- The answer to the SYN opens the connection, and the client sends its request. -/
theorem Asking.onInner (h : Asking c₀ d) (hfits : Fits c₀ handler r) {inner : List UInt8}
    (hin : FromServer c₀ iss (SYN ||| ACK) [] inner) :
    Receiving c₀ r iss 0 (d.onInner inner).1 ∧ ∃ ack request,
      (d.onInner inner).2 = [ack, request] ∧ FromClient c₀ (number iss 0) ACK [] ack ∧
      FromClient c₀ (number iss 0) (PSH ||| ACK) c₀.request request := by
  obtain ⟨ack, hparsed⟩ := hin
  obtain ⟨hsrc, hdst, hsport, hdport, hrequest⟩ := h.same
  rw [TcpClient.onInner_of_parsePacket hparsed hsport.symm h.done]
  dsimp only
  rw [if_pos ⟨by decide, by decide, h.established⟩, ← number_zero]
  have hsame : Same c₀ { d with rcvNxt := number iss 0, established := true } :=
    ⟨hsrc, hdst, hsport, hdport, hrequest⟩
  refine ⟨⟨⟨hsrc, hdst, hsport, hdport, hrequest⟩, rfl, h.done, rfl, h.response⟩, _, _, rfl,
    hsame.segment hfits ACK (show 40 + 0 < 65536 by decide), ?_⟩
  rw [hrequest]
  exact hsame.segment hfits _ hfits.segment

/-! ### One piece of the response -/

/-- The client after a piece that it was waiting for. -/
def taken (d : TcpClient) (bytes : List UInt8) : TcpClient :=
  { d with
    response := d.response ++ bytes
    rcvNxt := d.rcvNxt + UInt32.ofNat bytes.length }

/-- The client after the FIN of the server. -/
def finished (d : TcpClient) : TcpClient := { d with rcvNxt := d.rcvNxt + 1, done := true }

/-- A piece that the client was waiting for, with or without a FIN. -/
theorem onSegment_next {seq : UInt32} (hseq : seq = d.rcvNxt) (flags : UInt8)
    {bytes : List UInt8} (hne : bytes ≠ []) :
    d.onSegment seq flags bytes =
      if flags &&& FIN ≠ 0 then
        (finished (taken d bytes), [(taken d bytes).segment ACK [],
          (finished (taken d bytes)).segment ACK [],
          (finished (taken d bytes)).segment (FIN ||| ACK) []])
      else (taken d bytes, [(taken d bytes).segment ACK []]) := by
  rw [TcpClient.onSegment, if_pos hne]
  dsimp only
  rw [if_pos hseq]
  rfl

/-- The client with a piece more. -/
theorem Receiving.taken {k : ℕ} (h : Receiving c₀ r iss k d) {bytes : List UInt8}
    (hbytes : r.stream.take k ++ bytes = r.stream.take (k + bytes.length)) :
    Receiving c₀ r iss (k + bytes.length) (taken d bytes) where
  same := ⟨h.same.src, h.same.dst, h.same.sport, h.same.dport, h.same.request⟩
  established := h.established
  done := h.done
  rcvNxt := by rw [Link.taken, h.rcvNxt, number_add]
  response := by rw [Link.taken, h.response, hbytes]

/-- The client acknowledges the offset up to which it received. -/
theorem Receiving.ack {k : ℕ} (h : Receiving c₀ r iss k d) (hfits : Fits c₀ handler r) :
    FromClient c₀ (number iss k) ACK [] (d.segment ACK []) := by
  rw [← h.rcvNxt]
  exact h.same.segment hfits ACK (show 40 + 0 < 65536 by decide)

/-- **A piece in the middle** is appended and acknowledged. -/
theorem Receiving.onInner_piece {k : ℕ} (h : Receiving c₀ r iss k d) (hfits : Fits c₀ handler r)
    {bytes inner : List UInt8} (hne : bytes ≠ [])
    (hbytes : r.stream.take k ++ bytes = r.stream.take (k + bytes.length))
    (hin : FromServer c₀ (number iss k) (PSH ||| ACK) bytes inner) :
    Receiving c₀ r iss (k + bytes.length) (d.onInner inner).1 ∧ ∃ ack,
      (d.onInner inner).2 = [ack] ∧ FromClient c₀ (number iss (k + bytes.length)) ACK [] ack := by
  obtain ⟨ack, hparsed⟩ := hin
  rw [TcpClient.onInner_of_parsePacket hparsed h.same.sport.symm h.done]
  dsimp only
  rw [if_neg fun hsyn => absurd hsyn.1 (by decide), onSegment_next h.rcvNxt.symm _ hne,
    if_neg (by decide)]
  exact ⟨h.taken hbytes, _, rfl, (h.taken hbytes).ack hfits⟩

/-- **The last piece** is appended, and the client acknowledges it, acknowledges the FIN that
it takes along, and sends its own. -/
theorem Receiving.onInner_last {k : ℕ} (h : Receiving c₀ r iss k d) (hfits : Fits c₀ handler r)
    {bytes inner : List UInt8} (hne : bytes ≠ []) (hend : k + bytes.length = r.totalLen)
    (hbytes : r.stream.take k ++ bytes = r.stream.take (k + bytes.length))
    (hin : FromServer c₀ (number iss k) (PSH ||| ACK ||| FIN) bytes inner) :
    Done r (d.onInner inner).1 ∧ ∃ ack ackFin fin,
      (d.onInner inner).2 = [ack, ackFin, fin] ∧
      FromClient c₀ (number iss r.totalLen) ACK [] ack ∧
      FromClient c₀ (number iss (r.totalLen + 1)) ACK [] ackFin ∧
      FromClient c₀ (number iss (r.totalLen + 1)) (FIN ||| ACK) [] fin := by
  obtain ⟨ack, hparsed⟩ := hin
  rw [TcpClient.onInner_of_parsePacket hparsed h.same.sport.symm h.done]
  dsimp only
  rw [if_neg fun hsyn => absurd hsyn.1 (by decide), onSegment_next h.rcvNxt.symm _ hne,
    if_pos (by decide)]
  have htaken := h.taken hbytes
  rw [hend] at htaken
  have hsame : Same c₀ (finished (Link.taken d bytes)) :=
    ⟨htaken.same.src, htaken.same.dst, htaken.same.sport, htaken.same.dport, htaken.same.request⟩
  have hnxt : (finished (Link.taken d bytes)).rcvNxt = number iss (r.totalLen + 1) := by
    rw [finished, htaken.rcvNxt]
    exact number_add iss r.totalLen 1
  have hresp : (Link.taken d bytes).response = r.stream := by
    rw [htaken.response]
    exact List.take_of_length_le (by rw [length_stream hfits.fills])
  refine ⟨⟨rfl, hresp⟩, _, _, _, rfl, htaken.ack hfits, ?_, ?_⟩
  · rw [← hnxt]
    exact hsame.segment hfits ACK (show 40 + 0 < 65536 by decide)
  · rw [← hnxt]
    exact hsame.segment hfits _ (show 40 + 0 < 65536 by decide)

/-! ## The phases of a fetch -/

/-- Acknowledgements of what the client has. -/
def Acks (c₀ : TcpClient) (iss : UInt32) (k : ℕ) (up : List (List UInt8)) : Prop :=
  ∀ inner ∈ up, ∃ a ≤ k, FromClient c₀ (number iss a) ACK [] inner

/-- The connection of the server is the client's, with nothing left to send. -/
structure Freed (c₀ : TcpClient) (c : Conn) : Prop where
  active : c.active = true
  clientIp : c.clientIp = c₀.src
  clientPort : c.clientPort = c₀.sport
  resp : c.resp = none

/-- **Where a fetch stands**, with a bound on the deliveries that are still to come. -/
inductive Phase (c₀ : TcpClient) (handler : Option RouteFn) (r : RespState) : ℕ → Link → Prop
  | syn {d : TcpClient} {s : TcpServer} {syn : List UInt8} (hclient : Asking c₀ d)
      (hhandler : s.handler = handler) (hsyn : FromClient c₀ c₀.rcvNxt SYN [] syn) :
      Phase c₀ handler r (5 * r.totalLen + 14) ⟨d, s, [syn], []⟩
  | synAck {d : TcpClient} {s : TcpServer} {answer : List UInt8} {iss : UInt32}
      (hclient : Asking c₀ d) (hhandler : s.handler = handler)
      (hserver : Accepted c₀ iss iss s.conn)
      (hanswer : FromServer c₀ iss (SYN ||| ACK) [] answer) :
      Phase c₀ handler r (5 * r.totalLen + 13) ⟨d, s, [], [answer]⟩
  | acked {d : TcpClient} {s : TcpServer} {ack request : List UInt8} {iss : UInt32}
      (hclient : Receiving c₀ r iss 0 d) (hhandler : s.handler = handler)
      (hserver : Accepted c₀ iss iss s.conn) (hack : FromClient c₀ (number iss 0) ACK [] ack)
      (hrequest : FromClient c₀ (number iss 0) (PSH ||| ACK) c₀.request request) :
      Phase c₀ handler r (5 * r.totalLen + 12) ⟨d, s, [ack, request], []⟩
  | request {d : TcpClient} {s : TcpServer} {request : List UInt8} {iss : UInt32}
      (hclient : Receiving c₀ r iss 0 d) (hhandler : s.handler = handler)
      (hserver : Accepted c₀ iss (number iss 0) s.conn)
      (hrequest : FromClient c₀ (number iss 0) (PSH ||| ACK) c₀.request request) :
      Phase c₀ handler r (5 * r.totalLen + 11) ⟨d, s, [request], []⟩
  | stream {d : TcpClient} {s : TcpServer} {up down : List (List UInt8)} {iss : UInt32}
      {k u m : ℕ} (hclient : Receiving c₀ r iss k d) (hk : k < r.totalLen)
      (hserver : Serves c₀ r iss u m s.conn) (hu : u ≤ k)
      (hedge : min (u + cwnd) r.totalLen ≤ m) (hdown : Pieces c₀ r iss k m down)
      (hup : Acks c₀ iss k up)
      (hack : u = k ∨ ∃ inner ∈ up, FromClient c₀ (number iss k) ACK [] inner) :
      Phase c₀ handler r (5 * (r.totalLen - m) + 2 * down.length + up.length + 10) ⟨d, s, up, down⟩
  | last {d : TcpClient} {s : TcpServer} {up acks : List (List UInt8)} {ackFin fin : List UInt8}
      {iss : UInt32} {u : ℕ} (hclient : Done r d) (hserver : Serves c₀ r iss u r.totalLen s.conn)
      (hup : up = acks ++ [ackFin, fin]) (hacks : Acks c₀ iss r.totalLen acks)
      (hackFin : FromClient c₀ (number iss (r.totalLen + 1)) ACK [] ackFin)
      (hfin : FromClient c₀ (number iss (r.totalLen + 1)) (FIN ||| ACK) [] fin) :
      Phase c₀ handler r (up.length + 2) ⟨d, s, up, []⟩
  | freed {d : TcpClient} {s : TcpServer} {fin : List UInt8} {iss : UInt32} (hclient : Done r d)
      (hserver : Freed c₀ s.conn)
      (hfin : FromClient c₀ (number iss (r.totalLen + 1)) (FIN ||| ACK) [] fin) :
      Phase c₀ handler r 3 ⟨d, s, [fin], []⟩
  | closed {d : TcpClient} {s : TcpServer} {down : List (List UInt8)} (hclient : Done r d)
      (hserver : s.conn.active = false) : Phase c₀ handler r down.length ⟨d, s, [], down⟩

/-! ### Freeing the server -/

/-- The acknowledgement of the FIN frees the response. -/
theorem Serves.freed {s : TcpServer} (h : Serves c₀ r iss u r.totalLen s.conn)
    (hfits : Fits c₀ handler r) {inner : List UInt8}
    (hin : FromClient c₀ (number iss (r.totalLen + 1)) ACK [] inner) (now : ℕ) (iss' : UInt32) :
    Freed c₀ (s.handleStream inner now iss').1.conn ∧ (s.handleStream inner now iss').2 = [] := by
  obtain ⟨seq, hseq⟩ := hin
  have hle := h.le
  have hsmall := hfits.small
  have hnxt : s.conn.sndNxt = number iss (r.totalLen + 1) := by rw [h.nxt, if_pos rfl]
  have htakes := takes_of_fromClient hfits h.active h.clientIp h.clientPort hseq (by decide)
    (by decide)
  have hafter : s.afterAck ⟨c₀.src, c₀.dst, c₀.sport, c₀.dport, seq, number iss (r.totalLen + 1),
      ACK, 64240, []⟩ = { s with conn := s.conn.onAck (number iss (r.totalLen + 1)) 64240 } :=
    if_pos (show ACK &&& ACK ≠ 0 by decide)
  have hnew : (SeqNumber.lt s.conn.sndUna (number iss (r.totalLen + 1)) &&
      !SeqNumber.lt s.conn.sndNxt (number iss (r.totalLen + 1))) = true := by
    rw [h.una, hnxt, lt_number iss (by omega) hsmall, lt_number iss hsmall hsmall,
      decide_eq_true (by omega), decide_eq_false (lt_irrefl _)]
    rfl
  have hfreed : Freed c₀ (s.conn.onAck (number iss (r.totalLen + 1)) 64240) := by
    unfold Conn.onAck
    dsimp only
    rw [if_pos hnew]
    refine ⟨h.active, h.clientIp, h.clientPort, ?_⟩
    dsimp only
    rw [h.resp]
    dsimp only
    refine if_pos ?_
    rw [hnxt, beq_self_eq_true, Bool.and_true]
    exact decide_eq_true rfl
  rw [htakes.handleStream_ack rfl (show ACK &&& FIN = 0 by decide), hafter]
  dsimp only [TcpServer.pumped]
  rw [Conn.pump, hfreed.resp]
  exact ⟨hfreed, rfl⟩

/-- The client's FIN closes the connection. -/
theorem Freed.handleStream_fin {s : TcpServer} (h : Freed c₀ s.conn) (hfits : Fits c₀ handler r)
    {ack : UInt32} {inner : List UInt8} (hin : FromClient c₀ ack (FIN ||| ACK) [] inner)
    (now : ℕ) (iss' : UInt32) :
    (s.handleStream inner now iss').1.conn.active = false ∧
      (s.handleStream inner now iss').2.length = 1 := by
  obtain ⟨seq, hseq⟩ := hin
  have htakes := takes_of_fromClient hfits h.active h.clientIp h.clientPort hseq (by decide)
    (by decide)
  rw [htakes.handleStream_fin rfl (show (FIN ||| ACK) &&& FIN ≠ 0 by decide)]
  exact ⟨rfl, rfl⟩

/-- Acknowledgements go forward. -/
theorem acks_append {k : ℕ} {up : List (List UInt8)} {inner : List UInt8}
    (hup : Acks c₀ iss k up) {k' : ℕ} (hle : k ≤ k')
    (hin : FromClient c₀ (number iss k') ACK [] inner) : Acks c₀ iss k' (up ++ [inner]) := by
  intro p hp
  rcases List.mem_append.mp hp with hp | hp
  · obtain ⟨a, ha, hfrom⟩ := hup p hp
    exact ⟨a, ha.trans hle, hfrom⟩
  · exact ⟨k', le_rfl, List.mem_singleton.mp hp ▸ hin⟩

/-- A packet acknowledges one number. -/
theorem ack_unique {ack ack' : UInt32} {inner : List UInt8} (h : FromClient c₀ ack ACK [] inner)
    (h' : FromClient c₀ ack' ACK [] inner) : ack = ack' := by
  obtain ⟨seq, hseq⟩ := h
  obtain ⟨seq', hseq'⟩ := h'
  rw [hseq] at hseq'
  exact congrArg Packet.ack (Option.some_inj.mp hseq')

/-! ### A step of a fetch -/

/-- **A delivery to the server.** -/
theorem Phase.toServer (hfits : Fits c₀ handler r) {n : ℕ} {d : TcpClient} {s : TcpServer}
    {inner : List UInt8} {up down : List (List UInt8)}
    (h : Phase c₀ handler r n ⟨d, s, inner :: up, down⟩) (now : ℕ) (iss' : UInt32) :
    ∃ n', Phase c₀ handler r n' ⟨d, (s.handleStream inner now iss').1, up,
      down ++ (s.handleStream inner now iss').2.map Sent.packet⟩ ∧ n' + 1 ≤ n := by
  have hsmall := hfits.small
  cases h with
  -- the SYN is answered
  | syn hclient hhandler hsyn =>
    obtain ⟨haccepted, hsame, answer, hsent, hanswer⟩ := accepted_of_syn hfits hsyn now iss'
    rw [hsent]
    exact ⟨_, .synAck hclient (hsame.trans hhandler) haccepted hanswer, by omega⟩
  -- the ACK of the handshake asks for nothing
  | acked hclient hhandler hserver hack hrequest =>
    obtain ⟨haccepted, hsame, hsent⟩ := hserver.handleStream_ack hfits hack now iss'
    rw [hsent]
    exact ⟨_, .request hclient (hsame.trans hhandler) haccepted hrequest, by omega⟩
  -- the request is routed, and a window of pieces sent
  | request hclient hhandler hserver hrequest =>
    have hpos : 0 < r.totalLen := by
      rw [hfits.staged]
      exact (stageResponse_pos _ _).1
    obtain ⟨m, hedge, hserves, hpieces, hcount⟩ :=
      hserver.handleStream_request hhandler hfits hrequest now iss'
    have htotal := hserves.le_total
    refine ⟨_, .stream hclient hpos hserves le_rfl hedge hpieces
      (fun p hp => absurd hp List.not_mem_nil) (.inl rfl), ?_⟩
    simp only [List.nil_append, List.length_map, List.length_nil]
    omega
  -- an acknowledgement of pieces lets the window go on
  | @stream _ _ _ _ iss k u m hclient hk hserver hu hedge hdown hup hack =>
    obtain ⟨a, ha, hfrom⟩ := hup inner List.mem_cons_self
    have hkm : k ≤ m := hdown.le
    obtain ⟨m', hmm, hedge', hserves, hpieces, hcount⟩ :=
      hserver.handleStream_ack hfits (ha.trans hkm) hfrom now iss'
    have htotal := hserves.le_total
    refine ⟨_, .stream hclient hk hserves (max_le hu ha) hedge' (hdown.append hpieces)
      (fun p hp => hup p (List.mem_cons_of_mem _ hp)) ?_, ?_⟩
    · rcases hack with hack | ⟨p, hp, hpk⟩
      · exact .inl (by omega)
      · rcases List.mem_cons.mp hp with rfl | hp
        · have hak := number_inj (by omega) (by omega) (ack_unique hfrom hpk)
          exact .inl (by omega)
        · exact .inr ⟨p, hp, hpk⟩
    · rw [List.length_append, List.length_map, List.length_cons]
      omega
  -- the client is done: what is left are its acknowledgements and its FIN
  | @last _ _ _ acks ackFin fin iss u hclient hserver hup hacks hackFin hfin =>
    cases acks with
    | nil =>
      obtain ⟨rfl, rfl⟩ := List.cons.inj hup
      obtain ⟨hfreed, hsent⟩ := hserver.freed hfits hackFin now iss'
      rw [hsent]
      exact ⟨_, .freed hclient hfreed hfin, by rw [List.length_cons, List.length_singleton]⟩
    | cons ack acks =>
      obtain ⟨rfl, rfl⟩ := List.cons.inj hup
      obtain ⟨a, ha, hfrom⟩ := hacks inner List.mem_cons_self
      obtain ⟨m', hmm, -, hserves, -, hcount⟩ := hserver.handleStream_ack hfits ha hfrom now iss'
      have hend : m' = r.totalLen := le_antisymm hserves.le_total hmm
      have hsent : (s.handleStream inner now iss').2 = [] := List.length_eq_zero_iff.mp (by omega)
      rw [hend] at hserves
      rw [hsent]
      refine ⟨_, .last hclient hserves rfl (fun p hp => hacks p (List.mem_cons_of_mem _ hp))
        hackFin hfin, ?_⟩
      rw [List.length_cons]
  -- the FIN of the client
  | freed hclient hserver hfin =>
    obtain ⟨hclosed, hlen⟩ := hserver.handleStream_fin hfits hfin now iss'
    refine ⟨_, .closed hclient hclosed, ?_⟩
    rw [List.nil_append, List.length_map, hlen]
    decide

/-- **A delivery to the client.** -/
theorem Phase.toClient (hfits : Fits c₀ handler r) {n : ℕ} {d : TcpClient} {s : TcpServer}
    {inner : List UInt8} {up down : List (List UInt8)}
    (h : Phase c₀ handler r n ⟨d, s, up, inner :: down⟩) :
    ∃ n', Phase c₀ handler r n' ⟨(d.onInner inner).1, s, up ++ (d.onInner inner).2, down⟩ ∧
      n' + 1 ≤ n := by
  cases h with
  | synAck hclient hhandler hserver hanswer =>
    obtain ⟨hreceiving, ack, request, hsent, hack, hrequest⟩ := hclient.onInner hfits hanswer
    rw [hsent]
    exact ⟨_, .acked hreceiving hhandler hserver hack hrequest, by omega⟩
  | @stream _ _ _ _ iss k u m hclient hk hserver hu hedge hdown hup hack =>
    cases hdown with
    | @cons _ _ _ bytes _ hinner hne hle hbytes hrest =>
      by_cases hend : k + bytes.length = r.totalLen
      · have hm : m = r.totalLen := le_antisymm hserver.le_total (hend ▸ hrest.le)
        have hnil : down = [] := (hend ▸ hm ▸ hrest).eq_nil
        rw [pieceFlags, if_pos hend] at hinner
        obtain ⟨hdone, ack, ackFin, fin, hsent, hack', hackFin, hfin⟩ :=
          hclient.onInner_last hfits hne hend hbytes hinner
        rw [hsent, hnil]
        rw [hm] at hserver
        refine ⟨_, .last hdone hserver
          (show up ++ [ack, ackFin, fin] = (up ++ [ack]) ++ [ackFin, fin] by simp)
          (acks_append hup hk.le hack') hackFin hfin, ?_⟩
        rw [List.length_append]
        simp only [List.length_cons, List.length_nil]
        omega
      · rw [pieceFlags, if_neg hend] at hinner
        obtain ⟨hreceiving, ack, hsent, hack'⟩ := hclient.onInner_piece hfits hne hbytes hinner
        rw [hsent]
        refine ⟨_, .stream hreceiving (by omega) hserver (by omega) hedge hrest
          (acks_append hup (Nat.le_add_right _ _) hack')
          (.inr ⟨ack, List.mem_append_right _ (List.mem_singleton_self _), hack'⟩), ?_⟩
        simp only [List.length_append, List.length_cons, List.length_nil]
        omega
  | closed hclient hserver =>
    rw [TcpClient.onInner_of_done hclient.done]
    exact ⟨_, .closed hclient hserver, le_rfl⟩

/-- **One event of a fetch**: a delivery brings it closer to its end. -/
theorem Phase.step (hfits : Fits c₀ handler r) {n : ℕ} {x x' : Link} {e : Event}
    (h : Phase c₀ handler r n x) (hquiet : x.Quiet e) (hstep : x.step e = some x') :
    ∃ n', Phase c₀ handler r n' x' ∧ n' + (if e.delivers then 1 else 0) ≤ n := by
  obtain ⟨d, s, up, down⟩ := x
  cases e with
  | toServer now iss' =>
    cases up with
    | nil => cases hstep
    | cons inner up =>
      obtain rfl := Option.some_inj.mp hstep
      exact h.toServer hfits now iss'
  | toClient =>
    cases down with
    | nil => cases hstep
    | cons inner down =>
      obtain rfl := Option.some_inj.mp hstep
      exact h.toClient hfits
  | tick now =>
    have htick := TcpServer.tick_of_quiet hquiet
    dsimp only [Link.step] at hstep htick
    rw [htick] at hstep
    obtain rfl := Option.some_inj.mp hstep
    rw [List.map_nil, List.append_nil]
    exact ⟨n, h, le_rfl⟩

/-! ### The outcome -/

/-- What a fetch comes to. -/
structure Outcome (r : RespState) (es : List Event) (x : Link) : Prop where
  reads : x.client.response <+: r.stream
  whole : x.client.done = true → x.client.response = r.stream
  deliveries : es.countP Event.delivers ≤ 5 * r.totalLen + 14
  completes : x.up = [] → x.down = [] →
    x.client.done = true ∧ x.client.response = r.stream ∧ x.server.conn.active = false

/-- What the client has in a phase, and that a fetch is not stuck before its end. -/
theorem Phase.outcome {n : ℕ} {x : Link} (h : Phase c₀ handler r n x) :
    x.client.response <+: r.stream ∧ (x.client.done = true → x.client.response = r.stream) ∧
      (x.up = [] → x.down = [] →
        x.client.done = true ∧ x.client.response = r.stream ∧ x.server.conn.active = false) := by
  have hasking : ∀ {d}, Asking c₀ d → d.response <+: r.stream ∧
      (d.done = true → d.response = r.stream) := by
    intro d hd
    rw [hd.response, hd.done]
    exact ⟨List.nil_prefix, fun hdone => absurd hdone (by decide)⟩
  have hreceiving : ∀ {d iss k}, Receiving c₀ r iss k d → d.response <+: r.stream ∧
      (d.done = true → d.response = r.stream) := by
    intro d iss k hd
    rw [hd.response, hd.done]
    exact ⟨List.take_prefix k _, fun hdone => absurd hdone (by decide)⟩
  have hdone : ∀ {d}, Done r d → d.response <+: r.stream ∧
      (d.done = true → d.response = r.stream) := by
    intro d hd
    exact ⟨hd.response ▸ List.prefix_refl _, fun _ => hd.response⟩
  cases h with
  | syn hclient _ _ => exact ⟨(hasking hclient).1, (hasking hclient).2, fun hup => by cases hup⟩
  | synAck hclient _ _ _ =>
    exact ⟨(hasking hclient).1, (hasking hclient).2, fun _ hdown => by cases hdown⟩
  | acked hclient _ _ _ _ =>
    exact ⟨(hreceiving hclient).1, (hreceiving hclient).2, fun hup => by cases hup⟩
  | request hclient _ _ _ =>
    exact ⟨(hreceiving hclient).1, (hreceiving hclient).2, fun hup => by cases hup⟩
  | stream hclient hk hserver hu hedge hdown hup hack =>
    refine ⟨(hreceiving hclient).1, (hreceiving hclient).2, fun hnone hempty => ?_⟩
    dsimp only at hnone hempty
    subst hnone hempty
    -- with nothing in flight the window is full, so there was nothing left to send
    have hcwnd : cwnd = 2048 := rfl
    cases hdown
    rcases hack with hack | ⟨p, hp, -⟩
    · omega
    · cases hp
  | last hclient hserver hup hacks hackFin hfin =>
    refine ⟨(hdone hclient).1, (hdone hclient).2, fun hnone => ?_⟩
    dsimp only at hnone
    rw [hnone] at hup
    exact absurd hup.symm (List.append_ne_nil_of_right_ne_nil _ (List.cons_ne_nil _ _))
  | freed hclient _ _ => exact ⟨(hdone hclient).1, (hdone hclient).2, fun hup => by cases hup⟩
  | closed hclient hserver =>
    exact ⟨(hdone hclient).1, (hdone hclient).2, fun _ _ => ⟨hclient.done, hclient.response, hserver⟩⟩

/-- The client that has sent its SYN. -/
theorem phase_start (hfits : Fits c₀ handler r) {s : TcpServer} (hhandler : s.handler = handler) :
    Phase c₀ handler r (5 * r.totalLen + 14) (start c₀ s) := by
  obtain ⟨hest, hdone, hresp⟩ := hfits.fresh
  have hsame : Same c₀ c₀ := ⟨rfl, rfl, rfl, rfl, rfl⟩
  exact .syn ⟨⟨rfl, rfl, rfl, rfl, rfl⟩, hest, hdone, hresp⟩ hhandler
    (hsame.segment hfits SYN (show 40 + 0 < 65536 by decide))

/-- **A fetch completes**: along every interleaving of the deliveries and of the ticks of a
timer that does not fire, the client reads the staged response in order, is done exactly with
all of it, and there is always a packet in flight until it is done and the server has closed
the connection, of which there are at most so many. -/
theorem fetch_completes {src dst : Ip} {sport : ℕ} {request : List UInt8} {rand : UInt32}
    {s : TcpServer} {es : List Event} {x : Link} (hsport : sport < 65536) (hne : request ≠ [])
    (hlen : 40 + request.length < 65536)
    (hr : r = stageResponse ((TcpServer.new s.handler).replyTo dst request) request)
    (hsmall : r.totalLen + 1 < 2 ^ 31) (hfills : r.source.Fills)
    (hquiet : Along step Quiet (start (.new src dst sport httpPort request rand) s) es)
    (hrun : run step (start (.new src dst sport httpPort request rand) s) es = some x) :
    Outcome r es x := by
  have hfits : Fits (.new src dst sport httpPort request rand) s.handler r :=
    ⟨⟨rfl, rfl, rfl⟩, rfl, hsport, hne, hlen, hr, hsmall, hfills⟩
  obtain ⟨n, hphase, hcount⟩ := run_rank_along (fun _ _ _ _ h hok hs => h.step hfits hok hs)
    (phase_start hfits rfl) hquiet hrun
  obtain ⟨hreads, hwhole, hend⟩ := hphase.outcome
  have hdeliveries : n + es.countP Event.delivers ≤ 5 * r.totalLen + 14 := hcount
  exact ⟨hreads, hwhole, by omega, hend⟩

/-! ### A fetch of a small page -/

def hiClient : TcpClient :=
  .new ⟨100, 64, 0, 1⟩ ⟨100, 64, 0, 2⟩ 5000 httpPort (utf8 "GET / HTTP/1.1\r\n\r\n") 7

/-- A tick, the handshake, the request, its response in one piece, and the end. -/
def hiFetch : List Event :=
  [.tick 0, .toServer 0 1000, .toClient, .toServer 1 0, .toServer 2 0, .toClient,
    .toServer 3 0, .toServer 4 0, .toServer 5 0, .toClient]

/-- The handler of the example answers every request alike. -/
theorem replyTo_hi (ip : Ip) (req : List UInt8) :
    (TcpServer.new hiHandler).replyTo ip req = .okStatic "text/plain" (utf8 "hi") := by
  unfold TcpServer.replyTo TcpServer.routeRequest
  generalize requestTarget req = target
  rfl

/-- A staged response reads from the body of the reply. -/
theorem fills_stageResponse {reply : HttpReply} (h : reply.source.Fills) (req : List UInt8) :
    (stageResponse reply req).source.Fills := h

/-- The fetch of a text, to its end. -/
theorem fetch_completes_hi : ∃ x,
    run step (start hiClient (.new hiHandler)) hiFetch = some x ∧
    x.up = [] ∧ x.down = [] ∧ Outcome
      (stageResponse ((TcpServer.new hiHandler).replyTo hiClient.dst hiClient.request)
        hiClient.request) hiFetch x := by
  have hempty : (run step (start hiClient (.new hiHandler)) hiFetch).map
      (fun x => (x.up, x.down)) = some ([], []) := by decide +kernel
  obtain ⟨x, hx, hflight⟩ := Option.map_eq_some_iff.mp hempty
  rw [Prod.mk.injEq] at hflight
  have hquiet : Along step Quiet (start hiClient (.new hiHandler)) hiFetch := by
    refine ⟨fun hactive => absurd hactive (by decide), fun t _ => ?_⟩
    simp only [Along, Quiet, true_and, implies_true]
  have hsmall : (stageResponse ((TcpServer.new hiHandler).replyTo hiClient.dst hiClient.request)
      hiClient.request).totalLen + 1 < 2 ^ 31 := by decide +kernel
  have hfills : (stageResponse ((TcpServer.new hiHandler).replyTo hiClient.dst hiClient.request)
      hiClient.request).source.Fills := by
    refine fills_stageResponse ?_ _
    rw [replyTo_hi]
    trivial
  refine ⟨x, hx, hflight.1, hflight.2, ?_⟩
  have hfetch := @fetch_completes _ ⟨100, 64, 0, 1⟩ ⟨100, 64, 0, 2⟩ 5000
    (utf8 "GET / HTTP/1.1\r\n\r\n") 7 (.new hiHandler) hiFetch x (by decide) (by decide) (by decide)
    rfl hsmall hfills
  exact hfetch hquiet hx

end Link
