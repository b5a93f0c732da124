/-
# When the server and the client return

`TcpServer::process` and `TcpClient::on_inner` with checked accesses, over `InboundServer`.

Two sums take a number that no check bounds.  The length of a response is that of its
headers and of its body, and the length of a body in flash is what the image declares: the
sum overflows for a body of nearly `2 ^ 32` bytes (`process_overflows`).  The checksum of the
client's request is summed in 32 bits.  The offsets of a response are 32-bit sequence
numbers, and the pump may go round a response of more than `2 ^ 31` bytes for ever.
Everything else fits on every packet: `parsers_return_iff` says when each of the functions
returns.
-/
import PySpell.InboundServer
import PySpell.ModelImage
import PySpell.OutboundClient
import PySpell.TcpBatch

open Tcp Checked Http

namespace Inbound

/-! ## Reading the response -/

/-- `copy_clamped`: the buffer, and how much of it was written. -/
def copyClamped (src : List UInt8) (off : ℕ) (buf : List UInt8) : Option (List UInt8 × ℕ) :=
  if src.length ≤ off then some (buf, 0)
  else do
    let n := min (← sub src.length off) buf.length
    let new ← slice src off (← usize.add off n)
    let buf ← copyTo buf 0 n new
    some (buf, n)

/-- `read_at` of a body; a reader writes at the front of what it gets. -/
def readAt (source : BodySource) (off : ℕ) (buf : List UInt8) : Option (List UInt8 × ℕ) :=
  match source with
  | .static bytes => copyClamped bytes off buf
  | .owned bytes => copyClamped bytes off buf
  | .flash reader len =>
    if len ≤ off then some (buf, 0)
    else do
      let n := min (← sub len off) buf.length
      let front ← slice buf 0 n
      let bytes := reader.readAt off front.length
      some (splice buf 0 bytes, bytes.length)

/-- The headers in `read_response`: the buffer, how much of it was written, and the offset
that was reached. -/
def readHeaders (r : RespState) (abs : ℕ) (buf : List UInt8) : Option (List UInt8 × ℕ × ℕ) :=
  if abs < r.hdrLen then do
    let n := min (← sub r.hdrLen abs) buf.length
    let new ← slice r.headers abs (← usize.add abs n)
    let buf ← copyTo buf 0 n new
    let written ← usize.add 0 n
    let pos ← usize.add abs n
    some (buf, written, pos)
  else some (buf, 0, abs)

/-- `read_response`. -/
def readResponse (r : RespState) (abs : ℕ) (buf : List UInt8) : Option (List UInt8 × ℕ) := do
  let (buf, written, pos) ← readHeaders r abs buf
  if abs < r.hdrLen ∧ written = buf.length then some (buf, written)
  else if r.hdrLen ≤ pos ∧ pos < r.totalLen then
    let off ← usize.add r.bodyBase (← sub pos r.hdrLen)
    let rest ← slice buf written buf.length
    let (rest, n) ← readAt r.source off rest
    let total ← usize.add written n
    some (splice buf written rest, total)
  else some (buf, written)

/-- What was read is at the front of the buffer. -/
def Wrote (buf bytes : List UInt8) : List UInt8 × ℕ := (splice buf 0 bytes, bytes.length)

/-- Nothing was written. -/
theorem wrote_nil (buf : List UInt8) : Wrote buf [] = (buf, 0) := by
  rw [Wrote, splice_zero]
  rfl

/-! ### The same on the device -/

/-- Copying is clamped to both buffers, so it stays in bounds. -/
theorem copyClamped_eq {src : List UInt8} (off : ℕ) (buf : List UInt8)
    (hsrc : src.length < 2 ^ 32) :
    copyClamped src off buf = some (Wrote buf (Http.copyClamped src off buf.length)) := by
  unfold copyClamped Http.copyClamped
  by_cases hend : src.length ≤ off
  · rw [if_pos hend, List.drop_eq_nil_of_le hend, List.take_nil, wrote_nil]
  rw [if_neg hend]
  refine bind_eq_of_some (sub_of_le (by omega)) ?_
  obtain ⟨n, hn⟩ : ∃ n, n = min (src.length - off) buf.length := ⟨_, rfl⟩
  have hbytes : (src.drop off).take buf.length = (src.drop off).take n := by
    rw [hn, ← List.length_drop, List.take_eq_take_iff, min_right_comm, min_self,
      min_comm]
  have hlen : ((src.drop off).take n).length = n := by
    rw [List.length_take, List.length_drop]
    omega
  dsimp only
  rw [← hn, hbytes, Wrote, hlen]
  refine bind_eq_of_some (add_of_small (by omega)) ?_
  refine bind_eq_of_some (slice_of_le (by omega) (by omega)) ?_
  rw [Nat.add_sub_cancel_left]
  exact bind_eq_of_some (copyTo_of_le (by omega) (by omega)) rfl

/-- A read of the body stays inside it. -/
theorem readAt_eq (source : BodySource) (off : ℕ) (buf : List UInt8)
    (hsource : source.totalLen < 2 ^ 32) :
    readAt source off buf = some (Wrote buf (source.readAt off buf.length)) := by
  cases source with
  | static bytes => exact copyClamped_eq off buf hsource
  | owned bytes => exact copyClamped_eq off buf hsource
  | flash reader len =>
    unfold readAt BodySource.readAt
    dsimp only
    by_cases hend : len ≤ off
    · rw [if_pos hend, if_pos hend, wrote_nil]
    rw [if_neg hend, if_neg hend]
    refine bind_eq_of_some (sub_of_le (by omega)) ?_
    refine bind_eq_of_some (slice_from_start (by omega)) ?_
    have hlen : (buf.take (min (len - off) buf.length)).length = min (len - off) buf.length := by
      rw [List.length_take]
      omega
    rw [hlen, Wrote]

/-- What the Rust types of a response say about it. -/
structure RespSized (r : RespState) : Prop where
  hdrLen_lt : r.hdrLen < 2 ^ 32
  totalLen_lt : r.totalLen < 2 ^ 32
  source_lt : r.source.totalLen < 2 ^ 32

/-- The piece of the headers that is read. -/
def headBytes (r : RespState) (abs want : ℕ) : List UInt8 :=
  if abs < r.hdrLen then (r.headers.drop abs).take (min (r.hdrLen - abs) want) else []

/-- The head is copied from the position that is asked for, as far as the buffer reaches. -/
theorem readHeaders_eq {r : RespState} (hr : RespSized r) (abs : ℕ) (buf : List UInt8) :
    readHeaders r abs buf = some (splice buf 0 (headBytes r abs buf.length),
      (headBytes r abs buf.length).length, abs + (headBytes r abs buf.length).length) := by
  have hhdr := hr.hdrLen_lt
  have hheaders := r.hdrLen_eq
  unfold readHeaders headBytes
  by_cases habs : abs < r.hdrLen
  · rw [if_pos habs, if_pos habs]
    refine bind_eq_of_some (sub_of_le (by omega)) ?_
    obtain ⟨n, hn⟩ : ∃ n, n = min (r.hdrLen - abs) buf.length := ⟨_, rfl⟩
    have hlen : ((r.headers.drop abs).take n).length = n := by
      rw [List.length_take, List.length_drop]
      omega
    rw [← hn, hlen]
    refine bind_eq_of_some (add_of_small (by omega)) ?_
    refine bind_eq_of_some (slice_of_le (by omega) (by omega)) ?_
    rw [Nat.add_sub_cancel_left]
    refine bind_eq_of_some (copyTo_of_le (by omega) (by omega)) ?_
    refine bind_eq_of_some (add_of_small (by omega)) ?_
    refine bind_eq_of_some (add_of_small (by omega)) ?_
    rw [Nat.zero_add]
  · rw [if_neg habs, if_neg habs, splice_zero]
    rfl

/-- Not more is read than was asked for. -/
theorem length_headBytes_le (r : RespState) (abs want : ℕ) :
    (headBytes r abs want).length ≤ want := by
  unfold headBytes
  split
  · rw [List.length_take]
    omega
  · exact Nat.zero_le _

/-- **A read of the response stays inside it.** -/
theorem readResponse_eq {r : RespState} (hr : RespSized r) (abs : ℕ) {buf : List UInt8}
    (hbuf : buf.length ≤ 512) :
    readResponse r abs buf = some (Wrote buf (r.read abs buf.length)) := by
  have hsource := hr.source_lt
  have htotal := hr.totalLen_lt
  have hslice := r.slice_le
  refine bind_eq_of_some (readHeaders_eq hr abs buf) ?_
  have hle := length_headBytes_le r abs buf.length
  have hread : r.read abs buf.length =
      if abs < r.hdrLen ∧ (headBytes r abs buf.length).length = buf.length then
        headBytes r abs buf.length
      else if r.hdrLen ≤ abs + (headBytes r abs buf.length).length ∧
          abs + (headBytes r abs buf.length).length < r.totalLen then
        headBytes r abs buf.length ++ r.source.readAt
          (r.bodyBase + (abs + (headBytes r abs buf.length).length - r.hdrLen))
          (buf.length - (headBytes r abs buf.length).length)
      else headBytes r abs buf.length := rfl
  rw [hread]
  generalize headBytes r abs buf.length = head at hle ⊢
  dsimp only
  rw [length_splice (show 0 + head.length ≤ buf.length by omega)]
  by_cases hfull : abs < r.hdrLen ∧ head.length = buf.length
  · rw [if_pos hfull, if_pos hfull, Wrote]
  rw [if_neg hfull, if_neg hfull]
  by_cases hbody : r.hdrLen ≤ abs + head.length ∧ abs + head.length < r.totalLen
  · rw [if_pos hbody, if_pos hbody]
    refine bind_eq_of_some (sub_of_le hbody.1) ?_
    refine bind_eq_of_some (add_of_small (by omega)) ?_
    have hrest : slice (splice buf 0 head) head.length buf.length = some (buf.drop head.length) := by
      have hlen := length_splice (show 0 + head.length ≤ buf.length by omega)
      rw [← hlen, slice_to_end (by omega), splice_zero, List.drop_left]
    refine bind_eq_of_some hrest ?_
    refine bind_eq_of_some (readAt_eq r.source _ _ hsource) ?_
    have hn := (r.source.readAt_spec (r.bodyBase + (abs + head.length - r.hdrLen))
      (buf.length - head.length)).1
    dsimp only [Wrote]
    rw [List.length_drop]
    refine bind_eq_of_some (add_of_small (by omega)) ?_
    rw [splice_splice, List.length_append]
  · rw [if_neg hbody, if_neg hbody, Wrote]

/-! ## Sending the response -/

/-- The loop of `pump`, in at most so many rounds. -/
def pumpLoop (r : RespState) (now window : ℕ) : ℕ → Conn → Option (Conn × List Sent)
  | 0, _ => none
  | fuel + 1, c =>
    -- a sum that saturates
    let edge := min (min (c.ackedBytes + window) (2 ^ 32 - 1)) r.totalLen
    let next := c.sentBytes
    if edge ≤ next then some (c, [])
    else do
      let want := min (← sub edge next) mss
      let buf := List.replicate mss 0
      let (front, n) ← readResponse r next (← slice buf 0 want)
      let buf := splice buf 0 front
      if n = 0 then some (c, [])
      else
        let stop ← usize.add next n
        let bytes ← slice buf 0 n
        if r.totalLen ≤ stop then
          let packet ← segment c (PSH ||| ACK ||| FIN) bytes
          some ({ c with
              sndNxt := c.sndNxt + UInt32.ofNat n + 1
              lastSendMs := now
              resp := c.resp.map (·.withFin true) }, [⟨packet, c⟩])
        else
          let packet ← segment c (PSH ||| ACK) bytes
          let (c', sent) ← pumpLoop r now window fuel
            { c with sndNxt := c.sndNxt + UInt32.ofNat n, lastSendMs := now }
          some (c', ⟨packet, c⟩ :: sent)

/-- `pump`. -/
def pump (fuel : ℕ) (c : Conn) (now window : ℕ) : Option (Conn × List Sent) :=
  match c.resp with
  | none => some (c, [])
  | some r => pumpLoop r now window fuel c

/-- The next piece of the response. -/
def piece (r : RespState) (window : ℕ) (c : Conn) : List UInt8 :=
  c.readResponse c.sentBytes
    (min (min (c.ackedBytes + window) r.totalLen - c.sentBytes) mss)

/-- The pieces come to an end within so many rounds: everything up to the edge of the window
is sent, the body gives no more bytes, or the last byte goes out. -/
def EndsIn (r : RespState) (now window : ℕ) : ℕ → Conn → Prop
  | 0, _ => False
  | fuel + 1, c =>
    min (c.ackedBytes + window) r.totalLen ≤ c.sentBytes ∨ piece r window c = [] ∨
      r.totalLen ≤ c.sentBytes + (piece r window c).length ∨
      EndsIn r now window fuel
        { c with sndNxt := c.sndNxt + UInt32.ofNat (piece r window c).length, lastSendMs := now }

/-! ### When the loop ends -/

/-- What was read is what is sent. -/
theorem slice_wrote {want : ℕ} {bytes : List UInt8} (hwant : want ≤ mss)
    (hbytes : bytes.length ≤ want) :
    slice (splice (List.replicate mss 0) 0 (splice (List.replicate want 0) 0 bytes)) 0
      bytes.length = some bytes := by
  have hlen : (splice (List.replicate want 0) 0 bytes).length = want := by
    rw [length_splice (by rw [List.length_replicate]; omega), List.length_replicate]
  rw [slice_from_start]
  · rw [splice_zero (List.replicate mss 0), List.take_append_of_le_length (by omega),
      splice_zero (List.replicate want 0), List.take_left]
  · rw [length_splice (by rw [hlen, List.length_replicate]; omega), List.length_replicate]
    exact hbytes.trans hwant

open scoped Classical in
/-- **The pump returns** exactly if its pieces come to an end. -/
theorem pumpLoop_eq {r : RespState} (hr : RespSized r) (now window : ℕ) :
    ∀ {fuel : ℕ} {c : Conn}, c.resp = some r →
      pumpLoop r now window fuel c =
        if EndsIn r now window fuel c then some (c.pumpLoop now window r.totalLen fuel)
        else none := by
  intro fuel
  induction fuel with
  | zero => exact fun _ => (if_neg id).symm
  | succ fuel ih =>
    intro c hc
    have htotal := hr.totalLen_lt
    -- the bound of the counters does not cut a response that fits them
    have hedge : min (min (c.ackedBytes + window) (2 ^ 32 - 1)) r.totalLen =
        min (c.ackedBytes + window) r.totalLen := by omega
    have hpiece : piece r window c = r.read c.sentBytes
        (min (min (c.ackedBytes + window) r.totalLen - c.sentBytes) mss) := by
      rw [piece, Conn.readResponse, hc, Option.elim_some]
    have hmss : mss = 512 := rfl
    obtain ⟨edge, hedge'⟩ : ∃ edge, edge = min (c.ackedBytes + window) r.totalLen := ⟨_, rfl⟩
    obtain ⟨want, hwant⟩ : ∃ want, want = min (edge - c.sentBytes) mss := ⟨_, rfl⟩
    have hle := (r.read_spec c.sentBytes want).1
    rw [← hedge', ← hwant] at hpiece
    rw [← hpiece] at hle
    rw [EndsIn, pumpLoop, Conn.pumpLoop]
    dsimp only
    rw [hedge, ← hedge', ← hwant, show c.readResponse c.sentBytes want = piece r window c by
      rw [hpiece, Conn.readResponse, hc, Option.elim_some]]
    -- the window is used up
    by_cases hsent : edge ≤ c.sentBytes
    · rw [if_pos hsent, if_pos (.inl hsent), if_pos hsent]
    rw [if_neg hsent, if_neg hsent]
    have hzeros : slice (List.replicate mss (0 : UInt8)) 0 want = some (List.replicate want 0) := by
      rw [slice_from_start (by rw [List.length_replicate]; omega), List.take_replicate,
        min_eq_left (by omega)]
    have hread : readResponse r c.sentBytes (List.replicate want 0) =
        some (Wrote (List.replicate want 0) (piece r window c)) := by
      rw [readResponse_eq hr _ (by rw [List.length_replicate]; omega), List.length_replicate, hpiece]
    refine bind_eq_of_some (sub_of_le (by omega)) ?_
    rw [← hwant]
    refine bind_eq_of_some hzeros (bind_eq_of_some hread ?_)
    dsimp only [Wrote]
    generalize piece r window c = bytes at hle ⊢
    -- the source has nothing more
    by_cases hdry : bytes.length = 0
    · have hnil := List.eq_nil_of_length_eq_zero hdry
      rw [if_pos hdry, if_pos hdry, if_pos (.inr (.inl hnil))]
    rw [if_neg hdry, if_neg hdry]
    refine bind_eq_of_some (add_of_small (by omega)) ?_
    refine bind_eq_of_some (slice_wrote (by omega) hle) ?_
    -- the last piece
    by_cases hlast : r.totalLen ≤ c.sentBytes + bytes.length
    · rw [if_pos hlast, if_pos hlast, if_pos (.inr (.inr (.inl hlast)))]
      exact bind_eq_of_some (segment_eq c _ (by omega)) rfl
    rw [if_neg hlast, if_neg hlast]
    refine bind_eq_of_some (segment_eq c _ (by omega)) ?_
    -- another turn, with the rest of the fuel
    have hrest := ih
      (c := { c with sndNxt := c.sndNxt + UInt32.ofNat bytes.length, lastSendMs := now }) hc
    have hnil : bytes ≠ [] := fun h => hdry (h ▸ rfl)
    by_cases hends : EndsIn r now window fuel
        { c with sndNxt := c.sndNxt + UInt32.ofNat bytes.length, lastSendMs := now }
    · rw [if_pos hends] at hrest
      rw [hrest, if_pos (.inr (.inr (.inr hends)))]
      rfl
    · rw [if_neg hends] at hrest
      rw [hrest, if_neg (by simp only [hsent, hnil, hlast, hends, or_self, not_false_eq_true])]
      rfl

/-- **Over a response of at most `2 ^ 31` bytes the pieces come to an end**: the position of
the next byte grows with every piece, and does not wrap. -/
theorem exists_endsIn {r : RespState} (htotal : r.totalLen ≤ 2 ^ 31) (now window : ℕ) {c : Conn}
    (hc : c.resp = some r) : ∃ fuel, EndsIn r now window fuel c := by
  have hrounds : ∀ n : ℕ, ∀ c : Conn, c.resp = some r → 2 ^ 31 - c.rel c.sndNxt ≤ n →
      EndsIn r now window n c := by
    intro n
    induction n with
    | zero =>
      intro c hc hn
      have hlt := SeqNumber.pos_lt (c.iss + 1) c.sndNxt
      change c.rel c.sndNxt < 2 ^ 31 at hlt
      omega
    | succ n ih =>
      intro c hc hn
      have hsent := Conn.bytesBefore_pos hc c.sndNxt
      have hmss : mss = 512 := rfl
      have hle : (piece r window c).length ≤
          min (min (c.ackedBytes + window) r.totalLen - c.sentBytes) mss := by
        rw [piece, Conn.readResponse, hc, Option.elim_some]
        exact (r.read_spec _ _).1
      by_cases hedge : min (c.ackedBytes + window) r.totalLen ≤ c.sentBytes
      · exact .inl hedge
      by_cases hdry : piece r window c = []
      · exact .inr (.inl hdry)
      by_cases hlast : r.totalLen ≤ c.sentBytes + (piece r window c).length
      · exact .inr (.inr (.inl hlast))
      have hpos := List.length_pos_iff.mpr hdry
      change (c.sentBytes : ℤ) = _ at hsent
      refine .inr (.inr (.inr (ih _ hc ?_)))
      change 2 ^ 31 - SeqNumber.pos (c.iss + 1) (c.sndNxt + UInt32.ofNat _) ≤ n
      rw [SeqNumber.pos_add (by change c.rel c.sndNxt + _ < _; omega)]
      change 2 ^ 31 - (c.rel c.sndNxt + _) ≤ _
      push_cast at hn
      omega
  exact ⟨_, hrounds (2 ^ 31 - c.rel c.sndNxt).toNat c hc (Int.self_le_toNat _)⟩

/-! ## The server -/

/-- A packet made from the connection. -/
def sendOne (c : Conn) (flags : UInt8) : Option Sent := do
  let packet ← segment c flags []
  some ⟨packet, c⟩

/-- A request is routed once. -/
def buildOnce (s : TcpServer) (req : List UInt8) : Option TcpServer :=
  if s.conn.resp.isNone then buildResponse s req else some s

/-- `process` behind the headers of a packet, up to its pump. -/
def onPacket (s : TcpServer) (p : Packet) (now : ℕ) (iss : UInt32) :
    Option (TcpServer × List Sent × Bool) :=
  if p.dport ≠ httpPort then some (s, [], false)
  else if p.flags &&& SYN ≠ 0 then do
    let c := Conn.opened p now iss
    let packet ← sendOne c (SYN ||| ACK)
    some ({ s with conn := { c with sndNxt := c.sndNxt + 1 }, requests := [] }, [packet], false)
  else if !s.conn.active || p.srcIp ≠ s.conn.clientIp || p.sport ≠ s.conn.clientPort then
    some (s, [], false)
  else if p.flags &&& RST ≠ 0 then some ({ s with conn := Conn.default }, [], false)
  else
    let s := if p.flags &&& ACK ≠ 0 then { s with conn := s.conn.onAck p.ack p.win } else s
    if p.payload ≠ [] then do
      let s ← buildOnce { s with conn :=
        { s.conn with rcvNxt := p.seq + UInt32.ofNat p.payload.length } } p.payload
      some (s, [], true)
    else if p.flags &&& FIN ≠ 0 then do
      let c := { s.conn with rcvNxt := p.seq + 1 }
      let packet ← sendOne c ACK
      some ({ s with conn := Conn.default }, [packet], false)
    else some (s, [], true)

/-- `process` up to its pump. -/
def receive (s : TcpServer) (inner : List UInt8) (now : ℕ) (iss : UInt32) :
    Option (TcpServer × List Sent × Bool) := do
  match ← parsePacket inner with
  | none => some (s, [], false)
  | some p => onPacket s p now iss

/-- The window of the pump: the send window, or without bound for `blast`. -/
def windowOf (blast : Bool) (c : Conn) : ℕ := if blast then 2 ^ 32 - 1 else c.sendWindow

/-- `process`, with a bound on the rounds of its pump. -/
def process (fuel : ℕ) (s : TcpServer) (inner : List UInt8) (now : ℕ) (iss : UInt32)
    (blast : Bool) : Option (TcpServer × List Sent) := do
  match ← receive s inner now iss with
  | (s, sent, false) => some (s, sent)
  | (s, sent, true) =>
    let (c, more) ← pump fuel s.conn now (windowOf blast s.conn)
    some ({ s with conn := c }, sent ++ more)

/-! ### What the counters bound -/

/-- What the Rust types of a server say about it. -/
structure Sized (s : TcpServer) : Prop where
  resp : ∀ r, s.conn.resp = some r → RespSized r
  handler : ∀ h, s.handler = some h → ∀ method path query body reply,
    h method path query body = some reply → reply.source.totalLen < 2 ^ 32

/-- The values of the type `TcpServer` of the device. -/
abbrev Server := { s : TcpServer // Sized s }

/-- The reply to a request that the packet makes the server route. -/
def replyTo (s : TcpServer) (req : List UInt8) : HttpReply := (s.routeRequest req).2

/-- Every response that the packet makes the server stage fits. -/
def StagesFit (s : TcpServer) (inner : List UInt8) : Prop :=
  ∀ p, s.Takes inner p → s.routes p = true → Fits (replyTo s p.payload) p.payload

/-- A body has a length of type `usize`. -/
theorem Sized.replyTo_lt {s : TcpServer} (hs : Sized s) (req : List UInt8) :
    (replyTo s req).source.totalLen < 2 ^ 32 := by
  unfold replyTo TcpServer.routeRequest
  dsimp only
  split
  · next reply hreply =>
    obtain ⟨h, hh, hreply⟩ := Option.bind_eq_some_iff.mp hreply
    exact hs.handler h hh _ _ _ _ reply hreply
  · exact length_builtinRoute_lt _ _ _

/-- A reply depends on the handler and on our address only. -/
theorem replyTo_congr {s t : TcpServer} (hhandler : t.handler = s.handler)
    (hip : t.conn.ourIp = s.conn.ourIp) (req : List UInt8) : replyTo t req = replyTo s req := by
  unfold replyTo TcpServer.routeRequest
  dsimp only
  rw [hhandler, hip]
  cases s.handler.bind fun h => h (requestTarget req).1 (requestTarget req).2.1
    (requestTarget req).2.2 (Http.httpBody req) <;> rfl

/-! ### The same on the device -/

/-- A segment without payload is sent without a panic. -/
theorem sendOne_eq (c : Conn) (flags : UInt8) : sendOne c flags = some (c.send flags []) :=
  bind_eq_of_some (segment_eq c flags (Nat.zero_le _)) rfl

/-- The ACK field changes neither the application nor the address. -/
theorem same_afterAck (s : TcpServer) (p : Packet) :
    (s.afterAck p).handler = s.handler ∧ (s.afterAck p).conn.ourIp = s.conn.ourIp := by
  unfold TcpServer.afterAck Conn.onAck
  dsimp only
  split
  · split <;> exact ⟨rfl, rfl⟩
  · exact ⟨rfl, rfl⟩

open scoped Classical in
/-- A response is built once, and fails only where building it does. -/
theorem buildOnce_eq {t : TcpServer} {req : List UInt8} (hreq : req.length < 65536)
    (hreply : (replyTo t req).source.totalLen < 2 ^ 32) :
    buildOnce t req =
      if t.conn.resp.isNone = true → Fits (replyTo t req) req then
        some (if t.conn.resp.isNone then t.buildResponse req else t)
      else none := by
  unfold buildOnce
  by_cases hnone : t.conn.resp.isNone = true
  · rw [if_pos hnone, if_pos hnone]
    refine (buildResponse_eq t hreq hreply).trans ?_
    by_cases hfits : Fits (replyTo t req) req
    · exact (if_pos hfits).trans (if_pos fun _ => hfits).symm
    · exact (if_neg hfits).trans (if_neg fun h => hfits (h hnone)).symm
  · rw [if_neg hnone, if_neg hnone, if_pos fun h => absurd h hnone]

/-- A taken packet routes its data when no response is there. -/
theorem stagesFit_iff {s : TcpServer} {inner : List UInt8} {p : Packet} (ht : s.Takes inner p) :
    StagesFit s inner ↔ (s.routes p = true → Fits (replyTo s p.payload) p.payload) := by
  refine ⟨fun h => h p ht, fun h q hq => ?_⟩
  obtain rfl : p = q := Option.some_inj.mp (ht.parsed.symm.trans hq.parsed)
  exact h

open scoped Classical in
/-- A packet of the connection. -/
theorem onTaken_eq {s : TcpServer} (hs : Sized s) {inner : List UInt8} {p : Packet}
    (ht : s.Takes inner p) :
    (if p.payload ≠ [] then
        buildOnce ((s.afterAck p).afterData p) p.payload >>= fun s => some (s, [], true)
      else if p.flags &&& FIN ≠ 0 then
        sendOne { (s.afterAck p).conn with rcvNxt := p.seq + 1 } ACK >>= fun packet =>
          some ((s.afterAck p).closed, [packet], false)
      else some (s.afterAck p, [], true)) =
      if StagesFit s inner then
        some (if p.payload ≠ [] then
            (if ((s.afterAck p).afterData p).conn.resp.isNone then
              ((s.afterAck p).afterData p).buildResponse p.payload
              else (s.afterAck p).afterData p, [], true)
          else if p.flags &&& FIN ≠ 0 then
            ((s.afterAck p).closed, [(s.afterAck p).finAnswer p], false)
          else (s.afterAck p, [], true))
      else none := by
  rw [stagesFit_iff ht]
  by_cases hdata : p.payload ≠ []
  · have hhandler : ((s.afterAck p).afterData p).handler = s.handler := (same_afterAck s p).1
    have hip : ((s.afterAck p).afterData p).conn.ourIp = s.conn.ourIp := (same_afterAck s p).2
    have hreply := replyTo_congr hhandler hip p.payload
    have hroutes : s.routes p = ((s.afterAck p).afterData p).conn.resp.isNone := by
      rw [TcpServer.routes, decide_eq_true hdata, Bool.true_and]
      rfl
    have hbuild := buildOnce_eq (t := (s.afterAck p).afterData p) (payload_lt ht.parsed)
      (hreply ▸ hs.replyTo_lt p.payload)
    rw [hreply, ← hroutes] at hbuild
    rw [if_pos hdata, if_pos hdata, hbuild, ← hroutes]
    by_cases h : s.routes p = true → Fits (replyTo s p.payload) p.payload
    · rw [if_pos h, if_pos h, Option.bind_eq_bind, Option.bind_some]
    · rw [if_neg h, if_neg h, Option.bind_eq_bind, Option.bind_none]
  · have hfits : s.routes p = true → Fits (replyTo s p.payload) p.payload := by
      rw [TcpServer.routes, Bool.and_eq_true, decide_eq_true_eq]
      exact fun h => absurd h.1 hdata
    rw [if_neg hdata, if_neg hdata, if_pos hfits]
    by_cases hfin : p.flags &&& FIN ≠ 0
    · rw [if_pos hfin, if_pos hfin]
      exact bind_eq_of_some (sendOne_eq _ _) rfl
    · rw [if_neg hfin, if_neg hfin]

open scoped Classical in
/-- **Up to the pump a packet is safe** exactly if the response that it stages fits. -/
theorem receive_eq {s : TcpServer} (hs : Sized s) (inner : List UInt8) (now : ℕ) (iss : UInt32) :
    receive s inner now iss =
      if StagesFit s inner then some (s.receive inner now iss) else none := by
  refine bind_eq_of_some (parsePacket_eq inner) ?_
  unfold TcpServer.receive
  cases hparsed : Tcp.parsePacket inner with
  | none =>
    have hfits : StagesFit s inner := fun p ht => by
      rw [ht.parsed] at hparsed
      cases hparsed
    rw [if_pos hfits]
  | some p =>
    -- a packet that is not taken stages nothing
    have hfits_of : (∀ h : s.Takes inner p, s.routes p = true → Fits (replyTo s p.payload) p.payload) →
        StagesFit s inner := by
      intro h q ht hroutes
      have hpq := ht.parsed
      rw [hparsed] at hpq
      cases hpq
      exact h ht hroutes
    dsimp only [onPacket]
    by_cases hport : p.dport ≠ httpPort
    · rw [if_pos hport, if_pos hport, if_pos (hfits_of fun ht => absurd ht.port hport)]
    rw [if_neg hport, if_neg hport]
    by_cases hsyn : p.flags &&& SYN ≠ 0
    · rw [if_pos hsyn, if_pos hsyn, if_pos (hfits_of fun ht => absurd ht.noSyn hsyn)]
      exact bind_eq_of_some (sendOne_eq _ _) rfl
    rw [if_neg hsyn, if_neg hsyn]
    have hmatches : (!s.conn.active || decide (p.srcIp ≠ s.conn.clientIp) ||
        decide (p.sport ≠ s.conn.clientPort)) = true ↔ ¬ s.Matches p := by
      simp only [TcpServer.Matches, Bool.or_eq_true, Bool.not_eq_true', decide_eq_true_eq,
        not_and_or, Bool.not_eq_true, or_assoc, ne_eq]
    by_cases hmatch : (!s.conn.active || decide (p.srcIp ≠ s.conn.clientIp) ||
        decide (p.sport ≠ s.conn.clientPort)) = true
    · rw [if_pos hmatch, if_pos hmatch,
        if_pos (hfits_of fun ht => absurd ht.matched (hmatches.mp hmatch))]
    rw [if_neg hmatch, if_neg hmatch]
    by_cases hrst : p.flags &&& RST ≠ 0
    · rw [if_pos hrst, if_pos hrst, if_pos (hfits_of fun ht => absurd ht.noRst hrst)]
    rw [if_neg hrst, if_neg hrst]
    exact onTaken_eq hs ⟨hparsed, not_not.mp hport, not_not.mp hsyn,
      not_not.mp (mt hmatches.mpr hmatch), not_not.mp hrst⟩

/-! ### When a segment is taken -/

/-- **The condition on what is pumped**: a response of at most `2 ^ 31` bytes. -/
def Short (c : Conn) : Prop := ∀ r, c.resp = some r → r.totalLen ≤ 2 ^ 31

/-- The pieces that the pump sends come to an end. -/
def PumpEnds (now : ℕ) (blast : Bool) (c : Conn) : Prop :=
  ∀ r, c.resp = some r → ∃ fuel, EndsIn r now (windowOf blast c) fuel c

/-- A staged response fits the counters when its parts do. -/
theorem respSized_stageResponse {reply : HttpReply} {req : List UInt8} (hfits : Fits reply req)
    (hsource : reply.source.totalLen < 2 ^ 32) : RespSized (Http.stageResponse reply req) := by
  have hsame : (Http.stageResponse reply req).source = reply.source := by
    simp only [Http.stageResponse]
  have htotal := hfits.total_lt
  have hhdr := (Http.stageResponse_pos reply req).2
  rw [← hsame] at hsource
  exact ⟨hhdr.trans_lt htotal, htotal, hsource⟩

/-- The ACK field keeps the sizes. -/
theorem Sized.afterAck {s : TcpServer} (hs : Sized s) (p : Packet) : Sized (s.afterAck p) := by
  have hhandler := (same_afterAck s p).1
  constructor
  · intro r hr
    apply hs.resp r
    unfold TcpServer.afterAck at hr
    split at hr
    · exact (Conn.onAck_spec s.conn p.ack p.win).2.2.1 r hr
    · exact hr
  · rw [hhandler]
    exact hs.handler

/-- A server without a response. -/
theorem Sized.of_none {s t : TcpServer} (hs : Sized s) (hhandler : t.handler = s.handler)
    (hresp : t.conn.resp = none) : Sized t := by
  constructor
  · rw [hresp]
    intro r hr
    cases hr
  · rw [hhandler]
    exact hs.handler

/-- A packet that stages what fits leaves a value of the type. -/
theorem Sized.receives {s : TcpServer} (hs : Sized s) {inner : List UInt8} {now : ℕ} {iss : UInt32}
    (hfits : StagesFit s inner) {out : TcpServer × List Sent × Bool}
    (h : s.Receives inner now iss out) : Sized out.1 := by
  cases h with
  | ignored hopen htake => exact hs
  | opened p hopen => exact hs.of_none rfl rfl
  | reset hopen htake => exact hs.of_none rfl rfl
  | routed p ht hdata hresp =>
    have hhandler : ((s.afterAck p).afterData p).handler = s.handler := (same_afterAck s p).1
    have hip : ((s.afterAck p).afterData p).conn.ourIp = s.conn.ourIp := (same_afterAck s p).2
    have hreply := replyTo_congr hhandler hip p.payload
    have hroutes : s.routes p = true := by
      rw [TcpServer.routes, hresp, decide_eq_true hdata]
      rfl
    have hfit := (stagesFit_iff ht).mp hfits hroutes
    obtain ⟨r, action, heq⟩ := ((s.afterAck p).afterData p).buildResponse_eq p.payload
    have hr : some r = some (Http.stageResponse (replyTo s p.payload) p.payload) := by
      have hstaged := TcpServer.requested_resp s p
      rw [TcpServer.requested, heq] at hstaged
      exact hstaged.trans (congrArg (fun reply => some (Http.stageResponse reply p.payload)) hreply)
    rw [heq]
    constructor
    · intro r' hr'
      rw [← Option.some_inj.mp hr', Option.some_inj.mp hr]
      exact respSized_stageResponse hfit (hs.replyTo_lt p.payload)
    · intro h hh
      exact hs.handler h (hhandler ▸ hh)
  | data p r ht hdata hresp =>
    exact ⟨(hs.afterAck p).resp, (hs.afterAck p).handler⟩
  | closed p ht hdata hfin => exact (hs.afterAck p).of_none rfl rfl
  | ack p ht hdata hfin => exact hs.afterAck p

/-- **The pump returns exactly when its loop ends** at the staged response. -/
theorem pump_returns_iff {c : Conn} (hsized : ∀ r, c.resp = some r → RespSized r)
    (now window : ℕ) :
    (∃ fuel out, pump fuel c now window = some out) ↔
      ∀ r, c.resp = some r → ∃ fuel, EndsIn r now window fuel c := by
  cases hresp : c.resp with
  | none =>
    refine iff_of_true ⟨0, (c, []), ?_⟩ fun r hr => ?_
    · rw [pump, hresp]
    · cases hr
  | some r =>
    have hpump : ∀ fuel, pump fuel c now window = pumpLoop r now window fuel c := by
      intro fuel
      rw [pump, hresp]
    constructor
    · rintro ⟨fuel, out, hout⟩ _ ⟨⟩
      refine ⟨fuel, ?_⟩
      by_contra hends
      rw [hpump, pumpLoop_eq (hsized r hresp) now window hresp, if_neg hends] at hout
      cases hout
    · intro h
      obtain ⟨fuel, hends⟩ := h r rfl
      refine ⟨fuel, c.pumpLoop now window r.totalLen fuel, ?_⟩
      rw [hpump, pumpLoop_eq (hsized r hresp) now window hresp, if_pos hends]

/-- **When `process` returns.** -/
theorem process_returns_iff (s : Server) (inner : List UInt8) (now : ℕ) (iss : UInt32)
    (blast : Bool) :
    (∃ fuel out, process fuel s.1 inner now iss blast = some out) ↔
      StagesFit s.1 inner ∧ ∀ t sent, s.1.receive inner now iss = (t, sent, true) →
        PumpEnds now blast t.conn := by
  obtain ⟨s, hs⟩ := s
  dsimp only
  by_cases hfits : StagesFit s inner
  · have hreceive := (receive_eq hs inner now iss).trans (if_pos hfits)
    have hsized := hs.receives hfits (s.receives inner now iss)
    obtain ⟨⟨t, sent, goes⟩, hout⟩ : ∃ out, out = s.receive inner now iss := ⟨_, rfl⟩
    rw [← hout] at hreceive hsized ⊢
    have hprocess : ∀ fuel, process fuel s inner now iss blast =
        if goes then do
          let (c, more) ← pump fuel t.conn now (windowOf blast t.conn)
          some ({ t with conn := c }, sent ++ more)
        else some (t, sent) := by
      intro fuel
      rw [process, hreceive]
      cases goes <;> rfl
    have hpump := pump_returns_iff hsized.resp now (windowOf blast t.conn)
    cases goes with
    | false =>
      refine iff_of_true ⟨0, (t, sent), hprocess 0⟩ ⟨hfits, fun t' sent' h => ?_⟩
      cases h
    | true =>
      constructor
      · rintro ⟨fuel, out, hret⟩
        rw [hprocess, if_pos rfl] at hret
        obtain ⟨o, ho, -⟩ := Option.bind_eq_some_iff.mp hret
        refine ⟨hfits, fun t' sent' h => ?_⟩
        cases h
        exact hpump.mp ⟨fuel, o, ho⟩
      · rintro ⟨-, hends⟩
        obtain ⟨fuel, o, ho⟩ := hpump.mpr (hends t sent rfl)
        exact ⟨fuel, _, (hprocess fuel).trans (bind_eq_of_some ho rfl)⟩
  · refine iff_of_false ?_ fun h => hfits h.1
    rintro ⟨fuel, out, hprocess⟩
    rw [process, receive_eq hs, if_neg hfits] at hprocess
    cases hprocess

/-- What `process` returns is the step of the server. -/
theorem process_eq {s : TcpServer} (hs : Sized s) {inner : List UInt8} {now : ℕ} {iss : UInt32}
    {blast : Bool} {out : TcpServer × List Sent}
    (h : process Conn.pumpFuel s inner now iss blast = some out) :
    out = s.process inner now iss blast := by
  have hfits : StagesFit s inner := by
    by_contra hfits
    rw [process, receive_eq hs, if_neg hfits] at h
    cases h
  have hsized := hs.receives hfits (s.receives inner now iss)
  rw [process, receive_eq hs, if_pos hfits, Option.bind_eq_bind, Option.bind_some] at h
  unfold TcpServer.process
  generalize s.receive inner now iss = received at h hsized ⊢
  obtain ⟨t, sent, goes⟩ := received
  cases goes with
  | false => exact (Option.some_inj.mp h).symm
  | true =>
    obtain ⟨⟨c, more⟩, hpump, h⟩ := Option.bind_eq_some_iff.mp h
    have hsame : t.conn.pump now (windowOf blast t.conn) = (c, more) := by
      unfold pump at hpump
      unfold Conn.pump
      cases hresp : t.conn.resp with
      | none =>
        rw [hresp] at hpump
        exact Option.some_inj.mp hpump
      | some r =>
        rw [hresp] at hpump
        dsimp only at hpump
        rw [pumpLoop_eq (hsized.resp r hresp) now _ hresp] at hpump
        split at hpump
        · exact Option.some_inj.mp hpump
        · cases hpump
    rw [← Option.some_inj.mp h]
    dsimp only
    rw [show (if blast then 2 ^ 32 - 1 else t.conn.sendWindow) = windowOf blast t.conn from rfl,
      hsame]

/-! ## The client -/

/-- The data of a segment behind the SYN. -/
def takeData (c : Outbound.TcpClient) (seq : UInt32) (payload : List UInt8) :
    Option (Outbound.TcpClient × List (List UInt8)) :=
  if payload ≠ [] then do
    let c := if seq = c.rcvNxt then
        { c with
          response := c.response ++ payload
          rcvNxt := c.rcvNxt + UInt32.ofNat payload.length }
      else c
    let ack ← clientSegment c ACK []
    some (c, [ack])
  else some (c, [])

/-- A segment behind the SYN: its data, and then its FIN. -/
def onSegment (c : Outbound.TcpClient) (seq : UInt32) (flags : UInt8) (payload : List UInt8) :
    Option (Outbound.TcpClient × List (List UInt8)) := do
  let (c, out) ← takeData c seq payload
  if flags &&& FIN ≠ 0 then
    let c := { c with rcvNxt := c.rcvNxt + 1 }
    let ack ← clientSegment c ACK []
    let fin ← clientSegment c (FIN ||| ACK) []
    some ({ c with done := true }, out ++ [ack, fin])
  else some (c, out)

/-- `on_inner` of a segment of the client. -/
def onOwn (c : Outbound.TcpClient) (inner : List UInt8) :
    Option (Outbound.TcpClient × List (List UInt8)) := do
  let b0 ← inner[0]?
  let ihl ← usize.mul (b0.toNat % 16) 4
  let total ← u16From inner 2 3
  let least ← usize.add ihl 20
  if total < least ∨ inner.length < total then some (c, [])
  else
    let tcp ← slice inner ihl total
    let seq ← u32From tcp 4
    let b12 ← tcp[12]?
    let dataOff ← usize.mul (b12.toNat / 16) 4
    let flags ← tcp[13]?
    if dataOff < 20 ∨ tcp.length < dataOff then some (c, [])
    else
      let payload ← slice tcp dataOff tcp.length
      if flags &&& SYN ≠ 0 ∧ flags &&& ACK ≠ 0 ∧ c.established = false then
        let c := { c with rcvNxt := seq + 1, established := true }
        let ack ← clientSegment c ACK []
        let req ← clientSegment c (PSH ||| ACK) c.request
        some ({ c with sndNxt := c.sndNxt + UInt32.ofNat c.request.length }, [ack, req])
      else onSegment c seq flags payload

/-- `on_inner`. -/
def onInner (c : Outbound.TcpClient) (inner : List UInt8) :
    Option (Outbound.TcpClient × List (List UInt8)) := do
  let mine ← owns c inner
  if !mine || c.done then some (c, []) else onOwn c inner

/-! ### The request of the client -/

/-- The client when its SYN was answered. -/
def established (c : Outbound.TcpClient) (seq : UInt32) : Outbound.TcpClient :=
  { c with rcvNxt := seq + 1, established := true }

/-- The sum behind the checksum of the request, which acknowledges the number of a SYN. -/
def requestSum (c : Outbound.TcpClient) (seq : UInt32) : ℕ :=
  l4Sum c.src c.dst protoTcp (clientTcp (established c seq) (PSH ||| ACK) 0 c.request)

/-- When the packet makes the client send its request, the sum fits in 32 bits. -/
def RequestFits (c : Outbound.TcpClient) (inner : List UInt8) : Prop :=
  ∀ seg, c.owns inner = true → c.done = false → Outbound.segIn inner = some seg → c.Opens seg →
    requestSum c seg.seq < 2 ^ 32

/-- The values of the type `TcpClient`. -/
abbrev Client := { c : Outbound.TcpClient // c.request.length < 2 ^ 31 }

/-! ### The same client on the device -/

/-- A segment without data. -/
theorem clientSegment_nil (c : Outbound.TcpClient) (flags : UInt8) :
    clientSegment c flags [] = some (c.segment flags []) := by
  have hsum : l4Sum c.src c.dst protoTcp (clientTcp c flags 0 []) < 2 ^ 32 :=
    l4Sum_lt (by rw [length_clientTcp]; exact Nat.lt_of_sub_pos (by decide))
  rw [clientSegment_eq c flags (by decide), if_pos hsum]

/-- The FIN of a segment is answered twice. -/
theorem onFin_eq (c : Outbound.TcpClient) (flags : UInt8) (out : List (List UInt8)) :
    (if flags &&& FIN ≠ 0 then do
        let ack ← clientSegment { c with rcvNxt := c.rcvNxt + 1 } ACK []
        let fin ← clientSegment { c with rcvNxt := c.rcvNxt + 1 } (FIN ||| ACK) []
        some ({ c with rcvNxt := c.rcvNxt + 1, done := true }, out ++ [ack, fin])
      else some (c, out)) =
    some (if flags &&& FIN ≠ 0 then
        ({ c with rcvNxt := c.rcvNxt + 1, done := true },
          out ++ [Outbound.TcpClient.segment { c with rcvNxt := c.rcvNxt + 1 } ACK [],
            Outbound.TcpClient.segment { c with rcvNxt := c.rcvNxt + 1 } (FIN ||| ACK) []])
      else (c, out)) := by
  by_cases hfin : flags &&& FIN ≠ 0
  · rw [if_pos hfin, if_pos hfin]
    refine bind_eq_of_some (clientSegment_nil _ _) ?_
    exact bind_eq_of_some (clientSegment_nil _ _) rfl
  · rw [if_neg hfin, if_neg hfin]

/-- A segment to the client is taken without a panic. -/
theorem onSegment_eq (c : Outbound.TcpClient) (seq : UInt32) (flags : UInt8)
    (payload : List UInt8) : onSegment c seq flags payload = some (c.onSegment seq flags payload) := by
  unfold onSegment takeData Outbound.TcpClient.onSegment
  by_cases hdata : payload ≠ []
  · rw [if_pos hdata, if_pos hdata]
    refine bind_eq_of_some (bind_eq_of_some (clientSegment_nil _ _) rfl) ?_
    exact onFin_eq _ flags _
  · rw [if_neg hdata, if_neg hdata]
    exact onFin_eq c flags []

/-- The request and the answer to a SYN, of a client that knows the number of the SYN. -/
theorem openAnswer_eq {c : Outbound.TcpClient} (hc : c.request.length < 2 ^ 31) (seq : UInt32) :
    (do
      let ack ← clientSegment (established c seq) ACK []
      let req ← clientSegment (established c seq) (PSH ||| ACK) c.request
      some ({ established c seq with
        sndNxt := c.sndNxt + UInt32.ofNat c.request.length }, [ack, req])) =
      if requestSum c seq < 2 ^ 32 then
        some ({ established c seq with sndNxt := c.sndNxt + UInt32.ofNat c.request.length },
          [(established c seq).segment ACK [], (established c seq).segment (PSH ||| ACK) c.request])
      else none := by
  refine bind_eq_of_some (clientSegment_nil _ _) ?_
  rw [clientSegment_eq (established c seq) (PSH ||| ACK) hc]
  by_cases hsum : requestSum c seq < 2 ^ 32
  · rw [if_pos hsum]
    exact bind_eq_of_some (if_pos hsum) rfl
  · rw [if_neg hsum]
    exact (congrArg (· >>= _) (if_neg hsum)).trans rfl

/-- A packet that is not the client's, or in which no segment reads, sends no request. -/
theorem requestFits_of_none {c : Outbound.TcpClient} {inner : List UInt8}
    (h : Outbound.segIn inner = none) : RequestFits c inner := by
  intro seg _ _ hseg
  rw [h] at hseg
  cases hseg

/-- An owned packet with a segment sends the request when the segment answers the SYN. -/
theorem requestFits_iff {c : Outbound.TcpClient} {inner : List UInt8} {seg : Outbound.Seg}
    (hopen : c.owns inner = true ∧ c.done = false) (h : Outbound.segIn inner = some seg) :
    RequestFits c inner ↔ (c.Opens seg → requestSum c seg.seq < 2 ^ 32) := by
  constructor
  · intro hfits hopens
    exact hfits seg hopen.1 hopen.2 h hopens
  · intro hfits seg' _ _ hseg' hopens
    obtain rfl : seg = seg' := Option.some_inj.mp (h.symm.trans hseg')
    exact hfits hopens

open scoped Classical in
/-- A segment of the client is handled exactly if the request that it opens fits. -/
theorem onOwn_eq {c : Outbound.TcpClient} (hc : c.request.length < 2 ^ 31) {inner : List UInt8}
    (hopen : c.owns inner = true ∧ c.done = false) (hlen : 20 ≤ inner.length) :
    onOwn c inner = if RequestFits c inner then some (c.onInner inner) else none := by
  unfold onOwn Outbound.TcpClient.onInner
  have hguard : ¬(!c.owns inner || c.done) = true := by
    rw [hopen.1, hopen.2]
    decide
  rw [if_neg hguard]
  have hb0 := (inner.getD 0 0).toNat_lt
  -- each read stands behind the check that it needs
  refine bind_eq_of_some (get_of_lt (by omega)) ?_
  refine bind_eq_of_some (mul_four (by omega)) ?_
  refine bind_eq_of_some (u16From_eq (by omega)) ?_
  refine bind_eq_of_some (add_of_small (by omega)) ?_
  obtain ⟨seg?, hseg⟩ : ∃ seg?, Outbound.segIn inner = seg? := ⟨_, rfl⟩
  have hread := hseg
  unfold Outbound.segIn at hread
  dsimp only at hread ⊢
  -- the segment is not whole
  by_cases hbounds : u16At inner 2 < (inner.getD 0 0).toNat % 16 * 4 + 20 ∨
      inner.length < u16At inner 2
  · rw [if_pos hbounds] at hread
    rw [if_pos hbounds, if_pos hbounds, if_pos (requestFits_of_none (hseg.trans hread.symm))]
  rw [if_neg hbounds] at hread
  rw [if_neg hbounds, if_neg hbounds]
  refine bind_eq_of_some (slice_of_le (by omega) (by omega)) ?_
  rw [← List.drop_take]
  obtain ⟨tcp, htcp⟩ : ∃ tcp, tcp = (inner.take (u16At inner 2)).drop
      ((inner.getD 0 0).toNat % 16 * 4) := ⟨_, rfl⟩
  have htcplen : 20 ≤ tcp.length := by
    rw [htcp, List.length_drop, List.length_take]
    omega
  rw [← htcp] at hread ⊢
  refine bind_eq_of_some (u32From_eq (by omega)) ?_
  refine bind_eq_of_some (get_of_lt (by omega)) ?_
  have hb12 := (tcp.getD 12 0).toNat_lt
  refine bind_eq_of_some (mul_four (by omega)) ?_
  refine bind_eq_of_some (get_of_lt (by omega)) ?_
  -- its header is not whole
  by_cases hoff : (tcp.getD 12 0).toNat / 16 * 4 < 20 ∨
      tcp.length < (tcp.getD 12 0).toNat / 16 * 4
  · rw [if_pos hoff] at hread
    rw [if_pos hoff, if_pos hoff, if_pos (requestFits_of_none (hseg.trans hread.symm))]
  rw [if_neg hoff] at hread
  rw [if_neg hoff, if_neg hoff]
  refine bind_eq_of_some (slice_to_end (by omega)) ?_
  have hiff := requestFits_iff hopen (hseg.trans hread.symm)
  dsimp only at hiff
  -- the answer to the SYN sends the request, the only sum that can overflow
  by_cases hsyn : tcp.getD 13 0 &&& SYN ≠ 0 ∧ tcp.getD 13 0 &&& ACK ≠ 0 ∧ c.established = false
  · rw [if_pos hsyn, if_pos hsyn]
    refine (openAnswer_eq hc (u32At tcp 4)).trans ?_
    by_cases hsum : requestSum c (u32At tcp 4) < 2 ^ 32
    · rw [if_pos hsum, if_pos (hiff.mpr fun _ => hsum)]
      rfl
    · rw [if_neg hsum, if_neg fun h => hsum (hiff.mp h hsyn)]
  · rw [if_neg hsyn, if_neg hsyn, if_pos (hiff.mpr fun h => absurd h hsyn)]
    exact onSegment_eq c _ _ _

open scoped Classical in
/-- **The client is safe** exactly if the sum of its request fits. -/
theorem onInner_eq {c : Outbound.TcpClient} (hc : c.request.length < 2 ^ 31) (inner : List UInt8) :
    onInner c inner = if RequestFits c inner then some (c.onInner inner) else none := by
  refine bind_eq_of_some (owns_eq c inner) ?_
  by_cases hguard : (!c.owns inner || c.done) = true
  · have hfits : RequestFits c inner := fun seg howns hdone => by
      rw [howns, hdone] at hguard
      cases hguard
    rw [if_pos hguard, if_pos hfits, Outbound.TcpClient.onInner, if_pos hguard]
  have hopen : c.owns inner = true ∧ c.done = false := by
    rw [Bool.or_eq_true, not_or, Bool.not_eq_true', Bool.not_eq_false, Bool.not_eq_true] at hguard
    exact hguard
  rw [if_neg hguard]
  refine onOwn_eq hc hopen ?_
  by_contra hshort
  have howns := hopen.1
  rw [Outbound.TcpClient.owns, if_pos (.inl (by omega))] at howns
  cases howns

/-! ## When all of them return -/

/-- Short responses come to an end. -/
theorem Short.pumpEnds {c : Conn} (hshort : Short c) (now : ℕ) (blast : Bool) :
    PumpEnds now blast c := fun r hr => exists_endsIn (hshort r hr) now (windowOf blast c) hr

/-- **`process` returns when what it stages fits and what it pumps is short.**  What does not
fit is staged in vain. -/
theorem process_returns (s : Server) (inner : List UInt8) (now : ℕ) (iss : UInt32) (blast : Bool) :
    (StagesFit s.1 inner → (∀ t sent, s.1.receive inner now iss = (t, sent, true) →
      Short t.conn) → ∃ fuel out, process fuel s.1 inner now iss blast = some out) ∧
    ((∃ fuel out, process fuel s.1 inner now iss blast = some out) → StagesFit s.1 inner) := by
  have hiff := process_returns_iff s inner now iss blast
  refine ⟨fun hfits hshort => hiff.mpr ⟨hfits, fun t sent h => ?_⟩, fun h => (hiff.mp h).1⟩
  exact (hshort t sent h).pumpEnds now blast

/-- **When the parsers of what comes in return**, on every byte string.  For `process` the
conditions are that what is staged fits, which is necessary, and that what is pumped is short;
over a longer response it returns exactly if the pieces come to an end all the same. -/
theorem parsers_return_iff (inner : List UInt8) :
    (∀ (s : Server) (now : ℕ) (iss : UInt32) (blast : Bool),
      (StagesFit s.1 inner → (∀ t sent, s.1.receive inner now iss = (t, sent, true) →
        Short t.conn) → ∃ fuel out, process fuel s.1 inner now iss blast = some out) ∧
      ((∃ fuel out, process fuel s.1 inner now iss blast = some out) → StagesFit s.1 inner)) ∧
    (∀ (s : Server) (now : ℕ) (iss : UInt32) (blast : Bool),
      (∃ fuel out, process fuel s.1 inner now iss blast = some out) ↔
        StagesFit s.1 inner ∧ ∀ t sent, s.1.receive inner now iss = (t, sent, true) →
          PumpEnds now blast t.conn) ∧
    (∀ (now : ℕ) (blast : Bool) (c : Conn), Short c → PumpEnds now blast c) ∧
    (∀ c : Client, (∃ out, onInner c.1 inner = some out) ↔ RequestFits c.1 inner) ∧
    (∀ c : Client, ∃ out, owns c.1 inner = some out) ∧
    (∃ out, echoReplyAny inner = some out) ∧
    (∀ txid : Bytes 12, (parseResponse inner txid).Returns) ∧
    (∀ port : ℕ, ∃ out, udpPayloadToPort inner port = some out) ∧
    ∀ block : Buf, ∃ out, decodeStatus block.1 = some out := by
  refine ⟨fun s => process_returns s inner, fun s => process_returns_iff s inner,
    fun now blast c hshort => hshort.pumpEnds now blast, ?_, ?_, ?_, ?_, ?_, ?_⟩
  · intro c
    rw [onInner_eq c.2]
    by_cases hfits : RequestFits c.1 inner
    · exact iff_of_true ⟨_, if_pos hfits⟩ hfits
    · refine iff_of_false ?_ hfits
      rintro ⟨out, hout⟩
      rw [if_neg hfits] at hout
      cases hout
  · exact fun c => ⟨_, owns_eq c.1 inner⟩
  · exact ⟨_, echoReplyAny_eq inner⟩
  · intro txid
    rw [parseResponse_eq]
    exact Stun.returns_parseResponse inner txid
  · exact fun port => ⟨_, udpPayloadToPort_eq inner port⟩
  · exact fun block => ⟨_, decodeStatus_eq block⟩

/-! ## A body that is too long -/

/-- The bytes that a window of the partition reads in the release build; an error of the
flash reads none. -/
def windowBytes (data : List UInt8) (r : ModelImage.PartReader) (off want : ℕ) : List UInt8 :=
  if r.len ≤ off then []
  else if (r.base + off) % 2 ^ 32 + min (r.len - off) want ≤ data.length then
    Bytes.slice data ((r.base + off) % 2 ^ 32) (min (r.len - off) want)
  else []

/-- They are the bytes that `PartReader` reads. -/
theorem readAt_ofData (data : List UInt8) (h : 4096 ≤ data.length) (hlt : data.length < 2 ^ 32)
    (r : ModelImage.PartReader) (off want : ℕ) :
    r.readAt (ModelImage.usize false) (.ofData data h hlt) off want =
      some (windowBytes data r off want) := by
  unfold ModelImage.PartReader.readAt windowBytes ModelImage.Partition.ofData
  by_cases hoff : r.len ≤ off
  · rw [if_pos hoff, if_pos hoff]
  · rw [if_neg hoff, if_neg hoff]
    have hstart : (ModelImage.usize false).add r.base off = some ((r.base + off) % 2 ^ 32) := by
      unfold Machine.add Machine.fit
      split_ifs with hword hchecks
      · rw [Nat.mod_eq_of_lt (show r.base + off < 2 ^ 32 from hword)]
      · cases hchecks
      · rfl
    refine bind_eq_of_some hstart ?_
    dsimp only
    split <;> rfl

/-- A window of the partition as a reader. -/
def windowReader (data : List UInt8) (hlt : data.length < 2 ^ 32)
    (r : ModelImage.PartReader) : FlashReader where
  content i := data.getD ((r.base + i) % 2 ^ 32) 0
  readAt := windowBytes data r
  length_le off want := by
    unfold windowBytes
    split_ifs with hoff hend
    · exact Nat.zero_le _
    · rw [Bytes.length_slice hend]
      exact min_le_right _ _
    · exact Nat.zero_le _
  getElem_eq off want i hi := by
    obtain ⟨hoff, hend⟩ : ¬ r.len ≤ off ∧
        (r.base + off) % 2 ^ 32 + min (r.len - off) want ≤ data.length := by
      unfold windowBytes at hi
      split_ifs at hi with hoff hend
      · cases hi
      · exact ⟨hoff, hend⟩
      · cases hi
    have hbytes : windowBytes data r off want =
        Bytes.slice data ((r.base + off) % 2 ^ 32) (min (r.len - off) want) := by
      rw [windowBytes, if_neg hoff, if_pos hend]
    rw [hbytes, Bytes.length_slice hend] at hi
    have hwrap : (r.base + (off + i)) % 2 ^ 32 = (r.base + off) % 2 ^ 32 + i := by omega
    rw [hwrap, List.getD_eq_getElem?_getD, List.getElem?_eq_getElem (by omega), Option.getD_some]
    simp only [hbytes, Bytes.slice, List.getElem_take, List.getElem_drop]

/-- The window of the tokenizer that `load` makes of `ModelImage.wrapped`. -/
def wrappedWindow : ModelImage.PartReader := ⟨16, 2 ^ 32 - 16⟩

/-- The reply to a request for the tokenizer, from that window. -/
def tokenizerReply : HttpReply where
  status := 200
  contentType := "application/octet-stream"
  source := .flash (windowReader ModelImage.wrapped (by rw [ModelImage.length_wrapped]; omega)
    wrappedWindow) wrappedWindow.len
  cacheControl := some "public, max-age=604800"

/-- A server with that reply, and a connection of the client that `getPacket` comes from. -/
def tokenizerServer : Server where
  val := { TcpServer.new (some fun _ _ _ _ => some tokenizerReply) with
    conn := Conn.opened (clientPacket 100 0 SYN "") 0 1000 }
  property := by
    constructor
    · intro r hr
      cases hr
    · intro h hh method path query body reply hreply
      cases hh
      cases hreply
      decide

/-- Headers have 16 bytes and more. -/
theorem le_length_renderHeaders (status : ℕ) (contentType : String) (base len total : ℕ)
    (cacheControl : Option String) :
    16 ≤ (Http.renderHeaders status contentType base len total cacheControl).length := by
  have hfixed : 16 ≤ (Text.utf8 (toString "\r\nConnection: close\r\nAccess-Control-Allow-Origin: *\r\nAccept-Ranges: bytes\r\n")).length := by
    decide
  unfold Http.renderHeaders
  dsimp only
  rw [Text.utf8_append, Text.utf8_append, Text.utf8_append, Text.utf8_append]
  simp only [List.length_append]
  omega

/-- The request asks for the whole body. -/
theorem parseRange_getPacket (total : ℕ) :
    Http.parseRange (getPacket 0).payload total = .ok none := by
  have htext : Text.fromUtf8 (getPacket 0).payload = .ok "GET / HTTP/1.1\r\n\r\n" :=
    Text.fromUtf8_utf8 _
  have hspec : rangeSpec ((Split.pieces (Split.str "\r\n".toList)
      "GET / HTTP/1.1\r\n\r\n".toList).map String.ofList) = none := by
    decide +kernel
  rw [Http.parseRange, htext]
  dsimp only
  rw [hspec]

/-- The request of the client stages a response of more than `2 ^ 32` bytes. -/
theorem not_stagesFit_tokenizer : ¬ StagesFit tokenizerServer.1 (getPacket 0).bytes := by
  intro hfits
  have ht : tokenizerServer.1.Takes (getPacket 0).bytes (getPacket 0) :=
    { parsed := parsePacket_getPacket 0
      port := rfl
      noSyn := show (PSH ||| ACK) &&& SYN = 0 by decide
      matched := ⟨rfl, rfl, rfl⟩
      noRst := show (PSH ||| ACK) &&& RST = 0 by decide }
  have hroutes : tokenizerServer.1.routes (getPacket 0) = true := by
    rw [TcpServer.routes, decide_eq_true (getPacket_payload 0)]
    rfl
  have hfit := (hfits _ ht hroutes).total_lt
  have hreply : replyTo tokenizerServer.1 (getPacket 0).payload = tokenizerReply := rfl
  have hslice : (Http.chooseSlice tokenizerReply.status (getPacket 0).payload
      tokenizerReply.source.totalLen).len = 2 ^ 32 - 16 := by
    rcases Http.chooseSlice_cases tokenizerReply.status (getPacket 0).payload
      tokenizerReply.source.totalLen with ⟨-, heq⟩ | ⟨a, b, -, hrange, -⟩ | ⟨hrange, -⟩
    · rw [heq]
      rfl
    · rw [parseRange_getPacket] at hrange
      cases hrange
    · rw [parseRange_getPacket] at hrange
      cases hrange
  rw [hreply, Http.stageResponse] at hfit
  dsimp only at hfit
  rw [hslice] at hfit
  have hheaders := le_length_renderHeaders
    (Http.chooseSlice tokenizerReply.status (getPacket 0).payload
      tokenizerReply.source.totalLen).status tokenizerReply.contentType
    (Http.chooseSlice tokenizerReply.status (getPacket 0).payload
      tokenizerReply.source.totalLen).base (2 ^ 32 - 16) tokenizerReply.source.totalLen
    tokenizerReply.cacheControl
  omega

/-- **A sum overflows**: the headers and the body that an image declares to have
`2 ^ 32 - 16` bytes.  The body is what the device reads from the partition with the image. -/
theorem process_overflows :
    (∃ (h : 4096 ≤ ModelImage.wrapped.length) (hlt : ModelImage.wrapped.length < 2 ^ 32),
      ∀ off want, wrappedWindow.readAt (ModelImage.usize false)
        (.ofData ModelImage.wrapped h hlt) off want =
          some (windowBytes ModelImage.wrapped wrappedWindow off want)) ∧
    ¬ ∃ fuel out, process fuel tokenizerServer.1 (getPacket 0).bytes 0 0 false = some out := by
  constructor
  · have hlt : ModelImage.wrapped.length < 2 ^ 32 := by
      rw [ModelImage.length_wrapped]
      omega
    exact ⟨ModelImage.length_wrapped.ge, hlt, readAt_ofData _ _ hlt wrappedWindow⟩
  · rintro ⟨fuel, out, hout⟩
    exact not_stagesFit_tokenizer ((process_returns_iff _ _ _ _ _).mp ⟨fuel, out, hout⟩).1

end Inbound
