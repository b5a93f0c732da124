/-
# Answering with checked accesses

What the TCP server and the TCP client build, with every index, every slice and every sum as
the source has it, over the parsers of `InboundParsers`: a segment of the server, a segment
of the client, and the response to a request.

A segment of the server has at most 512 bytes of data and fits (`segment_eq`).  A segment of
the client is summed in 32 bits (`clientSegment_eq`).  The length of a response is that of its
headers and of its body, and the sum has to fit as well (`buildResponse_eq`).
-/
import PySpell.InboundParsers

open Tcp Checked Http

namespace Inbound

/-! ## Segments -/

/-- The IPv4 header of `segment` and of `ipv4_packet`, with its checksum. -/
def writeIpv4 (pkt : List UInt8) (total : ℕ) (proto : UInt8) (src dst : Ip) :
    Option (List UInt8) := do
  let pkt ← setAt pkt 0 0x45
  let pkt ← copyTo pkt 2 4 (be16 total)
  let pkt ← setAt pkt 6 0x40
  let pkt ← setAt pkt 8 64
  let pkt ← setAt pkt 9 proto
  let pkt ← copyTo pkt 12 16 src.bytes
  let pkt ← copyTo pkt 16 20 dst.bytes
  let sum ← checksum (← slice pkt 0 20)
  copyTo pkt 10 12 (be16 sum)

/-- The TCP header of both functions that are called `segment`, and the payload. -/
def writeTcp (t : List UInt8) (sport dport : ℕ) (seq ack : UInt32) (flags : UInt8)
    (payload : List UInt8) : Option (List UInt8) := do
  let t ← copyTo t 0 2 (be16 sport)
  let t ← copyTo t 2 4 (be16 dport)
  let t ← copyTo t 4 8 (be32 seq)
  let t ← copyTo t 8 12 (be32 ack)
  let t ← setAt t 12 0x50
  let t ← setAt t 13 flags
  let t ← copyTo t 14 16 (be16 64240)
  copyTo t 20 t.length payload

/-- `segment` of the server. -/
def segment (c : Conn) (flags : UInt8) (payload : List UInt8) : Option (List UInt8) := do
  let tcpLen ← usize.add 20 payload.length
  let total ← usize.add 20 tcpLen
  let pkt ← writeIpv4 (List.replicate total 0) total protoTcp c.ourIp c.clientIp
  let t ← slice pkt 20 pkt.length
  let t ← writeTcp t httpPort c.clientPort c.sndNxt c.rcvNxt flags payload
  let pkt := splice pkt 20 t
  let sum ← l4Checksum c.ourIp c.clientIp protoTcp (← slice pkt 20 pkt.length)
  copyTo pkt 36 38 (be16 sum)

/-- `ipv4_packet`. -/
def ipv4Packet (src dst : Ip) (proto : UInt8) (l4 : List UInt8) : Option (List UInt8) := do
  let total ← usize.add 20 l4.length
  let pkt ← writeIpv4 (List.replicate total 0) total proto src dst
  copyTo pkt 20 pkt.length l4

/-- `segment` of the client. -/
def clientSegment (c : Outbound.TcpClient) (flags : UInt8) (payload : List UInt8) :
    Option (List UInt8) := do
  let len ← usize.add 20 payload.length
  let tcp ← writeTcp (List.replicate len 0) c.sport c.dport c.sndNxt c.rcvNxt flags payload
  let sum ← l4Checksum c.src c.dst protoTcp tcp
  let tcp ← copyTo tcp 16 18 (be16 sum)
  ipv4Packet c.src c.dst protoTcp tcp

/-- The header is written into the first twenty bytes. -/
theorem writeIpv4_eq (rest : List UInt8) (total : ℕ) (proto : UInt8) (src dst : Ip) :
    writeIpv4 (List.replicate 20 0 ++ rest) total proto src dst =
      some ([0x45, 0] ++ be16 total ++ [0, 0, 0x40, 0, 64, proto] ++
        be16 (Tcp.checksum ([0x45, 0] ++ be16 total ++ [0, 0, 0x40, 0, 64, proto] ++
          be16 0 ++ src.bytes ++ dst.bytes)) ++ src.bytes ++ dst.bytes ++ rest) := by
  -- the lengths of the head are known: it is a list of twenty bytes throughout
  refine bind_eq_of_some (setAt_append_left (show 0 < 20 by decide)) ?_
  refine bind_eq_of_some (copyTo_append_left (show 4 ≤ 20 by decide) rfl) ?_
  refine bind_eq_of_some (setAt_append_left (show 6 < 20 by decide)) ?_
  refine bind_eq_of_some (setAt_append_left (show 8 < 20 by decide)) ?_
  refine bind_eq_of_some (setAt_append_left (show 9 < 20 by decide)) ?_
  refine bind_eq_of_some (copyTo_append_left (show 16 ≤ 20 by decide) rfl) ?_
  refine bind_eq_of_some (copyTo_append_left (show 20 ≤ 20 by decide) rfl) ?_
  refine bind_eq_of_some ((slice_from_start ?_).trans (congrArg some (List.take_left' rfl))) ?_
  · rw [List.length_append]
    exact Nat.le_add_right 20 rest.length
  refine bind_eq_of_some (checksum_of_packet (show 20 < 65536 by decide)) ?_
  exact copyTo_append_left (show 12 ≤ 20 by decide) rfl

/-- The header is written into the first twenty bytes, and the payload behind it. -/
theorem writeTcp_eq {n : ℕ} (sport dport : ℕ) (seq ack : UInt32) (flags : UInt8)
    {payload : List UInt8} (hn : n = 20 + payload.length) :
    writeTcp (List.replicate n 0) sport dport seq ack flags payload =
      some (be16 sport ++ be16 dport ++ be32 seq ++ be32 ack ++ [0x50, flags] ++ be16 64240 ++
        be16 0 ++ [0, 0] ++ payload) := by
  rw [hn, List.replicate_add]
  refine bind_eq_of_some (copyTo_append_left (show 2 ≤ 20 by decide) rfl) ?_
  refine bind_eq_of_some (copyTo_append_left (show 4 ≤ 20 by decide) rfl) ?_
  refine bind_eq_of_some (copyTo_append_left (show 8 ≤ 20 by decide) rfl) ?_
  refine bind_eq_of_some (copyTo_append_left (show 12 ≤ 20 by decide) rfl) ?_
  refine bind_eq_of_some (setAt_append_left (show 12 < 20 by decide)) ?_
  refine bind_eq_of_some (setAt_append_left (show 13 < 20 by decide)) ?_
  refine bind_eq_of_some (copyTo_append_left (show 16 ≤ 20 by decide) rfl) ?_
  have hzeros : payload.length = (List.replicate payload.length (0 : UInt8)).length :=
    List.length_replicate.symm
  refine (copyTo_of_le le_rfl ?_).trans (congrArg some (splice_append_right _ hzeros))
  rw [List.length_append, ← hzeros]
  rfl

/-! ### The same on the device -/

/-- Building a packet does not overflow for the sizes that are sent. -/
theorem ipv4Packet_eq (src dst : Ip) (proto : UInt8) (l4 : List UInt8)
    (hl4 : 20 + l4.length < 2 ^ 32) :
    ipv4Packet src dst proto l4 = some (Outbound.ipv4Packet src dst proto l4) := by
  refine bind_eq_of_some (add_of_small hl4) ?_
  have hzeros : l4.length = (List.replicate l4.length (0 : UInt8)).length :=
    List.length_replicate.symm
  rw [List.replicate_add]
  refine bind_eq_of_some (writeIpv4_eq _ _ proto src dst) ?_
  refine (copyTo_of_le le_rfl ?_).trans (congrArg some (splice_append_right _ hzeros))
  rw [List.length_append, ← hzeros]
  rfl

/-- The segment without its checksum. -/
def clientTcp (c : Outbound.TcpClient) (flags : UInt8) (sum : ℕ) (payload : List UInt8) :
    List UInt8 :=
  be16 c.sport ++ be16 c.dport ++ be32 c.sndNxt ++ be32 c.rcvNxt ++ [0x50, flags] ++
    be16 64240 ++ be16 sum ++ [0, 0] ++ payload

/-- A segment of the client has a header without options. -/
theorem length_clientTcp (c : Outbound.TcpClient) (flags : UInt8) (sum : ℕ)
    (payload : List UInt8) : (clientTcp c flags sum payload).length = 20 + payload.length :=
  List.length_append

/-- **A segment of the client** is built when its sum fits in 32 bits. -/
theorem clientSegment_eq (c : Outbound.TcpClient) (flags : UInt8) {payload : List UInt8}
    (hpayload : payload.length < 2 ^ 31) :
    clientSegment c flags payload =
      if l4Sum c.src c.dst protoTcp (clientTcp c flags 0 payload) < 2 ^ 32 then
        some (c.segment flags payload)
      else none := by
  refine bind_eq_of_some (add_of_small (by omega)) ?_
  refine bind_eq_of_some (writeTcp_eq _ _ _ _ _ rfl) ?_
  have hlen := length_clientTcp c flags 0 payload
  change (l4Checksum c.src c.dst protoTcp (clientTcp c flags 0 payload) >>= fun sum =>
    copyTo (clientTcp c flags 0 payload) 16 18 (be16 sum) >>=
      ipv4Packet c.src c.dst protoTcp) = _
  rw [l4Checksum_eq _ _ _ (by omega)]
  split_ifs with hfits
  · rw [Option.bind_eq_bind, Option.bind_some]
    refine bind_eq_of_some (copyTo_append_left (show 18 ≤ 20 by decide) rfl) ?_
    exact ipv4Packet_eq _ _ _ (clientTcp c flags _ payload)
      (by rw [length_clientTcp]; omega)
  · rfl

/-- A segment of the server is built without a panic: a piece is at most 512 bytes long. -/
theorem segment_eq (c : Conn) (flags : UInt8) {payload : List UInt8}
    (hpayload : payload.length ≤ 512) : segment c flags payload = some (c.segment flags payload) := by
  obtain ⟨ip, hip⟩ : ∃ ip, ip = ipHeader c (20 + (20 + payload.length))
      (Tcp.checksum (ipHeader c (20 + (20 + payload.length)) 0)) := ⟨_, rfl⟩
  obtain ⟨tcp, htcp⟩ : ∃ tcp : ℕ → List UInt8, tcp = tcpHeader c flags := ⟨_, rfl⟩
  have hiplen : ip.length = 20 := hip ▸ rfl
  have htcplen : ∀ sum, (tcp sum).length = 20 := fun _ => htcp ▸ rfl
  have hsegment : c.segment flags payload =
      ip ++ tcp (tcpChecksum c.ourIp c.clientIp (tcp 0 ++ payload)) ++ payload := by
    rw [hip, htcp, Conn.segment, ← Nat.add_assoc]
  have hback : ∀ rest : List UInt8, slice (ip ++ rest) 20 (ip ++ rest).length = some rest := by
    intro rest
    rw [slice_to_end (by rw [List.length_append]; omega), List.drop_left' hiplen]
  refine bind_eq_of_some (add_of_small (by omega)) ?_
  refine bind_eq_of_some (add_of_small (by omega)) ?_
  rw [List.replicate_add]
  refine bind_eq_of_some ((writeIpv4_eq _ _ _ _ _).trans (show _ = some (ip ++ _) by rw [hip]; rfl)) ?_
  refine bind_eq_of_some (hback _) ?_
  refine bind_eq_of_some ((writeTcp_eq _ _ _ _ _ rfl).trans
    (show _ = some (tcp 0 ++ payload) by rw [htcp]; rfl)) ?_
  have hsplice : splice (ip ++ List.replicate (20 + payload.length) 0) 20 (tcp 0 ++ payload) =
      ip ++ (tcp 0 ++ payload) := by
    have hlen : (tcp 0 ++ payload).length = (List.replicate (20 + payload.length) (0 : UInt8)).length := by
      rw [List.length_append, htcplen, List.length_replicate]
    have h := splice_append_right ip hlen
    rwa [hiplen] at h
  dsimp only
  rw [hsplice]
  refine bind_eq_of_some (hback _) ?_
  refine bind_eq_of_some ((l4Checksum_eq _ _ _ ?_).trans (if_pos (l4Sum_lt ?_))) ?_
  · rw [List.length_append, htcplen]
    omega
  · rw [List.length_append, htcplen]
    omega
  have hhead : 38 ≤ (ip ++ tcp 0).length := by
    rw [List.length_append, hiplen, htcplen]
    omega
  rw [← List.append_assoc]
  refine (copyTo_append_left hhead rfl).trans ?_
  rw [hsegment]
  subst hip htcp
  rfl

/-! ## Requests -/

/-- `first_line`. -/
def firstLine (req : List UInt8) : Option String := do
  let stop := (req.findIdx? fun b => b = 13 || b = 10).getD req.length
  let line ← slice req 0 stop
  some (match Text.fromUtf8 line with
    | .ok s => s
    | .error _ => "")

/-- The loop of `http_body` from `i` on, with a bound on the number of rounds. -/
def httpBodyLoop (req : List UInt8) : ℕ → ℕ → Option (List UInt8)
  | 0, _ => none
  | fuel + 1, i => do
    let stop ← usize.add i 4
    if stop ≤ req.length then
      if (← slice req i stop) = [13, 10, 13, 10] then slice req stop req.length
      else httpBodyLoop req fuel (← usize.add i 1)
    else some []

/-- `http_body`. -/
def httpBody (req : List UInt8) : Option (List UInt8) := httpBodyLoop req (req.length + 1) 0

/-- The loop of `url_decode` from `i` on, with a bound on the number of rounds; the digits
are bytes. -/
def urlDecodeLoop (b : List UInt8) : ℕ → ℕ → List UInt8 → Option (List UInt8)
  | 0, _, _ => none
  | fuel + 1, i, out =>
    if i < b.length then do
      let c ← b[i]?
      let next ← usize.add i 1
      if c = 43 then urlDecodeLoop b fuel next (out ++ [32])
      else if c = 37 then
        let last ← usize.add i 2
        if last < b.length then
          match Hex.val (← b[next]?), Hex.val (← b[last]?) with
          | some h, some l => do
            let hi ← byte (h * 16)
            let value ← byte (hi.toNat + l)
            urlDecodeLoop b fuel (← usize.add i 3) (out ++ [value])
          | _, _ => urlDecodeLoop b fuel next (out ++ [37])
        else urlDecodeLoop b fuel next (out ++ [37])
      else urlDecodeLoop b fuel next (out ++ [c])
    else some out

/-- `url_decode`. -/
def urlDecode (s : String) : Option String := do
  let bytes := Text.utf8 s
  let out ← urlDecodeLoop bytes (bytes.length + 1) 0 []
  some (Text.fromUtf8Lossy out)

/-- `builtin_route`; only one of the paths reads bytes. -/
def builtinRoute (path query : String) (ourIp : Ip) : Option (List UInt8 × Option TcpAction) :=
  if path = "/text" then do
    let msg ← urlDecode (queryGet query "msg")
    some (okPage, some (.text msg))
  else some (Tcp.builtinRoute path query ourIp)

/-- The reply of the handler, which sees the body of the request. -/
def handled (handler : Option RouteFn) (method path query : String) (req : List UInt8) :
    Option (Option HttpReply) :=
  match handler with
  | some h => do some (h method path query (← httpBody req))
  | none => some none

/-- `route_request`. -/
def routeRequest (s : TcpServer) (req : List UInt8) : Option (TcpServer × HttpReply) := do
  let parts := Text.splitChar ' ' (← firstLine req)
  let method := parts.getD 0 ""
  let target := parts.getD 1 "/"
  let (path, query) := (splitOnce '?' target).getD (target, "")
  let s := { s with requests := s.requests ++ [req] }
  match ← handled s.handler method path query req with
  | some reply => some (s, reply)
  | none =>
    let (page, action) ← builtinRoute path query s.conn.ourIp
    some ({ s with action := action }, .okOwned "text/html; charset=utf-8" page)

/-! ### Every request -/

/-- What is in front of the first line break. -/
theorem firstLine_eq (req : List UInt8) : firstLine req = some (Http.firstLine req) := by
  unfold firstLine
  dsimp only
  rw [← List.findIdx_eq_getD_findIdx?]
  refine bind_eq_of_some (slice_from_start List.findIdx_le_length) ?_
  have hnot : (fun b : UInt8 => !(decide (b ≠ 13) && decide (b ≠ 10))) =
      fun b => decide (b = 13) || decide (b = 10) := by
    funext b
    simp only [ne_eq, decide_not, Bool.not_and, Bool.not_not]
  have htake : req.take (req.findIdx fun b => b = 13 || b = 10) =
      req.takeWhile fun b => b ≠ 13 && b ≠ 10 := by
    rw [List.takeWhile_eq_take_findIdx_not, hnot]
  rw [htake]
  rfl

/-- A request that is too short for a blank line has no body. -/
theorem httpBody_of_short {req : List UInt8} (h : req.length < 4) : Http.httpBody req = [] := by
  induction req with
  | nil => rfl
  | cons b bs ih =>
    have hpre : ¬ [13, 10, 13, 10].isPrefixOf (b :: bs) := by
      rw [List.isPrefixOf_iff_prefix]
      intro hpre
      have hlen := hpre.length_le
      simp only [List.length_cons, List.length_nil] at hlen h
      omega
    rw [Http.httpBody, if_neg hpre]
    exact ih (by rw [List.length_cons] at h; omega)

/-- The search for the blank line stays in the request. Induction on the fuel. -/
theorem httpBodyLoop_eq {req : List UInt8} (hreq : req.length < 2 ^ 31) :
    ∀ {fuel i : ℕ}, req.length < i + fuel → i ≤ req.length →
      httpBodyLoop req fuel i = some (Http.httpBody (req.drop i)) := by
  intro fuel
  induction fuel with
  | zero =>
    intro i hfuel hi
    omega
  | succ fuel ih =>
    intro i hfuel hi
    refine bind_eq_of_some (add_of_small (by omega)) ?_
    by_cases hstop : i + 4 ≤ req.length
    · have hcons : req.drop i = req[i] :: req.drop (i + 1) := List.drop_eq_getElem_cons (by omega)
      have hfour : [13, 10, 13, 10].isPrefixOf (req.drop i) ↔
          (req.drop i).take 4 = [13, 10, 13, 10] := by
        rw [List.isPrefixOf_iff_prefix, List.prefix_iff_eq_take]
        exact eq_comm
      rw [if_pos hstop]
      refine bind_eq_of_some (slice_of_le (by omega) hstop) ?_
      rw [Nat.add_sub_cancel_left, hcons, Http.httpBody, ← hcons]
      by_cases hsep : (req.drop i).take 4 = [13, 10, 13, 10]
      · rw [if_pos hsep, if_pos (hfour.mpr hsep), slice_to_end hstop, List.drop_drop]
      · rw [if_neg hsep, if_neg (mt hfour.mp hsep)]
        exact bind_eq_of_some (add_of_small (by omega)) (ih (by omega) (by omega))
    · rw [if_neg hstop, httpBody_of_short (by rw [List.length_drop]; omega)]

/-- So taking the body never fails. -/
theorem httpBody_eq {req : List UInt8} (hreq : req.length < 2 ^ 31) :
    httpBody req = some (Http.httpBody req) :=
  httpBodyLoop_eq hreq (by omega) (Nat.zero_le _)

/-- A digit stands for four bits. -/
theorem hexVal_lt {c : UInt8} {n : ℕ} (h : Hex.val c = some n) : n < 16 := by
  have h0 : '0'.toNat = 48 := rfl
  have h9 : '9'.toNat = 57 := rfl
  have ha : 'a'.toNat = 97 := rfl
  have hf : 'f'.toNat = 102 := rfl
  have hA : 'A'.toNat = 65 := rfl
  have hF : 'F'.toNat = 70 := rfl
  unfold Hex.val at h
  dsimp only at h
  split_ifs at h <;> · have h := Option.some_inj.mp h; omega

/-- Two digits make a byte. -/
theorem byte_digits {h l : ℕ} (hh : h < 16) (hl : l < 16) :
    byte (h * 16) = some (UInt8.ofNat (h * 16)) ∧
    byte ((UInt8.ofNat (h * 16)).toNat + l) = some (UInt8.ofNat (h * 16 + l)) := by
  have hhi : (UInt8.ofNat (h * 16)).toNat = h * 16 := by
    rw [UInt8.toNat_ofNat']
    omega
  rw [hhi]
  exact ⟨byte_of_lt (by omega), byte_of_lt (by omega)⟩

/-! ### Percent signs -/

/-- Decoding a percent sign looks at two bytes that are checked to be there. Induction on the
fuel. -/
theorem urlDecodeLoop_eq {b : List UInt8} (hb : b.length < 2 ^ 31) :
    ∀ {fuel i : ℕ} {out : List UInt8}, b.length < i + fuel → i ≤ b.length →
      urlDecodeLoop b fuel i out = some (out ++ Http.urlDecodeLoop fuel (b.drop i)) := by
  intro fuel
  induction fuel with
  | zero =>
    intro i out hfuel hi
    omega
  | succ fuel ih =>
    intro i out hfuel hi
    rw [urlDecodeLoop]
    by_cases hlt : i < b.length
    · have hcons : b.drop i = b.getD i 0 :: b.drop (i + 1) := by
        rw [List.drop_eq_getElem_cons hlt, Http.getD_eq_getElem b hlt]
      -- a byte is put out, and the loop goes on behind it
      have hnext : ∀ x : UInt8, urlDecodeLoop b fuel (i + 1) (out ++ [x]) =
          some (out ++ x :: Http.urlDecodeLoop fuel (b.drop (i + 1))) := by
        intro x
        rw [ih (by omega) hlt, List.append_assoc]
        rfl
      rw [if_pos hlt, hcons]
      refine bind_eq_of_some (get_of_lt hlt) ?_
      refine bind_eq_of_some (add_of_small (by omega)) ?_
      by_cases hplus : b.getD i 0 = 43
      · rw [if_pos hplus, hplus]
        exact hnext 32
      rw [if_neg hplus]
      by_cases hpercent : b.getD i 0 = 37
      · rw [if_pos hpercent, hpercent]
        refine bind_eq_of_some (add_of_small (by omega)) ?_
        by_cases hlast : i + 2 < b.length
        · have htwo : b.drop (i + 1) = b.getD (i + 1) 0 :: b.getD (i + 2) 0 :: b.drop (i + 3) := by
            rw [List.drop_eq_getElem_cons (by omega), List.drop_eq_getElem_cons hlast,
              Http.getD_eq_getElem b (by omega), Http.getD_eq_getElem b hlast]
          have hstep : Http.urlDecodeLoop (fuel + 1) (37 :: b.drop (i + 1)) =
              match Hex.val (b.getD (i + 1) 0), Hex.val (b.getD (i + 2) 0) with
              | some h, some l => UInt8.ofNat (h * 16 + l) :: Http.urlDecodeLoop fuel (b.drop (i + 3))
              | _, _ => 37 :: Http.urlDecodeLoop fuel (b.drop (i + 1)) := by
            rw [htwo]
            rfl
          rw [if_pos hlast, hstep]
          refine bind_eq_of_some (get_of_lt (by omega)) ?_
          refine bind_eq_of_some (get_of_lt hlast) ?_
          cases hh : Hex.val (b.getD (i + 1) 0) with
          | none => exact hnext 37
          | some h =>
            cases hl : Hex.val (b.getD (i + 2) 0) with
            | none => exact hnext 37
            | some l =>
              obtain ⟨hhi, hvalue⟩ := byte_digits (hexVal_lt hh) (hexVal_lt hl)
              refine bind_eq_of_some hhi (bind_eq_of_some hvalue ?_)
              refine bind_eq_of_some (add_of_small (by omega)) ?_
              rw [ih (by omega) (by omega), List.append_assoc]
              rfl
        · rw [if_neg hlast, hnext]
          rcases hrest : b.drop (i + 1) with _ | ⟨x, _ | ⟨y, rest⟩⟩
          · rfl
          · rfl
          · have hlen := congrArg List.length hrest
            rw [List.length_drop, List.length_cons, List.length_cons] at hlen
            omega
      · rw [if_neg hpercent, hnext, Http.urlDecodeLoop]
        · exact hplus
        · exact hpercent
    · rw [if_neg hlt, List.drop_eq_nil_of_le (by omega), Http.urlDecodeLoop, List.append_nil]

/-- Every round takes a byte. -/
theorem urlDecodeLoop_succ (fuel : ℕ) (l : List UInt8) (h : l.length ≤ fuel) :
    Http.urlDecodeLoop (fuel + 1) l = Http.urlDecodeLoop fuel l := by
  fun_induction Http.urlDecodeLoop fuel l with
  | case1 l =>
    rw [List.eq_nil_of_length_eq_zero (Nat.le_zero.mp h)]
    rfl
  | case2 fuel => rfl
  | case3 fuel bs ih =>
    rw [List.length_cons] at h
    rw [← ih (by omega)]
    rfl
  | case4 fuel a b rest va vb hb ha ih =>
    simp only [List.length_cons] at h
    rw [Http.urlDecodeLoop, ha, hb]
    exact congrArg _ (ih (by omega))
  | case5 fuel a b rest hno ih =>
    have hlen : (a :: b :: rest).length ≤ fuel := Nat.le_of_succ_le_succ h
    rw [Http.urlDecodeLoop]
    split
    · next va vb ha hb => exact (hno va vb ha hb).elim
    · exact congrArg _ (ih hlen)
  | case6 fuel bs hshort ih =>
    rw [Http.urlDecodeLoop]
    · exact congrArg _ (ih (Nat.le_of_succ_le_succ h))
    · exact hshort
  | case7 fuel b bs hplus hpercent ih =>
    rw [Http.urlDecodeLoop]
    · exact congrArg _ (ih (Nat.le_of_succ_le_succ h))
    · exact hplus
    · exact hpercent

/-- So decoding never fails. -/
theorem urlDecode_eq {s : String} (hs : (Text.utf8 s).length < 2 ^ 31) :
    urlDecode s = some (Http.urlDecode s) := by
  refine bind_eq_of_some (urlDecodeLoop_eq hs (by omega) (Nat.zero_le _)) ?_
  rw [List.drop_zero, urlDecodeLoop_succ _ _ le_rfl]
  rfl

/-! ### How long the texts are -/

/-- The bytes of a text, up to four for a character. -/
theorem length_utf8_le (s : String) : (Text.utf8 s).length ≤ 4 * s.toList.length := by
  rw [Text.utf8]
  induction s.toList with
  | nil => exact Nat.zero_le _
  | cons c cs ih =>
    have hc := Char.utf8Size_le_four c
    rw [List.flatMap_cons, List.length_append, String.length_utf8EncodeChar, List.length_cons]
    omega

/-- The valid prefix is no longer than the bytes. -/
theorem length_validPrefix_le (bs : List UInt8) :
    (Text.validPrefix bs).1.length ≤ bs.length := by
  fun_induction Text.validPrefix bs with
  | case1 bs h => exact Nat.zero_le _
  | case2 bs c rest h ih =>
    have hlt := Text.decodeChar_length h
    rw [List.length_cons]
    omega

/-- The first line is no longer than the request: it is decoded whole, or is empty. -/
theorem length_firstLine_le (req : List UInt8) :
    (Http.firstLine req).toList.length ≤ req.length := by
  unfold Http.firstLine
  obtain ⟨line, hline⟩ : ∃ line, line = req.takeWhile fun b => b ≠ 13 && b ≠ 10 := ⟨_, rfl⟩
  have hlen : line.length ≤ req.length := hline ▸ (List.takeWhile_sublist _).length_le
  rw [← hline]
  split
  · next t ht =>
    unfold Text.fromUtf8 at ht
    split at ht
    · obtain rfl := Except.ok.inj ht
      rw [String.toList_ofList]
      exact (length_validPrefix_le line).trans hlen
    · cases ht
  · exact Nat.zero_le _

/-- A piece of a text is not longer. -/
theorem length_le_of_mem_splitChar {sep : Char} {s t : String} (h : t ∈ Text.splitChar sep s) :
    t.toList.length ≤ s.toList.length := by
  obtain ⟨cs, hcs, rfl⟩ := List.mem_map.mp h
  have hmem : cs ∈ (s.toList.splitOn sep).intersperse [sep] := by
    obtain ⟨i, hi, rfl⟩ := List.mem_iff_getElem.mp hcs
    apply List.mem_of_getElem? (i := 2 * i)
    rw [List.getElem?_intersperse_two_mul, List.getElem?_eq_getElem hi]
  have hsub := (List.sublist_flatten_of_mem hmem).length_le
  rw [String.toList_ofList]
  have hjoin : ((s.toList.splitOn sep).intersperse [sep]).flatten = s.toList :=
    List.intercalate_splitOn sep
  rwa [hjoin] at hsub

/-- What is behind a separator is shorter. -/
theorem length_splitOnce_le {sep : Char} {s a b : String} (h : splitOnce sep s = some (a, b)) :
    b.toList.length ≤ s.toList.length := by
  obtain ⟨⟨before, after⟩, hcut, hpair⟩ := Option.map_eq_some_iff.mp h
  obtain ⟨-, rfl⟩ := Prod.mk.inj hpair
  have hsplit := (Split.cut_oneOf_eq_some.mp hcut).2
  rw [String.toList_ofList, hsplit, List.length_append, List.length_cons]
  omega

/-- The value of a parameter is no longer than the query. -/
theorem length_queryGet_le (query key : String) :
    (queryGet query key).toList.length ≤ query.toList.length := by
  have hlookup : ∀ kvs : List String, (∀ kv ∈ kvs, kv.toList.length ≤ query.toList.length) →
      (queryLookup key kvs).toList.length ≤ query.toList.length := by
    intro kvs
    induction kvs with
    | nil => exact fun _ => Nat.zero_le _
    | cons kv kvs ih =>
      intro hle
      have hrest := ih fun kv' hkv' => hle kv' (List.mem_cons_of_mem kv hkv')
      rw [queryLookup]
      split
      · next k v hkv =>
        split
        · exact (length_splitOnce_le hkv).trans (hle kv List.mem_cons_self)
        · exact hrest
      · exact hrest
  exact hlookup _ fun kv hkv => length_le_of_mem_splitChar hkv

/-- The query of a target is a part of the first line. -/
theorem length_query_le {req : List UInt8} {path query : String}
    (h : splitOnce '?' ((Text.splitChar ' ' (Http.firstLine req)).getD 1 "/") =
      some (path, query)) : query.toList.length ≤ max req.length 1 := by
  refine (length_splitOnce_le h).trans ?_
  rw [List.getD_eq_getElem?_getD]
  cases htarget : (Text.splitChar ' ' (Http.firstLine req))[1]? with
  | none => exact le_max_right req.length 1
  | some target =>
    have hmem := List.mem_of_getElem? htarget
    exact ((length_le_of_mem_splitChar hmem).trans (length_firstLine_le req)).trans (le_max_left _ _)

/-- The routes of the server never fail, for a query that a segment can carry. -/
theorem builtinRoute_eq (path : String) {query : String} (ourIp : Ip)
    (hquery : query.toList.length < 65536) :
    builtinRoute path query ourIp = some (Tcp.builtinRoute path query ourIp) := by
  unfold builtinRoute
  split
  · next hpath =>
    have hmsg := length_utf8_le (queryGet query "msg")
    have hle := length_queryGet_le query "msg"
    subst hpath
    exact bind_eq_of_some (urlDecode_eq (by omega)) rfl
  · rfl

/-- A byte is written with at most three digits. -/
theorem length_repr_byte (b : UInt8) : (toString b.toNat).toList.length ≤ 3 := by
  have hb := b.toNat_lt
  have h : (Nat.repr b.toNat).length ≤ 3 := (Nat.length_repr_le_iff (by decide)).mpr (by omega)
  rwa [← String.length_toList] at h

/-- The pages of the control panel are short. -/
theorem length_controlPage_lt (ip : Ip) : (controlPage ip).length < 2 ^ 32 := by
  have ha := length_repr_byte ip.a
  have hb := length_repr_byte ip.b
  have hc := length_repr_byte ip.c
  have hd := length_repr_byte ip.d
  refine (length_utf8_le _).trans_lt ?_
  simp only [String.toList_append, List.length_append,
    show ∀ s : String, toString s = s from fun _ => rfl]
  simp only [String.reduceToList, List.length_cons, List.length_nil]
  omega

/-- The page is short. -/
theorem length_okPage_lt : okPage.length < 2 ^ 32 := by
  refine (length_utf8_le _).trans_lt ?_
  simp only [String.toList_append, List.length_append]
  simp only [String.reduceToList, List.length_cons, List.length_nil]
  omega

/-- So is every answer of a route. -/
theorem length_builtinRoute_lt (path query : String) (ip : Ip) :
    (Tcp.builtinRoute path query ip).1.length < 2 ^ 32 := by
  unfold Tcp.builtinRoute
  split_ifs
  iterate 7
    · dsimp only
      exact length_okPage_lt
  · dsimp only
    exact length_controlPage_lt ip

/-! ### Routing -/

/-- The application is called with the body of the request. -/
theorem handled_eq (handler : Option RouteFn) (method path query : String) {req : List UInt8}
    (hreq : req.length < 2 ^ 31) : handled handler method path query req =
      some (handler.bind fun h => h method path query (Http.httpBody req)) := by
  cases handler with
  | none => rfl
  | some h => exact bind_eq_of_some (httpBody_eq hreq) rfl

/-- **Routing never fails** for a request that a segment can carry. -/
theorem routeRequest_eq (s : TcpServer) {req : List UInt8} (hreq : req.length < 65536) :
    routeRequest s req = some (s.routeRequest req) := by
  obtain ⟨method, hmethod⟩ : ∃ method,
    method = (Text.splitChar ' ' (Http.firstLine req)).getD 0 "" := ⟨_, rfl⟩
  obtain ⟨target, htarget⟩ : ∃ target,
    target = (Text.splitChar ' ' (Http.firstLine req)).getD 1 "/" := ⟨_, rfl⟩
  obtain ⟨path, query, hsplit, hquery⟩ : ∃ path query,
      (splitOnce '?' target).getD (target, "") = (path, query) ∧ query.toList.length < 65536 := by
    cases hcut : splitOnce '?' target with
    | none => exact ⟨target, "", rfl, by decide⟩
    | some pq =>
      have hle := length_query_le (htarget ▸ hcut)
      exact ⟨pq.1, pq.2, rfl, by omega⟩
  have hrequest : requestTarget req = (method, path, query) := by
    unfold requestTarget
    dsimp only
    rw [← hmethod, ← htarget]
    split
    · next p q hpq =>
      rw [hpq, Option.getD_some] at hsplit
      rw [hsplit]
    · next hnone =>
      rw [hnone, Option.getD_none] at hsplit
      rw [← hsplit]
  refine bind_eq_of_some (firstLine_eq req) ?_
  dsimp only
  rw [← hmethod, ← htarget, hsplit, TcpServer.routeRequest, hrequest]
  dsimp only
  refine bind_eq_of_some (handled_eq s.handler method path query (by omega)) ?_
  cases s.handler.bind fun h => h method path query (Http.httpBody req) with
  | some reply => rfl
  | none => exact bind_eq_of_some (builtinRoute_eq path _ hquery) rfl

/-! ## Responses -/

/-- The bounds of one range in `parse_range`; nothing when they cannot be satisfied. -/
def rangeBounds (spec : String) (total : ℕ) : Option (Option (ℕ × ℕ)) :=
  match splitOnce '-' spec with
  | none => some none
  | some (start, stop) =>
    if start = "" then
      match parseUsize (Text.trim stop) with
      | none => some none
      | some n =>
        if 0 < n then do
          let a ← sub total (min n total)
          let b ← sub total 1
          some (some (a, b))
        else some none
    else if stop = "" then
      match parseUsize (Text.trim start) with
      | none => some none
      | some a =>
        if total ≤ a then some none
        else do
          let b ← sub total 1
          some (some (a, b))
    else
      match parseUsize (Text.trim start), parseUsize (Text.trim stop) with
      | some a, some b =>
        if total ≤ a ∨ b < a then some none
        else do
          let last ← sub total 1
          some (some (a, min b last))
      | _, _ => some none

/-- `parse_range`. -/
def parseRange (req : List UInt8) (total : ℕ) : Option (Except Unit (Option (ℕ × ℕ))) :=
  match Text.fromUtf8 req with
  | .error _ => some (.ok none)
  | .ok text =>
    let lines := (Split.pieces (Split.str "\r\n".toList) text.toList).map String.ofList
    match rangeSpec lines with
    | none => some (.ok none)
    | some spec =>
      if total = 0 then some (.error ())
      else do
        let first := Text.trim ((Text.splitChar ',' spec).headD "")
        match ← rangeBounds first total with
        | some bounds => some (.ok (some bounds))
        | none => some (.error ())

/-- `render_headers`; its only sum is the last offset of a range. -/
def renderHeaders (status : ℕ) (contentType : String) (bodyBase contentLen total : ℕ)
    (cacheControl : Option String) : Option (List UInt8) :=
  let headers := Http.renderHeaders status contentType bodyBase contentLen total cacheControl
  if status = 206 then do
    let _ ← sub (← usize.add bodyBase contentLen) 1
    some headers
  else some headers

/-- Status, offset and length of the content in `build_response`. -/
def chooseSlice (status : ℕ) (req : List UInt8) (total : ℕ) : Option (ℕ × ℕ × ℕ) := do
  match ← parseRange req total with
  | .ok none => some (status, 0, total)
  | .ok (some (a, b)) =>
    let len ← usize.add (← sub b a) 1
    some (206, a, len)
  | .error () => some (416, 0, 0)

/-- The `RespState` of `build_response`; its type asks for a slice inside the body. -/
def stageResponse (reply : HttpReply) (req : List UInt8) : Option RespState := do
  let total := reply.source.totalLen
  let (status, base, len) ← chooseSlice reply.status req total
  let headers ← renderHeaders status reply.contentType base len total reply.cacheControl
  let totalLen ← usize.add headers.length len
  if hle : base + (totalLen - headers.length) ≤ reply.source.totalLen then
    some ⟨headers, headers.length, reply.source, base, totalLen, false, rfl, hle⟩
  else none

/-- `build_response`. -/
def buildResponse (s : TcpServer) (req : List UInt8) : Option TcpServer := do
  let (s, reply) ← routeRequest s req
  let resp ← stageResponse reply req
  some { s with conn := { s.conn with resp := some resp } }

/-! ### Every reply -/

/-- The bounds of a range are computed without underflow, because the total is positive. -/
theorem rangeBounds_eq (spec : String) {total : ℕ} (htotal : 0 < total) :
    rangeBounds spec total = some (Http.rangeBounds spec total) := by
  unfold rangeBounds Http.rangeBounds
  cases splitOnce '-' spec with
  | none => rfl
  | some bounds =>
    obtain ⟨start, stop⟩ := bounds
    dsimp only
    by_cases hstart : start = ""
    · rw [if_pos hstart, if_pos hstart]
      cases parseUsize (Text.trim stop) with
      | none => rfl
      | some n =>
        dsimp only [Option.bind_eq_bind, Option.bind_some]
        by_cases hn : 0 < n
        · rw [if_pos hn, if_pos hn]
          refine bind_eq_of_some (sub_of_le (min_le_right n total)) ?_
          exact bind_eq_of_some (sub_of_le htotal) rfl
        · rw [if_neg hn, if_neg hn]
    rw [if_neg hstart, if_neg hstart]
    by_cases hstop : stop = ""
    · rw [if_pos hstop, if_pos hstop]
      cases parseUsize (Text.trim start) with
      | none => rfl
      | some a =>
        dsimp only [Option.bind_eq_bind, Option.bind_some]
        by_cases ha : total ≤ a
        · rw [if_pos ha, if_pos ha]
        · rw [if_neg ha, if_neg ha]
          exact bind_eq_of_some (sub_of_le htotal) rfl
    rw [if_neg hstop, if_neg hstop]
    cases parseUsize (Text.trim start) with
    | none => rfl
    | some a =>
      cases parseUsize (Text.trim stop) with
      | none => rfl
      | some b =>
        dsimp only [Option.bind_eq_bind, Option.bind_some]
        by_cases hab : total ≤ a ∨ b < a
        · rw [if_pos hab, if_pos hab]
        · rw [if_neg hab, if_neg hab]
          exact bind_eq_of_some (sub_of_le htotal) rfl

/-- So a Range header is read without a panic. -/
theorem parseRange_eq (req : List UInt8) (total : ℕ) :
    parseRange req total = some (Http.parseRange req total) := by
  unfold parseRange Http.parseRange
  cases Text.fromUtf8 req with
  | error n => rfl
  | ok text =>
    dsimp only
    cases rangeSpec ((Split.pieces (Split.str "\r\n".toList) text.toList).map String.ofList) with
    | none => rfl
    | some spec =>
      dsimp only
      by_cases htotal : total = 0
      · rw [if_pos htotal, if_pos htotal]
      rw [if_neg htotal, if_neg htotal]
      refine bind_eq_of_some (rangeBounds_eq _ (Nat.pos_of_ne_zero htotal)) ?_
      cases Http.rangeBounds (Text.trim ((Text.splitChar ',' spec).headD "")) total <;> rfl

/-- And a slice of the response is chosen without one. -/
theorem chooseSlice_eq (status : ℕ) (req : List UInt8) {total : ℕ} (htotal : total < 2 ^ 32) :
    chooseSlice status req total =
      some ((Http.chooseSlice status req total).status, (Http.chooseSlice status req total).base,
        (Http.chooseSlice status req total).len) := by
  refine bind_eq_of_some (parseRange_eq req total) ?_
  rcases Http.chooseSlice_cases status req total with
    ⟨hparse, hslice⟩ | ⟨a, b, hle, hparse, hslice⟩ | ⟨hparse, hslice⟩
  · rw [hparse, hslice]
  · rw [hparse, hslice]
    have hab := (parseRange_spec hparse).1
    refine bind_eq_of_some (sub_of_le hab) ?_
    exact bind_eq_of_some (add_of_small (by omega)) rfl
  · rw [hparse, hslice]

/-- A reply whose headers and content have less than `2 ^ 32` bytes, and not an empty one
that the handler calls partial. -/
structure Fits (reply : HttpReply) (req : List UInt8) : Prop where
  total_lt : (Http.stageResponse reply req).totalLen < 2 ^ 32
  partial_pos : (Http.chooseSlice reply.status req reply.source.totalLen).status = 206 →
    0 < (Http.chooseSlice reply.status req reply.source.totalLen).len

instance (reply : HttpReply) (req : List UInt8) : Decidable (Fits reply req) :=
  decidable_of_iff
    ((Http.stageResponse reply req).totalLen < 2 ^ 32 ∧
      ((Http.chooseSlice reply.status req reply.source.totalLen).status = 206 →
        0 < (Http.chooseSlice reply.status req reply.source.totalLen).len))
    ⟨fun h => ⟨h.1, h.2⟩, fun h => ⟨h.total_lt, h.partial_pos⟩⟩

/-- The last offset of a range of no bytes is below zero. -/
theorem renderHeaders_eq {status base len : ℕ} (contentType : String) (total : ℕ)
    (cacheControl : Option String) (hrange : base + len < 2 ^ 32) :
    renderHeaders status contentType base len total cacheControl =
      if status = 206 ∧ base + len = 0 then none
      else some (Http.renderHeaders status contentType base len total cacheControl) := by
  unfold renderHeaders
  by_cases hpart : status = 206
  · rw [if_pos hpart, add_of_small hrange]
    dsimp only [Option.bind_eq_bind, Option.bind_some]
    by_cases hempty : base + len = 0
    · rw [if_pos ⟨hpart, hempty⟩, sub, if_neg (by omega)]
      rfl
    · rw [if_neg fun h => hempty h.2, sub_of_le (by omega)]
      rfl
  · rw [if_neg hpart, if_neg fun h => hpart h.1]

/-- A slice of no bytes that is called partial is at the start. -/
theorem base_of_partial (status : ℕ) (req : List UInt8) (total : ℕ)
    (hpart : (Http.chooseSlice status req total).status = 206) :
    (Http.chooseSlice status req total).base + (Http.chooseSlice status req total).len = 0 ↔
      ¬ 0 < (Http.chooseSlice status req total).len := by
  rcases Http.chooseSlice_cases status req total with
    ⟨-, hslice⟩ | ⟨a, b, hle, -, hslice⟩ | ⟨-, hslice⟩
  · rw [hslice]
    dsimp only
    omega
  · rw [hslice]
    dsimp only
    omega
  · rw [hslice] at hpart
    exact absurd (show 416 = 206 from hpart) (by decide)

/-! ### The whole response -/

/-- **A response is staged exactly if it fits.** -/
theorem stageResponse_eq (reply : HttpReply) (req : List UInt8)
    (hsource : reply.source.totalLen < 2 ^ 32) :
    stageResponse reply req =
      if Fits reply req then some (Http.stageResponse reply req) else none := by
  obtain ⟨slice, hslice⟩ : ∃ slice,
    slice = Http.chooseSlice reply.status req reply.source.totalLen := ⟨_, rfl⟩
  obtain ⟨headers, hheaders⟩ : ∃ headers, headers = Http.renderHeaders slice.status
    reply.contentType slice.base slice.len reply.source.totalLen reply.cacheControl := ⟨_, rfl⟩
  have hle := slice.le
  have hpart := base_of_partial reply.status req reply.source.totalLen
  rw [← hslice] at hpart
  have htotal : (Http.stageResponse reply req).totalLen = headers.length + slice.len := by
    rw [hheaders, hslice, Http.stageResponse]
  refine bind_eq_of_some (chooseSlice_eq reply.status req hsource) ?_
  rw [← hslice]
  dsimp only
  rw [renderHeaders_eq _ _ _ (by omega), ← hheaders]
  -- a part of nothing: its last position would underflow
  by_cases hempty : slice.status = 206 ∧ slice.base + slice.len = 0
  · have hnot : ¬ Fits reply req := by
      intro h
      have hpos := h.partial_pos
      rw [← hslice] at hpos
      exact (hpart hempty.1).mp hempty.2 (hpos hempty.1)
    rw [if_pos hempty, if_neg hnot]
    rfl
  rw [if_neg hempty]
  -- the sum of the lengths
  by_cases hfits : headers.length + slice.len < 2 ^ 32
  · have hyes : Fits reply req := by
      refine ⟨htotal ▸ hfits, fun h => ?_⟩
      rw [← hslice] at h ⊢
      by_contra hpos
      exact hempty ⟨h, (hpart h).mpr hpos⟩
    rw [if_pos hyes]
    dsimp only [Option.bind_eq_bind, Option.bind_some]
    rw [add_of_small hfits, Option.bind_some, dif_pos (by omega)]
    unfold Http.stageResponse
    dsimp only
    simp only [← hslice, ← hheaders]
  · have hnot : ¬ Fits reply req := fun h => hfits (htotal ▸ h.total_lt)
    have hnone : usize.add headers.length slice.len = none := Machine.add_eq_none rfl hfits
    rw [if_neg hnot]
    dsimp only [Option.bind_eq_bind, Option.bind_some]
    rw [hnone]
    rfl

/-- **Building a response fails exactly when it does not fit** the counters of the device. -/
theorem buildResponse_eq (s : TcpServer) {req : List UInt8} (hreq : req.length < 65536)
    (hsource : (s.routeRequest req).2.source.totalLen < 2 ^ 32) :
    buildResponse s req =
      if Fits (s.routeRequest req).2 req then some (s.buildResponse req) else none := by
  obtain ⟨⟨routed, reply⟩, hrouted⟩ : ∃ routed, routed = s.routeRequest req := ⟨_, rfl⟩
  rw [← hrouted] at hsource ⊢
  rw [buildResponse, routeRequest_eq s hreq, TcpServer.buildResponse, ← hrouted]
  dsimp only [Option.bind_eq_bind, Option.bind_some]
  rw [stageResponse_eq reply req hsource]
  by_cases hfits : Fits reply req
  · rw [if_pos hfits, if_pos hfits, Option.bind_some]
  · rw [if_neg hfits, if_neg hfits, Option.bind_none]

end Inbound
