/-
# Reading packets with checked accesses

The parsers of packets that come in, with every index, every slice and every sum as the
source has it: an access out of bounds and a sum that overflows panic.  Here are the headers
that the TCP server and the TCP client read, the checksums and the echo replies, the UDP
payload, the STUN response and the status of an HTTP/2 response.

Each of them ends with the value of the unchecked function on every byte string
(`parsePacket_eq`, `owns_eq`, `echoReplyAny_eq`, `udpPayloadToPort_eq`, `parseResponse_eq`,
`decodeStatus_eq`).  The sums of a checksum are in 32 bits; they hold the words of 128 kB
(`checksumFrom_eq`).
-/
import PySpell.Checksums
import PySpell.DataPlane
import PySpell.H2
import PySpell.Stun
import PySpell.Lib.CheckedBytes

open Tcp Checked Checksums

namespace Inbound

/-- `usize` of the device, with overflow checks. -/
def usize : Machine := ⟨32, true, Machine.le_width_32⟩

/-- A slice of bytes; none has more than `isize::MAX` of them. -/
abbrev Buf := { l : List UInt8 // l.length < 2 ^ 31 }

/-! ## TCP headers -/

/-- `copy_from_slice` into a `[u8; 4]`. -/
def ipOf : List UInt8 → Option Ip
  | [a, b, c, d] => some ⟨a, b, c, d⟩
  | _ => none

/-- The headers that `process` reads. -/
def parsePacket (inner : List UInt8) : Option (Option Packet) :=
  if inner.length < 20 then some none
  else do
    let b0 ← inner[0]?
    if b0.toNat / 16 ≠ 4 then some none
    else
      let proto ← inner[9]?
      if proto ≠ protoTcp then some none
      else
        let ihl ← usize.mul (b0.toNat % 16) 4
        let total ← u16From inner 2 3
        let least ← usize.add ihl 20
        if ihl < 20 ∨ total < least ∨ inner.length < total then some none
        else
          let srcIp ← ipOf (← slice inner 12 16)
          let dstIp ← ipOf (← slice inner 16 20)
          let tcp ← slice inner ihl total
          let sport ← u16From tcp 0 1
          let dport ← u16From tcp 2 3
          let seq ← u32From tcp 4
          let ack ← u32From tcp 8
          let b12 ← tcp[12]?
          let dataOff ← usize.mul (b12.toNat / 16) 4
          let flags ← tcp[13]?
          let win ← u16From tcp 14 15
          if dataOff < 20 ∨ tcp.length < dataOff then some none
          else
            let payload ← slice tcp dataOff tcp.length
            some (some ⟨srcIp, dstIp, sport, dport, seq, ack, flags, win, payload⟩)

/-- `TcpClient::owns`. -/
def owns (c : Outbound.TcpClient) (inner : List UInt8) : Option Bool :=
  if inner.length < 20 then some false
  else do
    let b0 ← inner[0]?
    if b0.toNat / 16 ≠ 4 then some false
    else
      let proto ← inner[9]?
      if proto ≠ protoTcp then some false
      else
        let ihl ← usize.mul (b0.toNat % 16) 4
        let least ← usize.add ihl 4
        if inner.length < least then some false
        else
          let dport ← u16From inner (← usize.add ihl 2) (← usize.add ihl 3)
          some (dport = c.sport)

/-! ## Checksums -/

/-- The loop of `sum16`, with a bound on the number of rounds. -/
def sum16Loop (data : List UInt8) : ℕ → ℕ → ℕ → Option ℕ
  | 0, _, _ => none
  | fuel + 1, i, sum => do
    let next ← usize.add i 1
    if next < data.length then
      let word ← u16From data i next
      let sum ← u32.add sum word
      sum16Loop data fuel (← usize.add i 2) sum
    else if i < data.length then
      let b ← data[i]?
      u32.add sum (b.toNat * 256)
    else some sum

/-- `sum16`. -/
def sum16 (data : List UInt8) (sum : ℕ) : Option ℕ := sum16Loop data (data.length + 1) 0 sum

/-- `finish`; no loop takes more rounds than its sum. -/
def finish (sum : ℕ) : Option ℕ := do
  let sum ← foldCarriesU32 sum sum
  some (0xffff - sum)

/-- `finish(sum16(data, sum))`. -/
def checksumFrom (data : List UInt8) (sum : ℕ) : Option ℕ := do finish (← sum16 data sum)

/-- `checksum`. -/
def checksum (data : List UInt8) : Option ℕ := checksumFrom data 0

/-- `l4_checksum`, and `tcp_checksum` with its protocol. -/
def l4Checksum (src dst : Ip) (proto : UInt8) (l4 : List UInt8) : Option ℕ := do
  let ph := List.replicate 12 0
  let ph ← copyTo ph 0 4 src.bytes
  let ph ← copyTo ph 4 8 dst.bytes
  let ph ← setAt ph 9 proto
  let ph ← copyTo ph 10 12 (be16 l4.length)
  checksumFrom l4 (← sum16 ph 0)

/-! ## Echo replies -/

/-- The source and the destination, of `n` bytes each, change places. -/
def swapAddrs (pkt : List UInt8) (src dst n : ℕ) : Option (List UInt8) := do
  let s ← copyFromSlice (List.replicate n 0) (← slice pkt src (src + n))
  let d ← copyFromSlice (List.replicate n 0) (← slice pkt dst (dst + n))
  let pkt ← copyTo pkt src (src + n) d
  copyTo pkt dst (dst + n) s

/-- `echo_reply`. -/
def echoReply (inner : List UInt8) : Option (Option (List UInt8)) :=
  if inner.length < 20 then some none
  else do
    let b0 ← inner[0]?
    if b0.toNat / 16 ≠ 4 then some none
    else
      let ihl ← usize.mul (b0.toNat % 16) 4
      let totalLen ← u16From inner 2 3
      if ihl < 20 ∨ totalLen < ihl ∨ inner.length < totalLen then some none
      else
        let proto ← inner[9]?
        if proto ≠ Icmp.protoIcmp then some none
        else
          let icmp ← slice inner ihl totalLen
          if icmp.length < 8 then some none
          else
            let type ← icmp[0]?
            if type ≠ Icmp.icmpEchoRequest then some none
            else
              let pkt ← slice inner 0 totalLen
              let pkt ← swapAddrs pkt 12 16 4
              let pkt ← setAt pkt ihl Icmp.icmpEchoReply
              let hi ← usize.add ihl 2
              let lo ← usize.add ihl 3
              let pkt ← setAt pkt hi 0
              let pkt ← setAt pkt lo 0
              let csum ← checksum (← slice pkt ihl totalLen)
              let pkt ← copyTo pkt hi (← usize.add ihl 4) (be16 csum)
              let pkt ← setAt pkt 10 0
              let pkt ← setAt pkt 11 0
              let ipsum ← checksum (← slice pkt 0 ihl)
              let pkt ← copyTo pkt 10 12 (be16 ipsum)
              some (some pkt)

/-- `icmpv6_checksum`. -/
def icmpv6Checksum (src dst msg : List UInt8) : Option ℕ := do
  let sum ← sum16 src 0
  let sum ← sum16 dst sum
  let len := msg.length
  let sum ← u32.add sum (len / 65536 % 65536)
  let sum ← u32.add sum (len % 65536)
  let sum ← u32.add sum Icmp.nextHdrIcmpv6.toNat
  checksumFrom msg sum

/-- `echo_reply_v6`. -/
def echoReplyV6 (inner : List UInt8) : Option (Option (List UInt8)) :=
  if inner.length < 40 then some none
  else do
    let b0 ← inner[0]?
    if b0.toNat / 16 ≠ 6 then some none
    else
      let next ← inner[6]?
      if next ≠ Icmp.nextHdrIcmpv6 then some none
      else
        let payloadLen ← u16From inner 4 5
        let total ← usize.add 40 payloadLen
        if payloadLen < 8 ∨ inner.length < total then some none
        else
          let type ← inner[40]?
          if type ≠ Icmp.icmpv6EchoRequest then some none
          else
            let pkt ← slice inner 0 total
            let pkt ← swapAddrs pkt 8 24 16
            let pkt ← setAt pkt 40 Icmp.icmpv6EchoReply
            let pkt ← setAt pkt 42 0
            let pkt ← setAt pkt 43 0
            let nsrc ← copyFromSlice (List.replicate 16 0) (← slice pkt 8 24)
            let ndst ← copyFromSlice (List.replicate 16 0) (← slice pkt 24 40)
            let csum ← icmpv6Checksum nsrc ndst (← slice pkt 40 total)
            let pkt ← copyTo pkt 42 44 (be16 csum)
            some (some pkt)

/-- `echo_reply_any`. -/
def echoReplyAny (inner : List UInt8) : Option (Option (List UInt8)) :=
  match inner.head?.map (·.toNat / 16) with
  | some 4 => echoReply inner
  | some 6 => echoReplyV6 inner
  | _ => some none

/-! ## UDP -/

/-- `udp_payload_to_port`. -/
def udpPayloadToPort (inner : List UInt8) (port : ℕ) : Option (Option (List UInt8)) :=
  if inner.length < 20 then some none
  else do
    let b0 ← inner[0]?
    if b0.toNat / 16 ≠ 4 then some none
    else
      let proto ← inner[9]?
      if proto ≠ Outbound.protoUdp then some none
      else
        let ihl ← usize.mul (b0.toNat % 16) 4
        let total ← u16From inner 2 3
        let least ← usize.add ihl 8
        if total < least ∨ inner.length < total then some none
        else
          let udp ← slice inner ihl total
          if (← u16From udp 2 3) ≠ port then some none
          else
            let payload ← slice udp 8 udp.length
            some (some payload)

/-! ## STUN -/

/-- The loop over the attributes from `i` on, with a bound on the number of rounds. -/
def attrLoop (buf : List UInt8) (stop : ℕ) : ℕ → ℕ → Outcome Stun.StunError Stun.SocketAddrV4
  | 0, _ => .outOfFuel
  | fuel + 1, i => do
    let valStart ← .unwrap (usize.add i 4)
    if valStart ≤ stop then
      let atype ← Stun.u16Of buf i
      let alen ← Stun.u16Of buf (i + 2)
      let valEnd ← .unwrap (usize.add valStart alen)
      if stop < valEnd then .err .noMappedAddress
      else
        let val ← .unwrap (Checked.slice buf valStart valEnd)
        match ← Stun.attrAddress atype val with
        | some addr => .ok addr
        | none => do
          let pad ← .unwrap (sub 4 (alen % 4))
          attrLoop buf stop fuel (← .unwrap (usize.add valEnd (pad % 4)))
    else .err .noMappedAddress

/-- `parse_response`. -/
def parseResponse (buf : List UInt8) (txid : Bytes 12) :
    Outcome Stun.StunError Stun.SocketAddrV4 :=
  if buf.length < 20 then .err (.tooShort buf.length)
  else do
    let msgType ← Stun.u16Of buf 0
    if msgType ≠ Stun.bindingResponse then .err (.notBindingResponse msgType)
    else
      let cookie ← Stun.u32Of buf 4
      if cookie ≠ Stun.magicCookie.toNat then .err (.badCookie cookie)
      else
        let id ← .unwrap (Checked.slice buf 8 20)
        if id ≠ txid.1 then .err .txidMismatch
        else
          let msgLen ← Stun.u16Of buf 2
          let stop := min (← .unwrap (usize.add 20 msgLen)) buf.length
          attrLoop buf stop (buf.length + 1) 20

/-! ## The status of a response -/

/-- A string of a block at `i`, with its length in front, and where it ends; nothing when the
block ends before it does. -/
def literal (block : List UInt8) (i : ℕ) : Option (Option (List UInt8 × ℕ)) :=
  if block.length ≤ i then some none
  else do
    let b ← block[i]?
    let len := (b &&& 0x7f).toNat
    let i ← usize.add i 1
    let stop ← usize.add i len
    if block.length < stop then some none
    else
      let s ← slice block i stop
      some (some (s, stop))

/-- The loop of `decode_status` from `i` on, with a bound on the number of rounds. -/
def decodeStatusLoop (block : List UInt8) : ℕ → ℕ → Option (Option ℕ)
  | 0, _ => none
  | fuel + 1, i =>
    if i < block.length then do
      let b ← block[i]?
      let next ← usize.add i 1
      if b &&& 0x80 ≠ 0 then
        if b &&& 0x7f = 8 then some (some 200) else decodeStatusLoop block fuel next
      else if b &&& 0xf0 = 0 then
        match ← literal block next with
        | none => some none
        | some (name, i) =>
          match ← literal block i with
          | none => some none
          | some (val, i) =>
            if name = Text.utf8 ":status" then
              match Text.fromUtf8 val with
              | .ok s => some (Text.parseUnsigned 16 s)
              | .error _ => some none
            else decodeStatusLoop block fuel i
      else some none
    else some none

/-- `decode_status`. -/
def decodeStatus (block : List UInt8) : Option (Option ℕ) :=
  decodeStatusLoop block (block.length + 1) 0


/-! ## TCP headers on every byte string -/

/-- Two bytes in the packet are read without a panic. -/
theorem u16From_eq {l : List UInt8} {i : ℕ} (h : i + 2 ≤ l.length) :
    u16From l i (i + 1) = some (u16At l i) := u16From_of_lt (by omega) (by omega)

/-- So are four. -/
theorem u32From_eq {l : List UInt8} {i : ℕ} (h : i + 4 ≤ l.length) :
    u32From l i = some (u32At l i) :=
  bind_eq_of_some (u16From_eq (by omega))
    (bind_eq_of_some (u16From_eq (i := i + 2) (by omega)) rfl)

/-- The length in the first byte, in words of four bytes. -/
theorem mul_four {n : ℕ} (h : n < 16) : usize.mul n 4 = some (n * 4) :=
  Machine.mul_of_lt (show _ < 2 ^ 32 by omega)

/-- Small sums do not wrap on the device. -/
theorem add_of_small {a b : ℕ} (h : a + b < 2 ^ 32) : usize.add a b = some (a + b) :=
  Machine.add_of_lt h

/-- An address is four bytes of the packet. -/
theorem ipOf_slice {l : List UInt8} {i : ℕ} (h : i + 4 ≤ l.length) :
    ipOf ((l.drop i).take 4) = some (ipAt l i) := by
  obtain ⟨a, b, c, d, hl⟩ : ∃ a b c d, (l.drop i).take 4 = [a, b, c, d] := by
    apply List.length_eq_four.mp
    rw [List.length_take, List.length_drop]
    omega
  have hget : ∀ j < 4, l.getD (i + j) 0 = ((l.drop i).take 4).getD j 0 := by
    intro j hj
    rw [List.getD_eq_getElem?_getD, List.getD_eq_getElem?_getD, List.getElem?_take_of_lt hj,
      List.getElem?_drop]
  have h0 := hget 0 (by omega)
  have h1 := hget 1 (by omega)
  have h2 := hget 2 (by omega)
  have h3 := hget 3 (by omega)
  rw [Nat.add_zero] at h0
  rw [ipAt, h0, h1, h2, h3, hl]
  rfl

/-- **Parsing never fails**: each read stands behind the check of the length that it needs. -/
theorem parsePacket_eq (inner : List UInt8) : parsePacket inner = some (Tcp.parsePacket inner) := by
  unfold parsePacket Tcp.parsePacket
  -- the checks of the header, before what they cover is read
  by_cases hlen : inner.length < 20
  · rw [if_pos hlen, if_pos (.inl hlen)]
  rw [if_neg hlen]
  refine bind_eq_of_some (get_of_lt (by omega)) ?_
  by_cases hversion : (inner.getD 0 0).toNat / 16 ≠ 4
  · rw [if_pos hversion, if_pos (.inr (.inl hversion))]
  rw [if_neg hversion]
  refine bind_eq_of_some (get_of_lt (by omega)) ?_
  by_cases hproto : inner.getD 9 0 ≠ protoTcp
  · rw [if_pos hproto, if_pos (.inr (.inr hproto))]
  rw [if_neg hproto, if_neg (by simp only [hlen, hversion, hproto, or_self, not_false_eq_true])]
  have hb0 := (inner.getD 0 0).toNat_lt
  refine bind_eq_of_some (mul_four (by omega)) ?_
  refine bind_eq_of_some (u16From_eq (by omega)) ?_
  have htotal := u16At_lt inner 2
  refine bind_eq_of_some (add_of_small (by omega)) ?_
  -- the lengths that the header states
  by_cases hbounds : (inner.getD 0 0).toNat % 16 * 4 < 20 ∨
      u16At inner 2 < (inner.getD 0 0).toNat % 16 * 4 + 20 ∨ inner.length < u16At inner 2
  · rw [if_pos hbounds, if_pos hbounds]
  rw [if_neg hbounds, if_neg hbounds]
  refine bind_eq_of_some (slice_of_le (by omega) (by omega)) ?_
  refine bind_eq_of_some (ipOf_slice (by omega)) ?_
  refine bind_eq_of_some (slice_of_le (by omega) (by omega)) ?_
  refine bind_eq_of_some (ipOf_slice (by omega)) ?_
  refine bind_eq_of_some (slice_of_le (by omega) (by omega)) ?_
  rw [← List.drop_take]
  obtain ⟨tcp, htcp⟩ : ∃ tcp, tcp = (inner.take (u16At inner 2)).drop
      ((inner.getD 0 0).toNat % 16 * 4) := ⟨_, rfl⟩
  have htcplen : 20 ≤ tcp.length := by
    rw [htcp, List.length_drop, List.length_take]
    omega
  rw [← htcp]
  refine bind_eq_of_some (u16From_eq (by omega)) ?_
  refine bind_eq_of_some (u16From_eq (by omega)) ?_
  refine bind_eq_of_some (u32From_eq (by omega)) ?_
  refine bind_eq_of_some (u32From_eq (by omega)) ?_
  refine bind_eq_of_some (get_of_lt (by omega)) ?_
  have hb12 := (tcp.getD 12 0).toNat_lt
  refine bind_eq_of_some (mul_four (by omega)) ?_
  refine bind_eq_of_some (get_of_lt (by omega)) ?_
  refine bind_eq_of_some (u16From_eq (by omega)) ?_
  -- the length that the TCP header states
  by_cases hoff : (tcp.getD 12 0).toNat / 16 * 4 < 20 ∨
      tcp.length < (tcp.getD 12 0).toNat / 16 * 4
  · rw [if_pos hoff, if_pos hoff]
  rw [if_neg hoff, if_neg hoff]
  exact bind_eq_of_some (slice_to_end (by omega)) rfl

/-- Asking whether a packet is the client's never fails. -/
theorem owns_eq (c : Outbound.TcpClient) (inner : List UInt8) :
    owns c inner = some (c.owns inner) := by
  unfold owns Outbound.TcpClient.owns
  by_cases hlen : inner.length < 20
  · rw [if_pos hlen, if_pos (.inl hlen)]
  rw [if_neg hlen]
  refine bind_eq_of_some (get_of_lt (by omega)) ?_
  by_cases hversion : (inner.getD 0 0).toNat / 16 ≠ 4
  · rw [if_pos hversion, if_pos (.inr (.inl hversion))]
  rw [if_neg hversion]
  refine bind_eq_of_some (get_of_lt (by omega)) ?_
  by_cases hproto : inner.getD 9 0 ≠ protoTcp
  · rw [if_pos hproto, if_pos (.inr (.inr hproto))]
  rw [if_neg hproto, if_neg (by simp only [hlen, hversion, hproto, or_self, not_false_eq_true])]
  have hb0 := (inner.getD 0 0).toNat_lt
  refine bind_eq_of_some (mul_four (by omega)) ?_
  refine bind_eq_of_some (add_of_small (by omega)) ?_
  dsimp only
  -- the header length may be any multiple of four here
  by_cases hleast : inner.length < (inner.getD 0 0).toNat % 16 * 4 + 4
  · rw [if_pos hleast, decide_eq_false (by omega), Bool.false_and]
  rw [if_neg hleast, decide_eq_true (by omega), Bool.true_and]
  refine bind_eq_of_some (add_of_small (by omega)) ?_
  refine bind_eq_of_some (add_of_small (by omega)) ?_
  exact bind_eq_of_some (u16From_eq (i := (inner.getD 0 0).toNat % 16 * 4 + 2) (by omega)) rfl

/-! ## Checksums on every byte string -/

/-- The words of the rest of the data. -/
theorem sum16Loop_eq {data : List UInt8} (hdata : data.length < 2 ^ 32 - 2) :
    ∀ {fuel i sum : ℕ}, data.length < i + fuel → i ≤ data.length →
      sum16Loop data fuel i sum = sum16U32 (data.drop i) sum := by
  intro fuel
  induction fuel with
  | zero =>
    intro i sum hfuel hi
    omega
  | succ fuel ih =>
    intro i sum hfuel hi
    refine bind_eq_of_some (add_of_small (by omega)) ?_
    by_cases hword : i + 1 < data.length
    · rw [if_pos hword, List.drop_eq_getElem_cons (by omega), List.drop_eq_getElem_cons hword,
        sum16U32]
      refine bind_eq_of_some (u16From_eq (by omega)) ?_
      have hvalue : u16At data i = (data[i]).toNat * 256 + (data[i + 1]).toNat := by
        rw [u16At, Http.getD_eq_getElem data (by omega), Http.getD_eq_getElem data hword]
      rw [hvalue]
      refine congrArg _ (funext fun s => ?_)
      exact bind_eq_of_some (add_of_small (by omega)) (ih (by omega) (by omega))
    · rw [if_neg hword]
      by_cases hbyte : i < data.length
      · have hlast : data.drop i = [data[i]] := by
          rw [List.drop_eq_getElem_cons hbyte, List.drop_eq_nil_of_le (by omega)]
        rw [if_pos hbyte, hlast, sum16U32]
        exact bind_eq_of_some (List.getElem?_eq_getElem hbyte) rfl
      · rw [if_neg hbyte, List.drop_eq_nil_of_le (by omega)]
        rfl

/-- The sum is the sum of the words, or it does not fit. -/
theorem sum16U32_eq_ite (l : List UInt8) (sum : ℕ) (hsum : sum < 2 ^ 32) :
    sum16U32 l sum = if Tcp.sum16 l sum < 2 ^ 32 then some (Tcp.sum16 l sum) else none := by
  split_ifs with hfits
  · exact sum16U32_eq l sum hfits
  -- induction on the words; an addition that fits leaves the overflow to the rest
  induction l, sum using Tcp.sum16.induct with
  | case1 a b l sum ih =>
    rw [sum16U32]
    rw [Tcp.sum16] at hfits
    by_cases hadd : sum + (a.toNat * 256 + b.toNat) < 2 ^ 32
    · exact bind_eq_of_some (Machine.add_of_lt hadd) (ih hadd hfits)
    · rw [Machine.add_eq_none rfl hadd]
      rfl
  | case2 sum a => exact Machine.add_eq_none rfl hfits
  | case3 sum => exact absurd hsum hfits

/-- The checked sum fails exactly when the plain one leaves 32 bits. -/
theorem sum16_eq_ite {data : List UInt8} (hdata : data.length < 2 ^ 32 - 2) {sum : ℕ}
    (hsum : sum < 2 ^ 32) :
    sum16 data sum = if Tcp.sum16 data sum < 2 ^ 32 then some (Tcp.sum16 data sum) else none := by
  rw [sum16, sum16Loop_eq hdata (by omega) (Nat.zero_le _), List.drop_zero,
    sum16U32_eq_ite data sum hsum]

/-- Folding a sum that fits never fails. -/
theorem finish_eq_some {sum : ℕ} (h : sum < 2 ^ 32) : finish sum = some (Tcp.finish sum) :=
  bind_eq_of_some (foldCarriesU32_eq sum h) rfl

/-- **A checksum is made of its sum**, which has to fit in 32 bits. -/
theorem checksumFrom_eq {data : List UInt8} (hdata : data.length < 2 ^ 32 - 2) {sum : ℕ}
    (hsum : sum < 2 ^ 32) :
    checksumFrom data sum =
      if Tcp.sum16 data sum < 2 ^ 32 then some (Tcp.finish (Tcp.sum16 data sum)) else none := by
  rw [checksumFrom, sum16_eq_ite hdata hsum]
  split_ifs with hfits
  · exact finish_eq_some hfits
  · rfl

/-- The words of at most `n` bytes. -/
theorem sum16_le (data : List UInt8) (sum : ℕ) :
    Tcp.sum16 data sum ≤ sum + (data.length + 1) / 2 * 65535 := by
  have h := OnesComplement.wordSum_le data
  rw [Checksums.sum16_eq]
  omega

/-- Data that cannot fill 32 bits is summed without an overflow. -/
theorem checksumFrom_of_short {data : List UInt8} {sum : ℕ}
    (h : sum + (data.length + 1) / 2 * 65535 < 2 ^ 32) :
    checksumFrom data sum = some (Tcp.finish (Tcp.sum16 data sum)) := by
  have hle := sum16_le data sum
  rw [checksumFrom_eq (by omega) (by omega), if_pos (by omega)]

/-- A packet has at most 64 kB. -/
theorem checksum_of_packet {data : List UInt8} (h : data.length < 65536) :
    checksum data = some (Tcp.checksum data) := checksumFrom_of_short (by omega)


/-- The pseudo-header is laid out in its twelve bytes. -/
theorem l4Checksum_pseudo (src dst : Ip) (proto : UInt8) (l4 : List UInt8) :
    l4Checksum src dst proto l4 =
      (sum16 (src.bytes ++ dst.bytes ++ [0, proto] ++ be16 l4.length) 0 >>= checksumFrom l4) :=
  rfl

/-- The sum behind the checksum of a segment. -/
def l4Sum (src dst : Ip) (proto : UInt8) (l4 : List UInt8) : ℕ :=
  Tcp.sum16 l4 (Tcp.sum16 (src.bytes ++ dst.bytes ++ [0, proto] ++ be16 l4.length) 0)

/-- The checksum over the pseudo header fails only where its sum does. -/
theorem l4Checksum_eq (src dst : Ip) (proto : UInt8) {l4 : List UInt8} (hl4 : l4.length < 2 ^ 32 - 2) :
    l4Checksum src dst proto l4 =
      if l4Sum src dst proto l4 < 2 ^ 32 then some (Outbound.l4Checksum src dst proto l4)
      else none := by
  rw [l4Checksum_pseudo]
  obtain ⟨ph, hph⟩ : ∃ ph, ph = src.bytes ++ dst.bytes ++ [0, proto] ++ be16 l4.length := ⟨_, rfl⟩
  have hlen : ph.length = 12 := hph ▸ rfl
  have hle := sum16_le ph 0
  rw [hlen] at hle
  rw [l4Sum, Outbound.l4Checksum, ← hph]
  refine bind_eq_of_some ((sum16_eq_ite (by omega) (by omega)).trans (if_pos (by omega))) ?_
  exact checksumFrom_eq hl4 (by omega)

/-- It does not for any payload that IPv4 can carry. -/
theorem l4Sum_lt {src dst : Ip} {proto : UInt8} {l4 : List UInt8} (h : l4.length < 65536) :
    l4Sum src dst proto l4 < 2 ^ 32 := by
  have hph := sum16_le (src.bytes ++ dst.bytes ++ [0, proto] ++ be16 l4.length) 0
  have hlen : (src.bytes ++ dst.bytes ++ [0, proto] ++ be16 l4.length).length = 12 := rfl
  have hle := sum16_le l4 (Tcp.sum16 (src.bytes ++ dst.bytes ++ [0, proto] ++ be16 l4.length) 0)
  rw [l4Sum]
  omega

/-! ## Echo replies on every byte string -/

/-- A copy into a part of a buffer. -/
theorem copyTo_eq_put {l b : List UInt8} {i j : ℕ} (hj : j ≤ l.length) (hlen : i + b.length = j) :
    copyTo l i j b = some (Bytes.put l i b) := copyTo_of_le hj hlen

/-- Writing a byte in bounds. -/
theorem setAt_eq_put {l : List UInt8} {i : ℕ} {b : UInt8} (h : i < l.length) :
    setAt l i b = some (Bytes.put l i [b]) := by
  rw [setAt_of_lt h, Bytes.put, List.set_eq_take_append_cons_drop, if_pos h, List.append_assoc]
  rfl

/-- Two bytes one after the other. -/
theorem put_pair {l : List UInt8} {i : ℕ} (a b : UInt8) (h : i + 2 ≤ l.length) :
    Bytes.put (Bytes.put l i [a]) (i + 1) [b] = Bytes.put l i [a, b] := by
  have htake : ((l.take i ++ [a]) ++ l.drop (i + 1)).take (i + 1) = l.take i ++ [a] := by
    apply List.take_left'
    rw [List.length_append, List.length_take, List.length_singleton]
    omega
  have hdrop : ((l.take i ++ [a]) ++ l.drop (i + 1)).drop (i + 1 + 1) = l.drop (i + 2) := by
    have hlen : (l.take i ++ [a]).length = i + 1 := by
      rw [List.length_append, List.length_take, List.length_singleton]
      omega
    rw [← hlen, ← List.drop_drop, List.drop_left, List.drop_drop, hlen]
  unfold Bytes.put
  rw [List.length_singleton, List.length_singleton, htake, hdrop, List.append_assoc,
    List.append_assoc, List.append_assoc]
  rfl

/-- A slice in bounds. -/
theorem slice_eq_bytes {l : List UInt8} {i j n : ℕ} (hj : j ≤ l.length) (hlen : i + n = j) :
    slice l i j = some (Bytes.slice l i n) := by
  rw [slice_of_le (by omega) hj, show j - i = n by omega]
  rfl

/-- A copy into an array of the same length. -/
theorem copy_zeros {l : List UInt8} {n : ℕ} (h : l.length = n) :
    copyFromSlice (List.replicate n 0) l = some l :=
  copyFromSlice_of_length (List.length_replicate.trans h.symm)

/-- Swapping two fields that do not overlap, in bounds. -/
theorem swapAddrs_eq {pkt : List UInt8} {src dst n : ℕ} (hsrc : src + n ≤ dst)
    (hdst : dst + n ≤ pkt.length) :
    swapAddrs pkt src dst n = some (Icmp.swapAddrs pkt src dst n) := by
  have hs : (Bytes.slice pkt src n).length = n := Bytes.length_slice (by omega)
  have hd : (Bytes.slice pkt dst n).length = n := Bytes.length_slice hdst
  refine bind_eq_of_some (slice_eq_bytes (by omega) rfl) ?_
  refine bind_eq_of_some (copy_zeros hs) ?_
  refine bind_eq_of_some (slice_eq_bytes hdst rfl) ?_
  refine bind_eq_of_some (copy_zeros hd) ?_
  refine bind_eq_of_some (copyTo_eq_put (by omega) (by omega)) ?_
  exact copyTo_eq_put (by rw [Bytes.length_put (by omega)]; omega) (by omega)

/-- Swapping keeps the length. -/
theorem length_swapAddrs {pkt : List UInt8} {src dst n : ℕ} (hsrc : src + n ≤ dst)
    (hdst : dst + n ≤ pkt.length) : (Icmp.swapAddrs pkt src dst n).length = pkt.length := by
  have hs : (Bytes.slice pkt src n).length = n := Bytes.length_slice (by omega)
  have hd : (Bytes.slice pkt dst n).length = n := Bytes.length_slice hdst
  have hput : (Bytes.put pkt src (Bytes.slice pkt dst n)).length = pkt.length :=
    Bytes.length_put (by omega)
  rw [Icmp.swapAddrs]
  exact (Bytes.length_put (by omega)).trans hput

/-! ### IPv4 -/

/-- **Answering an echo never fails**: the checks in front of the reads cover them all. -/
theorem echoReply_eq (inner : List UInt8) : echoReply inner = some (Icmp.echoReply inner) := by
  unfold echoReply Icmp.echoReply Icmp.version
  by_cases hlen : inner.length < 20
  · rw [if_pos hlen, if_pos (.inl hlen)]
  rw [if_neg hlen]
  refine bind_eq_of_some (get_of_lt (by omega)) ?_
  by_cases hversion : (inner.getD 0 0).toNat / 16 ≠ 4
  · rw [if_pos hversion, if_pos (.inr hversion)]
  rw [if_neg hversion, if_neg (by simp only [hlen, hversion, or_self, not_false_eq_true])]
  have hb0 := (inner.getD 0 0).toNat_lt
  have htotal := u16At_lt inner 2
  refine bind_eq_of_some (mul_four (by omega)) ?_
  refine bind_eq_of_some (u16From_eq (by omega)) ?_
  obtain ⟨ihl, hihl⟩ : ∃ ihl, ihl = (inner.getD 0 0).toNat % 16 * 4 := ⟨_, rfl⟩
  obtain ⟨total, ht⟩ : ∃ total, total = u16At inner 2 := ⟨_, rfl⟩
  dsimp only
  rw [← hihl, ← ht, show Icmp.checksum = Tcp.checksum from rfl]
  by_cases hbounds : ihl < 20 ∨ total < ihl ∨ inner.length < total
  · rw [if_pos hbounds, if_pos hbounds]
  rw [if_neg hbounds, if_neg hbounds]
  refine bind_eq_of_some (get_of_lt (by omega)) ?_
  by_cases hproto : inner.getD 9 0 ≠ Icmp.protoIcmp
  · rw [if_pos hproto, if_pos hproto]
  rw [if_neg hproto, if_neg hproto]
  refine bind_eq_of_some (slice_of_le (by omega) (by omega)) ?_
  rw [← List.drop_take]
  have hicmp : ((inner.take total).drop ihl).length = total - ihl := by
    rw [List.length_drop, List.length_take]
    omega
  by_cases hshort : ((inner.take total).drop ihl).length < 8
  · rw [if_pos hshort, if_pos (.inl hshort)]
  rw [if_neg hshort]
  refine bind_eq_of_some (get_of_lt (by omega)) ?_
  by_cases htype : ((inner.take total).drop ihl).getD 0 0 ≠ Icmp.icmpEchoRequest
  · rw [if_pos htype, if_pos (.inr htype)]
  rw [if_neg htype, if_neg (by simp only [hshort, htype, or_self, not_false_eq_true])]
  -- the reply: `pkt` keeps its length through the writes
  refine bind_eq_of_some (slice_from_start (by omega)) ?_
  have h0 : (inner.take total).length = total := by
    rw [List.length_take]
    omega
  refine bind_eq_of_some (swapAddrs_eq (by omega) (by omega)) ?_
  have h1 : (Icmp.swapAddrs (inner.take total) 12 16 4).length = total := by
    rw [length_swapAddrs (by omega) (by omega), h0]
  generalize Icmp.swapAddrs (inner.take total) 12 16 4 = pkt at h1 ⊢
  refine bind_eq_of_some (setAt_eq_put (by omega)) ?_
  have h2 : (Bytes.put pkt ihl [Icmp.icmpEchoReply]).length = total :=
    (Bytes.length_put (show ihl + 1 ≤ _ by omega)).trans h1
  generalize Bytes.put pkt ihl [Icmp.icmpEchoReply] = pkt at h2 ⊢
  refine bind_eq_of_some (add_of_small (by omega)) ?_
  refine bind_eq_of_some (add_of_small (by omega)) ?_
  refine bind_eq_of_some (setAt_eq_put (by omega)) ?_
  refine bind_eq_of_some (setAt_eq_put ?_) ?_
  · rw [Bytes.length_put (show ihl + 2 + 1 ≤ _ by omega)]
    omega
  rw [put_pair 0 0 (by omega)]
  have h3 : (Bytes.put pkt (ihl + 2) [0, 0]).length = total :=
    (Bytes.length_put (show ihl + 2 + 2 ≤ _ by omega)).trans h2
  generalize Bytes.put pkt (ihl + 2) [0, 0] = pkt at h3 ⊢
  refine bind_eq_of_some (h3 ▸ slice_to_end (by omega)) ?_
  refine bind_eq_of_some (checksum_of_packet (by rw [List.length_drop]; omega)) ?_
  refine bind_eq_of_some (add_of_small (by omega)) ?_
  refine bind_eq_of_some (copyTo_eq_put (by omega) rfl) ?_
  have h4 : (Bytes.put pkt (ihl + 2) (be16 (Tcp.checksum (pkt.drop ihl)))).length = total :=
    (Bytes.length_put (show ihl + 2 + 2 ≤ _ by omega)).trans h3
  generalize Bytes.put pkt (ihl + 2) (be16 (Tcp.checksum (pkt.drop ihl))) = pkt at h4 ⊢
  refine bind_eq_of_some (setAt_eq_put (by omega)) ?_
  refine bind_eq_of_some (setAt_eq_put ?_) ?_
  · rw [Bytes.length_put (show 10 + 1 ≤ _ by omega)]
    omega
  rw [put_pair (i := 10) 0 0 (by omega)]
  have h5 : (Bytes.put pkt 10 [0, 0]).length = total :=
    (Bytes.length_put (show 10 + 2 ≤ _ by omega)).trans h4
  generalize Bytes.put pkt 10 [0, 0] = pkt at h5 ⊢
  refine bind_eq_of_some (slice_from_start (by omega)) ?_
  refine bind_eq_of_some (checksum_of_packet (by rw [List.length_take]; omega)) ?_
  exact bind_eq_of_some (copyTo_eq_put (by omega) rfl) rfl

/-! ### IPv6 -/

/-- The checksum of ICMPv6, for what a packet can carry. -/
theorem icmpv6Checksum_eq {src dst msg : List UInt8} (hsrc : src.length = 16)
    (hdst : dst.length = 16) (hmsg : msg.length < 65536) :
    icmpv6Checksum src dst msg = some (Icmp.icmpv6Checksum src dst msg) := by
  have h1 := sum16_le src 0
  have h2 := sum16_le dst (Tcp.sum16 src 0)
  have hnext : Icmp.nextHdrIcmpv6.toNat = 58 := rfl
  rw [hsrc] at h1
  rw [hdst] at h2
  refine bind_eq_of_some ((sum16_eq_ite (by omega) (by omega)).trans (if_pos (by omega))) ?_
  refine bind_eq_of_some ((sum16_eq_ite (by omega) (by omega)).trans (if_pos (by omega))) ?_
  refine bind_eq_of_some (Machine.add_of_lt (show _ < 2 ^ 32 by omega)) ?_
  refine bind_eq_of_some (Machine.add_of_lt (show _ < 2 ^ 32 by omega)) ?_
  refine bind_eq_of_some (Machine.add_of_lt (show _ < 2 ^ 32 by omega)) ?_
  exact checksumFrom_of_short (by omega)

/-- **Nor does answering one over IPv6.** -/
theorem echoReplyV6_eq (inner : List UInt8) :
    echoReplyV6 inner = some (Icmp.echoReplyV6 inner) := by
  unfold echoReplyV6 Icmp.echoReplyV6 Icmp.version
  by_cases hlen : inner.length < 40
  · rw [if_pos hlen, if_pos (.inl hlen)]
  rw [if_neg hlen]
  refine bind_eq_of_some (get_of_lt (by omega)) ?_
  by_cases hversion : (inner.getD 0 0).toNat / 16 ≠ 6
  · rw [if_pos hversion, if_pos (.inr (.inl hversion))]
  rw [if_neg hversion]
  refine bind_eq_of_some (get_of_lt (by omega)) ?_
  by_cases hnext : inner.getD 6 0 ≠ Icmp.nextHdrIcmpv6
  · rw [if_pos hnext, if_pos (.inr (.inr hnext))]
  rw [if_neg hnext, if_neg (by simp only [hlen, hversion, hnext, or_self, not_false_eq_true])]
  have hpayload := u16At_lt inner 4
  refine bind_eq_of_some (u16From_eq (by omega)) ?_
  refine bind_eq_of_some (add_of_small (by omega)) ?_
  obtain ⟨total, ht⟩ : ∃ total, total = 40 + u16At inner 4 := ⟨_, rfl⟩
  dsimp only
  rw [← ht]
  by_cases hbounds : u16At inner 4 < 8 ∨ inner.length < total
  · rw [if_pos hbounds, if_pos hbounds]
  rw [if_neg hbounds, if_neg hbounds]
  refine bind_eq_of_some (get_of_lt (by omega)) ?_
  by_cases htype : inner.getD 40 0 ≠ Icmp.icmpv6EchoRequest
  · rw [if_pos htype, if_pos htype]
  rw [if_neg htype, if_neg htype]
  -- the reply: `pkt` keeps its length through the writes
  refine bind_eq_of_some (slice_from_start (by omega)) ?_
  have h0 : (inner.take total).length = total := by
    rw [List.length_take]
    omega
  refine bind_eq_of_some (swapAddrs_eq (by omega) (by omega)) ?_
  have h1 : (Icmp.swapAddrs (inner.take total) 8 24 16).length = total := by
    rw [length_swapAddrs (by omega) (by omega), h0]
  generalize Icmp.swapAddrs (inner.take total) 8 24 16 = pkt at h1 ⊢
  refine bind_eq_of_some (setAt_eq_put (by omega)) ?_
  have h2 : (Bytes.put pkt 40 [Icmp.icmpv6EchoReply]).length = total :=
    (Bytes.length_put (show 40 + 1 ≤ _ by omega)).trans h1
  generalize Bytes.put pkt 40 [Icmp.icmpv6EchoReply] = pkt at h2 ⊢
  refine bind_eq_of_some (setAt_eq_put (by omega)) ?_
  refine bind_eq_of_some (setAt_eq_put ?_) ?_
  · rw [Bytes.length_put (show 42 + 1 ≤ _ by omega)]
    omega
  rw [put_pair (i := 42) 0 0 (by omega)]
  have h3 : (Bytes.put pkt 42 [0, 0]).length = total :=
    (Bytes.length_put (show 42 + 2 ≤ _ by omega)).trans h2
  generalize Bytes.put pkt 42 [0, 0] = pkt at h3 ⊢
  refine bind_eq_of_some (slice_eq_bytes (n := 16) (by omega) rfl) ?_
  refine bind_eq_of_some (copy_zeros (Bytes.length_slice (by omega))) ?_
  refine bind_eq_of_some (slice_eq_bytes (n := 16) (by omega) rfl) ?_
  refine bind_eq_of_some (copy_zeros (Bytes.length_slice (by omega))) ?_
  refine bind_eq_of_some (h3 ▸ slice_to_end (by omega)) ?_
  refine bind_eq_of_some (icmpv6Checksum_eq (Bytes.length_slice (by omega))
    (Bytes.length_slice (by omega)) (by rw [List.length_drop]; omega)) ?_
  exact bind_eq_of_some (copyTo_eq_put (by omega) rfl) rfl

/-- Nor does either of them, by the version. -/
theorem echoReplyAny_eq (inner : List UInt8) :
    echoReplyAny inner = some (Icmp.echoReplyAny inner) := by
  unfold echoReplyAny Icmp.echoReplyAny
  cases inner with
  | nil => rfl
  | cons b rest =>
    have hversion : Icmp.version (b :: rest) = b.toNat / 16 := rfl
    dsimp only [List.head?_cons, Option.map_some]
    rw [hversion, echoReply_eq, echoReplyV6_eq]
    split
    next h => rw [if_pos (Option.some_inj.mp h)]
    next h => rw [if_neg (by have := Option.some_inj.mp h; omega), if_pos (Option.some_inj.mp h)]
    next h4 h6 =>
      rw [if_neg fun h => h4 (congrArg some h), if_neg fun h => h6 (congrArg some h)]

/-! ## UDP on every byte string -/

/-- Nor does looking for a datagram to a port. -/
theorem udpPayloadToPort_eq (inner : List UInt8) (port : ℕ) :
    udpPayloadToPort inner port = some (DataPlane.State.udpPayloadToPort inner port) := by
  unfold udpPayloadToPort DataPlane.State.udpPayloadToPort Icmp.version
  by_cases hlen : inner.length < 20
  · rw [if_pos hlen, if_pos (.inl hlen)]
  rw [if_neg hlen]
  refine bind_eq_of_some (get_of_lt (by omega)) ?_
  by_cases hversion : (inner.getD 0 0).toNat / 16 ≠ 4
  · rw [if_pos hversion, if_pos (.inr (.inl hversion))]
  rw [if_neg hversion]
  refine bind_eq_of_some (get_of_lt (by omega)) ?_
  by_cases hproto : inner.getD 9 0 ≠ Outbound.protoUdp
  · rw [if_pos hproto, if_pos (.inr (.inr hproto))]
  rw [if_neg hproto, if_neg (by simp only [hlen, hversion, hproto, or_self, not_false_eq_true])]
  have hb0 := (inner.getD 0 0).toNat_lt
  refine bind_eq_of_some (mul_four (by omega)) ?_
  refine bind_eq_of_some (u16From_eq (by omega)) ?_
  refine bind_eq_of_some (add_of_small (by omega)) ?_
  obtain ⟨ihl, hihl⟩ : ∃ ihl, ihl = (inner.getD 0 0).toNat % 16 * 4 := ⟨_, rfl⟩
  obtain ⟨total, ht⟩ : ∃ total, total = u16At inner 2 := ⟨_, rfl⟩
  dsimp only
  rw [← hihl, ← ht]
  by_cases hbounds : total < ihl + 8 ∨ inner.length < total
  · rw [if_pos hbounds, if_pos hbounds]
  rw [if_neg hbounds, if_neg hbounds]
  refine bind_eq_of_some (slice_of_le (by omega) (by omega)) ?_
  rw [← List.drop_take]
  have hudp : 8 ≤ ((inner.take total).drop ihl).length := by
    rw [List.length_drop, List.length_take]
    omega
  refine bind_eq_of_some (u16From_eq (by omega)) ?_
  by_cases hport : u16At ((inner.take total).drop ihl) 2 ≠ port
  · rw [if_pos hport, if_pos hport]
  rw [if_neg hport, if_neg hport]
  exact bind_eq_of_some (slice_to_end (by omega)) rfl

/-! ## STUN on every byte string -/

/-- The loop over attributes stays in bounds: the index is bounded by the message and one
attribute more. Induction on the fuel. -/
theorem attrLoop_eq {buf : List UInt8} {stop : ℕ} (hstop : stop ≤ buf.length)
    (hfits : stop < 2 ^ 31) :
    ∀ {fuel i : ℕ}, i < 2 ^ 31 + 65540 → attrLoop buf stop fuel i = Stun.attrLoop buf stop fuel i := by
  intro fuel
  induction fuel with
  | zero => exact fun _ => rfl
  | succ fuel ih =>
    intro i hi
    rw [attrLoop, add_of_small (by omega), Outcome.unwrap_some, Outcome.ok_bind, Stun.attrLoop]
    by_cases hround : i + 4 ≤ stop
    · have halen := u16At_lt buf (i + 2)
      rw [if_pos hround, if_pos hround, Stun.u16Of_eq (by omega), Outcome.ok_bind,
        Outcome.ok_bind, Stun.u16Of_eq (by omega), Outcome.ok_bind, Outcome.ok_bind,
        add_of_small (by omega), Outcome.unwrap_some, Outcome.ok_bind]
      dsimp only
      by_cases hend : stop < i + 4 + u16At buf (i + 2)
      · rw [if_pos hend, if_pos hend]
      rw [if_neg hend, if_neg hend, Stun.slice_eq_ok (by omega) (by omega), Outcome.ok_bind,
        Outcome.ok_bind, Stun.attrAddress_eq, Outcome.ok_bind, Outcome.ok_bind]
      cases Stun.addressOf (u16At buf i) (Bytes.slice buf (i + 4)
        (i + 4 + u16At buf (i + 2) - (i + 4))) with
      | some addr => rfl
      | none =>
        dsimp only
        rw [sub_of_le (by omega), Outcome.unwrap_some, Outcome.ok_bind, add_of_small (by omega),
          Outcome.unwrap_some, Outcome.ok_bind]
        exact ih (by omega)
    · rw [if_neg hround, if_neg hround]

/-- The checked sums of `parse_response` are the sums. -/
theorem parseResponse_eq (buf : List UInt8) (txid : Bytes 12) :
    parseResponse buf txid = Stun.parseResponse buf txid := by
  unfold parseResponse
  by_cases hlen : buf.length < 20
  · rw [if_pos hlen, Stun.parseResponse, if_pos hlen]
  have hmsg := u16At_lt buf 2
  rw [if_neg hlen, Stun.parseResponse_eq (by omega), Stun.u16Of_eq (by omega), Outcome.ok_bind,
    Stun.u32Of_eq (by omega), Outcome.ok_bind, Stun.slice_eq_ok (by omega) (by omega),
    Outcome.ok_bind, Stun.u16Of_eq (by omega), Outcome.ok_bind, add_of_small (by omega),
    Outcome.unwrap_some, Outcome.ok_bind]
  dsimp only
  rw [attrLoop_eq (min_le_right _ _) (by omega) (by omega)]

/-! ## The status on every byte string -/

/-- A string of a block is read inside it. -/
theorem literal_cases {block : List UInt8} (hblock : block.length < 2 ^ 31) (i : ℕ) :
    literal block i = some none ∧ NetMap.H2.literal (block.drop i) = none ∨
    ∃ s stop, i < stop ∧ stop ≤ block.length ∧ literal block i = some (some (s, stop)) ∧
      NetMap.H2.literal (block.drop i) = some (s, block.drop stop) := by
  unfold literal
  by_cases hi : block.length ≤ i
  · rw [if_pos hi, List.drop_eq_nil_of_le hi]
    exact .inl ⟨rfl, rfl⟩
  have hcons : block.drop i = block.getD i 0 :: block.drop (i + 1) := by
    rw [List.drop_eq_getElem_cons (by omega), Http.getD_eq_getElem block (by omega)]
  have hlen : (block.getD i 0 &&& 0x7f).toNat ≤ 0x7f := by
    rw [UInt8.toNat_and]
    exact Nat.and_le_right
  rw [if_neg hi, hcons, NetMap.H2.literal, List.length_drop]
  dsimp only
  by_cases hstop : block.length < i + 1 + (block.getD i 0 &&& 0x7f).toNat
  · refine .inl ⟨?_, if_pos (by omega)⟩
    refine bind_eq_of_some (get_of_lt (by omega)) ?_
    refine bind_eq_of_some (add_of_small (by omega)) ?_
    exact bind_eq_of_some (add_of_small (by omega)) (if_pos hstop)
  · refine .inr ⟨(block.drop (i + 1)).take (block.getD i 0 &&& 0x7f).toNat,
      i + 1 + (block.getD i 0 &&& 0x7f).toNat, by omega, by omega, ?_, ?_⟩
    · refine bind_eq_of_some (get_of_lt (by omega)) ?_
      refine bind_eq_of_some (add_of_small (by omega)) ?_
      refine bind_eq_of_some (add_of_small (by omega)) ?_
      rw [if_neg hstop]
      refine bind_eq_of_some (slice_of_le (by omega) (by omega)) ?_
      rw [Nat.add_sub_cancel_left]
    · rw [if_neg (by omega), List.drop_drop]

/-- The loop over a header block stays in the block. Induction on the fuel. -/
theorem decodeStatusLoop_eq {block : List UInt8} (hblock : block.length < 2 ^ 31) :
    ∀ {fuel i : ℕ}, block.length < i + fuel → i ≤ block.length →
      decodeStatusLoop block fuel i = some (NetMap.H2.decodeStatusLoop fuel (block.drop i)) := by
  intro fuel
  induction fuel with
  | zero =>
    intro i hfuel hle
    omega
  | succ fuel ih =>
    intro i hfuel hle
    rw [decodeStatusLoop]
    by_cases hi : i < block.length
    · have hcons : block.drop i = block.getD i 0 :: block.drop (i + 1) := by
        rw [List.drop_eq_getElem_cons hi, Http.getD_eq_getElem block hi]
      rw [if_pos hi, hcons, NetMap.H2.decodeStatusLoop]
      refine bind_eq_of_some (get_of_lt hi) ?_
      refine bind_eq_of_some (add_of_small (by omega)) ?_
      -- an entry of the table
      by_cases hindexed : block.getD i 0 &&& 0x80 ≠ 0
      · rw [if_pos hindexed, if_pos hindexed]
        by_cases hok : block.getD i 0 &&& 0x7f = 8
        · rw [if_pos hok, if_pos hok]
        · rw [if_neg hok, if_neg hok]
          exact ih (by omega) (by omega)
      rw [if_neg hindexed, if_neg hindexed]
      -- a name and a value, which may be the status
      by_cases hliteral : block.getD i 0 &&& 0xf0 = 0
      · rw [if_pos hliteral, if_pos hliteral]
        rcases literal_cases hblock (i + 1) with
          ⟨hname, hname'⟩ | ⟨name, j, hj, hjle, hname, hname'⟩
        · rw [hname']
          exact bind_eq_of_some hname rfl
        rw [hname']
        refine bind_eq_of_some hname ?_
        dsimp only [Option.bind_eq_bind, Option.bind_some]
        rcases literal_cases hblock j with ⟨hval, hval'⟩ | ⟨val, k, hk, hkle, hval, hval'⟩
        · rw [hval, hval']
          rfl
        rw [hval, hval']
        dsimp only [Option.bind_some]
        by_cases hstatus : name = Text.utf8 ":status"
        · rw [if_pos hstatus, if_pos hstatus]
          cases Text.fromUtf8 val <;> rfl
        · rw [if_neg hstatus, if_neg hstatus]
          exact ih (by omega) hkle
      · rw [if_neg hliteral, if_neg hliteral]
    · rw [if_neg hi, List.drop_eq_nil_of_le (by omega)]
      rfl

/-- The status is read inside the block. -/
theorem decodeStatus_eq (block : Buf) :
    decodeStatus block.1 = some (NetMap.H2.decodeStatus block.1) := by
  rw [decodeStatus, decodeStatusLoop_eq block.2 (by omega) (Nat.zero_le _), List.drop_zero]
  rfl

end Inbound
