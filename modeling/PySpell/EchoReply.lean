/-
# What a ping is answered with

`echo_reply_any` on every packet.  `Echo4` and `Echo6` are the ICMP messages of the echo
kind in their packets, with all their fields; a packet may be longer than its message says.
The answer to such a message is the same message with the addresses exchanged, the type of
a reply and new checksums (`echoReply_bytes`, `echoReplyV6_bytes`), and every packet that
is answered is such a request (`echoReplyAny_spec`).  A reply is not a request, so two
responders never answer each other for long.
-/
import PySpell.Icmp
import PySpell.TcpSession

open Tcp Bytes

namespace Icmp

/-- The source and the destination, one after the other, change places. -/
theorem swapAddrs_middle {pre s d post : List UInt8} {src dst n : ℕ} (hsrc : pre.length = src)
    (hdst : src + n = dst) (hs : s.length = n) (hd : d.length = n) :
    swapAddrs (pre ++ (s ++ (d ++ post))) src dst n = pre ++ (d ++ (s ++ post)) := by
  have hpre : (pre ++ s).length = dst := by rw [List.length_append, hsrc, hs, hdst]
  have hpre' : (pre ++ d).length = dst := by rw [List.length_append, hsrc, hd, hdst]
  have hsource : slice (pre ++ (s ++ (d ++ post))) src n = s := slice_middle hsrc hs
  have hdest : slice (pre ++ (s ++ (d ++ post))) dst n = d := by
    rw [← List.append_assoc]
    exact slice_middle hpre hd
  rw [swapAddrs, hsource, hdest, put_middle hsrc (hs.trans hd.symm), ← List.append_assoc,
    put_middle hpre' (hd.trans hs.symm), List.append_assoc]

/-- A byte between two parts. -/
theorem getD_middle {pre post : List UInt8} {a : UInt8} {off : ℕ} (hoff : pre.length = off) :
    (pre ++ ([a] ++ post)).getD off 0 = a := by
  rw [getD_eq_slice, slice_middle (n := 1) hoff rfl]
  rfl

/-- A checksum is put between two parts. -/
theorem put_be16 {pre x post : List UInt8} {off n : ℕ} (hoff : pre.length = off)
    (hx : x.length = 2) : put (pre ++ (x ++ post)) off (be16 n) = pre ++ (be16 n ++ post) :=
  put_middle hoff hx

theorem be16_u16 (a b : UInt8) : be16 (a.toNat * 256 + b.toNat) = [a, b] := by
  have ha := a.toNat_lt
  have hb := b.toNat_lt
  have hhi : UInt8.ofNat ((a.toNat * 256 + b.toNat) / 256) = a := by
    rw [show (a.toNat * 256 + b.toNat) / 256 = a.toNat by omega, UInt8.ofNat_toNat]
  have hlo : UInt8.ofNat (a.toNat * 256 + b.toNat) = b := by
    apply UInt8.toNat_inj.mp
    rw [UInt8.toNat_ofNat']
    omega
  rw [be16, hhi, hlo]

/-- A number that was read is written back. -/
theorem be16_u16At {l : List UInt8} {i : ℕ} (h : i + 2 ≤ l.length) :
    be16 (u16At l i) = slice l i 2 := by
  have hslice : slice l i 2 = slice l i 1 ++ slice l (i + 1) 1 := by
    have h1 := drop_eq_slice_append l i 1
    have h2 := drop_eq_slice_append l (i + 1) 1
    have hfirst : (slice l i 1).length = 1 := length_slice (by omega)
    have hsecond : (slice l (i + 1) 1).length = 1 := length_slice (by omega)
    rw [slice, h1, h2, ← List.append_assoc]
    exact List.take_left' (by rw [List.length_append, hfirst, hsecond])
  rw [hslice, slice_one (by omega), slice_one (by omega), u16At]
  exact be16_u16 _ _

/-! ## Messages -/

/-- An ICMP message with an identifier and a sequence number. -/
structure Message where
  type : UInt8
  code : UInt8
  sum : Bytes 2
  id : Bytes 2
  seq : Bytes 2
  data : List UInt8

namespace Message

variable (m : Message)

/-- What follows the checksum. -/
def body : List UInt8 := m.id.1 ++ (m.seq.1 ++ m.data)

def bytes : List UInt8 := [m.type] ++ ([m.code] ++ (m.sum.1 ++ m.body))

theorem length_bytes : m.bytes.length = 8 + m.data.length := by
  simp only [bytes, body, List.length_append, List.length_cons, List.length_nil, m.sum.2, m.id.2,
    m.seq.2]
  omega

/-- The message with another type and no checksum. -/
def retyped (type : UInt8) : Message := { m with type, sum := zeros 2 }

/-- A message behind other bytes gets a type, and its checksum is cleared. -/
theorem put_retyped {pre : List UInt8} {off : ℕ} (hoff : pre.length = off) (type : UInt8) :
    put (put (pre ++ m.bytes) off [type]) (off + 2) [0, 0] = pre ++ (m.retyped type).bytes := by
  have hlen : (pre ++ [type, m.code]).length = off + 2 := by
    rw [List.length_append, hoff]
    rfl
  have htype : put (pre ++ m.bytes) off [type] =
      (pre ++ [type, m.code]) ++ (m.sum.1 ++ m.body) := by
    rw [bytes, put_middle (x := [m.type]) (b := [type]) hoff rfl]
    simp only [List.append_assoc, List.cons_append, List.nil_append]
  rw [htype, put_middle hlen (b := [0, 0]) m.sum.2]
  simp only [List.append_assoc, List.cons_append, List.nil_append]
  rfl

/-- A message gets its checksum. -/
theorem put_sum {pre : List UInt8} {off : ℕ} (hoff : pre.length = off) (type : UInt8) (n : ℕ) :
    put (pre ++ (m.retyped type).bytes) (off + 2) (be16 n) =
      pre ++ { m with type, sum := ⟨be16 n, rfl⟩ }.bytes := by
  have hlen : (pre ++ [type, m.code]).length = off + 2 := by
    rw [List.length_append, hoff]
    rfl
  have hsplit : pre ++ (m.retyped type).bytes =
      (pre ++ [type, m.code]) ++ ([0, 0] ++ m.body) := by
    simp only [List.append_assoc, List.cons_append, List.nil_append]
    rfl
  rw [hsplit, put_be16 (x := [0, 0]) hlen rfl]
  simp only [List.append_assoc, List.cons_append, List.nil_append]
  rfl

/-- Eight bytes and more are a message. -/
theorem exists_of_length {l : List UInt8} (h : 8 ≤ l.length) : ∃ m : Message, m.bytes = l := by
  refine ⟨⟨l.getD 0 0, l.getD 1 0, ⟨slice l 2 2, length_slice (by omega)⟩,
    ⟨slice l 4 2, length_slice (by omega)⟩, ⟨slice l 6 2, length_slice (by omega)⟩, l.drop 8⟩, ?_⟩
  have h0 := drop_eq_slice_append l 0 1
  have h1 := drop_eq_slice_append l 1 1
  have h2 := drop_eq_slice_append l 2 2
  have h4 := drop_eq_slice_append l 4 2
  have h6 := drop_eq_slice_append l 6 2
  rw [slice_one (by omega)] at h0 h1
  simp only [bytes, body]
  rw [← h6, ← h4, ← h2, ← h1, ← h0]
  rfl

end Message

/-! ## Messages over IPv4 -/

/-- A message in an IPv4 packet. -/
structure Echo4 where
  tos : UInt8
  ident : Bytes 2
  fragment : Bytes 2
  ttl : UInt8
  headerSum : Bytes 2
  src : Bytes 4
  dst : Bytes 4
  options : List UInt8
  msg : Message
  /-- The options fill whole words, and the header is no longer than it can say. -/
  words : options.length % 4 = 0 ∧ options.length ≤ 40
  fits : 28 + options.length + msg.data.length < 65536

namespace Echo4

variable (e : Echo4)

/-- The length of the IP header. -/
def ihl : ℕ := 20 + e.options.length

/-- The declared length. -/
def totalLen : ℕ := 28 + e.options.length + e.msg.data.length

/-- The header up to its checksum. -/
def start : List UInt8 :=
  [UInt8.ofNat (64 + e.ihl / 4), e.tos] ++ be16 e.totalLen ++ e.ident.1 ++ e.fragment.1 ++
    [e.ttl, protoIcmp]

/-- The header. -/
def header : List UInt8 := e.start ++ (e.headerSum.1 ++ (e.src.1 ++ (e.dst.1 ++ e.options)))

/-- The bytes of the packet. -/
def bytes : List UInt8 := e.header ++ e.msg.bytes

theorem length_start : e.start.length = 10 := by
  simp [start, be16, e.ident.2, e.fragment.2]

theorem length_header : e.header.length = e.ihl := by
  simp only [header, List.length_append, e.length_start, e.headerSum.2, e.src.2, e.dst.2, ihl]
  omega

theorem length_bytes : e.bytes.length = e.totalLen := by
  rw [bytes, List.length_append, e.length_header, e.msg.length_bytes, ihl, totalLen]
  omega

/-- The packet with the addresses exchanged and no checksums. -/
def exchanged : Echo4 :=
  { e with src := e.dst, dst := e.src, headerSum := zeros 2, msg := e.msg.retyped icmpEchoReply }

/-- The reply: the addresses are exchanged, and the checksums are made again. -/
def reply : Echo4 :=
  { e with
    src := e.dst
    dst := e.src
    headerSum := ⟨be16 (checksum e.exchanged.header), rfl⟩
    msg := { e.msg with
      type := icmpEchoReply
      sum := ⟨be16 (checksum e.exchanged.msg.bytes), rfl⟩ } }

theorem getD_start (post : List UInt8) :
    (e.start ++ post).getD 0 0 = UInt8.ofNat (64 + e.ihl / 4) := rfl

/-- The header says what it is. -/
theorem read_header (post : List UInt8) : version (e.start ++ post) = 4 ∧
    ((e.start ++ post).getD 0 0).toNat % 16 * 4 = e.ihl ∧ u16At (e.start ++ post) 2 = e.totalLen ∧
    (e.start ++ post).getD 9 0 = protoIcmp := by
  have hwords := e.words
  have hbyte : (UInt8.ofNat (64 + e.ihl / 4)).toNat = 64 + e.ihl / 4 := by
    rw [UInt8.toNat_ofNat', ihl]
    omega
  refine ⟨?_, ?_, u16_of_be16 e.fits, ?_⟩
  · rw [version, e.getD_start, hbyte, ihl]
    omega
  · rw [e.getD_start, hbyte, ihl]
    omega
  · have hpre : ([UInt8.ofNat (64 + e.ihl / 4), e.tos] ++ be16 e.totalLen ++ e.ident.1 ++
        e.fragment.1 ++ [e.ttl]).length = 9 := by
      simp [be16, e.ident.2, e.fragment.2]
    have hsplit : e.start ++ post = ([UInt8.ofNat (64 + e.ihl / 4), e.tos] ++ be16 e.totalLen ++
        e.ident.1 ++ e.fragment.1 ++ [e.ttl]) ++ ([protoIcmp] ++ post) := by
      simp only [start, List.append_assoc, List.cons_append, List.nil_append]
    rw [hsplit]
    exact getD_middle hpre

/-- The steps of the answer: addresses, type and the two checksums. -/
theorem puts_eq_reply : (
    let pkt := swapAddrs e.bytes 12 16 4
    let pkt := put pkt e.ihl [icmpEchoReply]
    let pkt := put pkt (e.ihl + 2) [0, 0]
    let pkt := put pkt (e.ihl + 2) (be16 (checksum (pkt.drop e.ihl)))
    let pkt := put pkt 10 [0, 0]
    put pkt 10 (be16 (checksum (pkt.take e.ihl)))) = e.reply.bytes := by
  -- the header behind its checksum, and the whole header
  obtain ⟨rest, hrest⟩ : ∃ rest, rest = e.dst.1 ++ (e.src.1 ++ e.options) := ⟨_, rfl⟩
  obtain ⟨head, hhead⟩ : ∃ head, head = e.start ++ (e.headerSum.1 ++ rest) := ⟨_, rfl⟩
  have hlen : ∀ sum : List UInt8, sum.length = 2 → (e.start ++ (sum ++ rest)).length = e.ihl := by
    intro sum hsum
    simp only [hrest, List.length_append, e.length_start, hsum, e.src.2, e.dst.2, ihl]
    omega
  have hheadLen : head.length = e.ihl := hhead ▸ hlen _ e.headerSum.2
  have hswap : swapAddrs e.bytes 12 16 4 = head ++ e.msg.bytes := by
    have hsplit : e.bytes = (e.start ++ e.headerSum.1) ++ (e.src.1 ++ (e.dst.1 ++
        (e.options ++ e.msg.bytes))) := by
      simp only [bytes, header, List.append_assoc]
    rw [hsplit, swapAddrs_middle (by rw [List.length_append, e.length_start, e.headerSum.2]) rfl
      e.src.2 e.dst.2]
    simp only [hhead, hrest, List.append_assoc]
  have hdrop : (head ++ (e.msg.retyped icmpEchoReply).bytes).drop e.ihl =
      (e.msg.retyped icmpEchoReply).bytes := List.drop_left' hheadLen
  have hsplit : ∀ l : List UInt8, head ++ l = e.start ++ (e.headerSum.1 ++ (rest ++ l)) := by
    intro l
    simp only [hhead, List.append_assoc]
  have htake : ∀ l : List UInt8, (e.start ++ ([0, 0] ++ (rest ++ l))).take e.ihl =
      e.exchanged.header := by
    intro l
    have hheader : e.start ++ ([0, 0] ++ (rest ++ l)) = (e.start ++ ([0, 0] ++ rest)) ++ l := by
      simp only [List.append_assoc]
    rw [hheader, List.take_left' (hlen _ rfl), hrest]
    rfl
  dsimp only
  rw [hswap, e.msg.put_retyped hheadLen, hdrop, e.msg.put_sum hheadLen, hsplit,
    put_middle e.length_start (b := [0, 0]) e.headerSum.2, htake,
    put_be16 (x := [0, 0]) e.length_start rfl, hrest]
  simp only [reply, bytes, header, List.append_assoc]
  rfl

/-- **The answer to a message**: it is ignored, or it is a request and gets its reply. -/
theorem echoReply_bytes (padding : List UInt8) :
    echoReply (e.bytes ++ padding) =
      if e.msg.type = icmpEchoRequest then some e.reply.bytes else none := by
  obtain ⟨post, hpost⟩ : ∃ post, e.bytes ++ padding = e.start ++ post := by
    refine ⟨e.headerSum.1 ++ (e.src.1 ++ (e.dst.1 ++ (e.options ++ (e.msg.bytes ++ padding)))), ?_⟩
    simp only [bytes, header, List.append_assoc]
  obtain ⟨hversion, hihl, htotal, hproto⟩ := e.read_header post
  rw [← hpost] at hversion hihl htotal hproto
  have hlen := e.length_bytes
  have htake : (e.bytes ++ padding).take e.totalLen = e.bytes := List.take_left' hlen
  have hdrop : e.bytes.drop e.ihl = e.msg.bytes := List.drop_left' e.length_header
  have hihl20 : e.ihl = 20 + e.options.length := rfl
  have htotal28 : e.totalLen = 28 + e.options.length + e.msg.data.length := rfl
  have htype : e.msg.bytes.getD 0 0 = e.msg.type := rfl
  rw [echoReply, if_neg (by rw [List.length_append, hlen, hversion]; omega)]
  simp only [hihl, htotal, hproto, htake, hdrop]
  rw [if_neg (by rw [List.length_append, hlen]; omega), if_neg (not_not_intro rfl), htype]
  by_cases hreq : e.msg.type = icmpEchoRequest
  · rw [if_neg (by rw [e.msg.length_bytes]; simp [hreq]), if_pos hreq]
    exact congrArg some e.puts_eq_reply
  · rw [if_pos (Or.inr hreq), if_neg hreq]

/-- What the checks of `echo_reply` let through, before the type, is a message. -/
theorem exists_of_checks {inner : List UInt8} {ihl : ℕ} (hversion : version inner = 4)
    (hihl : (inner.getD 0 0).toNat % 16 * 4 = ihl) (hmin : 20 ≤ ihl)
    (hproto : inner.getD 9 0 = protoIcmp) (hmsg : ihl + 8 ≤ u16At inner 2)
    (hfits : u16At inner 2 ≤ inner.length) :
    ∃ (e : Echo4) (padding : List UInt8), e.ihl = ihl ∧ inner = e.bytes ++ padding := by
  have hu16 := u16At_lt inner 2
  obtain ⟨m, hm⟩ := Message.exists_of_length (l := slice inner ihl (u16At inner 2 - ihl))
    (by rw [length_slice (by omega)]; omega)
  have hdata : 8 + m.data.length = u16At inner 2 - ihl := by
    rw [← m.length_bytes, hm, length_slice (by omega)]
  have hoptions : (slice inner 20 (ihl - 20)).length = ihl - 20 := length_slice (by omega)
  obtain ⟨e, he⟩ : ∃ e : Echo4, e = ⟨inner.getD 1 0, ⟨slice inner 4 2, length_slice (by omega)⟩,
      ⟨slice inner 6 2, length_slice (by omega)⟩, inner.getD 8 0,
      ⟨slice inner 10 2, length_slice (by omega)⟩, ⟨slice inner 12 4, length_slice (by omega)⟩,
      ⟨slice inner 16 4, length_slice (by omega)⟩, slice inner 20 (ihl - 20), m,
      by rw [hoptions]; omega, by rw [hoptions]; omega⟩ := ⟨_, rfl⟩
  -- the echo whose parts stand in the packet
  have heoptions : e.options.length = ihl - 20 := by rw [he]; exact hoptions
  have heihl : e.ihl = ihl := by
    rw [Echo4.ihl, heoptions]
    omega
  have hetotal : e.totalLen = u16At inner 2 := by
    have hemsg : e.msg = m := by rw [he]
    rw [totalLen, heoptions, hemsg]
    omega
  have hfirst : UInt8.ofNat (64 + ihl / 4) = inner.getD 0 0 := by
    have hbyte := (inner.getD 0 0).toNat_lt
    rw [version] at hversion
    rw [show 64 + ihl / 4 = (inner.getD 0 0).toNat by omega, UInt8.ofNat_toNat]
  have htotal : be16 (u16At inner 2) = slice inner 2 2 := be16_u16At (by omega)
  refine ⟨e, inner.drop (u16At inner 2), heihl, ?_⟩
  -- the packet, cut field by field
  have h0 := drop_eq_slice_append inner 0 1
  have h1 := drop_eq_slice_append inner 1 1
  have h2 := drop_eq_slice_append inner 2 2
  have h4 := drop_eq_slice_append inner 4 2
  have h6 := drop_eq_slice_append inner 6 2
  have h8 := drop_eq_slice_append inner 8 1
  have h9 := drop_eq_slice_append inner 9 1
  have h10 := drop_eq_slice_append inner 10 2
  have h12 := drop_eq_slice_append inner 12 4
  have h16 := drop_eq_slice_append inner 16 4
  have h20 := drop_eq_slice_append inner 20 (ihl - 20)
  have hlast := drop_eq_slice_append inner ihl (u16At inner 2 - ihl)
  rw [Nat.add_sub_cancel' (by omega)] at h20 hlast
  rw [slice_one (by omega)] at h0 h1 h8 h9
  rw [hproto] at h9
  have hstart : e.start = [inner.getD 0 0] ++ ([inner.getD 1 0] ++ (slice inner 2 2 ++
      (slice inner 4 2 ++ (slice inner 6 2 ++ ([inner.getD 8 0] ++ [protoIcmp]))))) := by
    rw [start, heihl, hetotal, hfirst, htotal, he]
    simp only [List.append_assoc, List.cons_append, List.nil_append]
  calc inner = inner.drop 0 := rfl
    _ = e.start ++ (slice inner 10 2 ++ (slice inner 12 4 ++ (slice inner 16 4 ++
        (slice inner 20 (ihl - 20) ++ (slice inner ihl (u16At inner 2 - ihl) ++
          inner.drop (u16At inner 2)))))) := by
      rw [hstart, ← hlast, ← h20, ← h16, ← h12, ← h10, h0, h1, h2, h4, h6, h8, h9]
      simp only [List.append_assoc]
    _ = e.bytes ++ inner.drop (u16At inner 2) := by
      rw [bytes, header, ← hm, he]
      simp only [List.append_assoc]

end Echo4

/-! ## Messages over IPv6 -/

/-- A message in an IPv6 packet, with no extension header. -/
structure Echo6 where
  first : UInt8
  flow : Bytes 3
  hopLimit : UInt8
  src : Bytes 16
  dst : Bytes 16
  msg : Message
  version : first.toNat / 16 = 6
  fits : 8 + msg.data.length < 65536

namespace Echo6

variable (e : Echo6)

/-- The declared length, of what follows the header. -/
def payloadLen : ℕ := 8 + e.msg.data.length

/-- The header up to the addresses. -/
def start : List UInt8 :=
  [e.first] ++ e.flow.1 ++ be16 e.payloadLen ++ [nextHdrIcmpv6, e.hopLimit]

/-- The header. -/
def header : List UInt8 := e.start ++ (e.src.1 ++ e.dst.1)

/-- The bytes of the packet. -/
def bytes : List UInt8 := e.header ++ e.msg.bytes

theorem length_start : e.start.length = 8 := by
  simp [start, be16, e.flow.2]

theorem length_header : e.header.length = 40 := by
  simp only [header, List.length_append, e.length_start, e.src.2, e.dst.2]

theorem length_bytes : e.bytes.length = 40 + e.payloadLen := by
  rw [bytes, List.length_append, e.length_header, e.msg.length_bytes, payloadLen]

/-- The reply: the addresses are exchanged, and the checksum is made again. -/
def reply : Echo6 :=
  { e with
    src := e.dst
    dst := e.src
    msg := { e.msg with
      type := icmpv6EchoReply
      sum := ⟨be16 (icmpv6Checksum e.dst.1 e.src.1 (e.msg.retyped icmpv6EchoReply).bytes), rfl⟩ } }

/-- The header says what it is. -/
theorem read_header (post : List UInt8) : Icmp.version (e.start ++ post) = 6 ∧
    u16At (e.start ++ post) 4 = e.payloadLen ∧ (e.start ++ post).getD 6 0 = nextHdrIcmpv6 := by
  have hflow : ([e.first] ++ e.flow.1).length = 4 := by simp [e.flow.2]
  have hlen : ([e.first] ++ e.flow.1 ++ be16 e.payloadLen).length = 6 := by
    simp [e.flow.2, be16]
  refine ⟨e.version, ?_, ?_⟩
  · have hsplit : e.start ++ post = ([e.first] ++ e.flow.1) ++ (be16 e.payloadLen ++
        ([nextHdrIcmpv6, e.hopLimit] ++ post)) := by
      simp only [start, List.append_assoc]
    have hread := u16At_append ([e.first] ++ e.flow.1) (be16 e.payloadLen ++
      ([nextHdrIcmpv6, e.hopLimit] ++ post)) 0
    rw [hflow, Nat.add_zero] at hread
    rw [hsplit, hread]
    exact u16_of_be16 e.fits
  · have hsplit : e.start ++ post = ([e.first] ++ e.flow.1 ++ be16 e.payloadLen) ++
        ([nextHdrIcmpv6] ++ ([e.hopLimit] ++ post)) := by
      simp only [start, List.append_assoc, List.cons_append, List.nil_append]
    rw [hsplit]
    exact getD_middle hlen

/-- The steps of the answer: addresses, type and checksum. -/
theorem puts_eq_reply : (
    let pkt := swapAddrs e.bytes 8 24 16
    let pkt := put pkt 40 [icmpv6EchoReply]
    let pkt := put pkt 42 [0, 0]
    let csum := icmpv6Checksum (slice pkt 8 16) (slice pkt 24 16) (pkt.drop 40)
    put pkt 42 (be16 csum)) = e.reply.bytes := by
  obtain ⟨head, hhead⟩ : ∃ head, head = e.start ++ (e.dst.1 ++ e.src.1) := ⟨_, rfl⟩
  have hheadLen : head.length = 40 := by
    simp only [hhead, List.length_append, e.length_start, e.src.2, e.dst.2]
  have hswap : swapAddrs e.bytes 8 24 16 = head ++ e.msg.bytes := by
    have hsplit : e.bytes = e.start ++ (e.src.1 ++ (e.dst.1 ++ e.msg.bytes)) := by
      simp only [bytes, header, List.append_assoc]
    rw [hsplit, swapAddrs_middle e.length_start rfl e.src.2 e.dst.2]
    simp only [hhead, List.append_assoc]
  have hsrc : ∀ l : List UInt8, slice (head ++ l) 8 16 = e.dst.1 := by
    intro l
    rw [hhead, List.append_assoc, List.append_assoc]
    exact slice_middle e.length_start e.dst.2
  have hdst : ∀ l : List UInt8, slice (head ++ l) 24 16 = e.src.1 := by
    intro l
    rw [hhead, ← List.append_assoc, List.append_assoc]
    exact slice_middle (by rw [List.length_append, e.length_start, e.dst.2]) e.src.2
  dsimp only
  rw [hswap, e.msg.put_retyped hheadLen, hsrc, hdst, List.drop_left' hheadLen,
    e.msg.put_sum hheadLen, hhead]
  rfl

/-- **The answer to a message**: it is ignored, or it is a request and gets its reply. -/
theorem echoReplyV6_bytes (padding : List UInt8) :
    echoReplyV6 (e.bytes ++ padding) =
      if e.msg.type = icmpv6EchoRequest then some e.reply.bytes else none := by
  obtain ⟨post, hpost⟩ : ∃ post, e.bytes ++ padding = e.start ++ post := by
    refine ⟨e.src.1 ++ (e.dst.1 ++ (e.msg.bytes ++ padding)), ?_⟩
    simp only [bytes, header, List.append_assoc]
  obtain ⟨hversion, hpayload, hnext⟩ := e.read_header post
  rw [← hpost] at hversion hpayload hnext
  have hlen := e.length_bytes
  have hpayload8 : e.payloadLen = 8 + e.msg.data.length := rfl
  have htake : (e.bytes ++ padding).take (40 + e.payloadLen) = e.bytes := List.take_left' hlen
  have htype : (e.bytes ++ padding).getD 40 0 = e.msg.type := by
    rw [bytes, List.append_assoc, Message.bytes, List.append_assoc]
    exact getD_middle e.length_header
  rw [echoReplyV6, if_neg (by rw [List.length_append, hlen, hversion, hnext]; simp; omega)]
  simp only [hpayload, htake, htype]
  rw [if_neg (by rw [List.length_append, hlen]; omega)]
  by_cases hreq : e.msg.type = icmpv6EchoRequest
  · rw [if_neg (not_not_intro hreq), if_pos hreq]
    exact congrArg some e.puts_eq_reply
  · rw [if_pos hreq, if_neg hreq]

/-- What the checks of `echo_reply_v6` let through, before the type, is a message. -/
theorem exists_of_checks {inner : List UInt8} (hversion : Icmp.version inner = 6)
    (hnext : inner.getD 6 0 = nextHdrIcmpv6) (hmsg : 8 ≤ u16At inner 4)
    (hfits : 40 + u16At inner 4 ≤ inner.length) :
    ∃ (e : Echo6) (padding : List UInt8), inner = e.bytes ++ padding := by
  have hu16 := u16At_lt inner 4
  obtain ⟨m, hm⟩ := Message.exists_of_length (l := slice inner 40 (u16At inner 4))
    (by rw [length_slice (by omega)]; omega)
  have hdata : 8 + m.data.length = u16At inner 4 := by
    rw [← m.length_bytes, hm, length_slice (by omega)]
  refine ⟨⟨inner.getD 0 0, ⟨slice inner 1 3, length_slice (by omega)⟩, inner.getD 7 0,
    ⟨slice inner 8 16, length_slice (by omega)⟩, ⟨slice inner 24 16, length_slice (by omega)⟩, m,
    hversion, by omega⟩, inner.drop (40 + u16At inner 4), ?_⟩
  have h0 := drop_eq_slice_append inner 0 1
  have h1 := drop_eq_slice_append inner 1 3
  have h4 := drop_eq_slice_append inner 4 2
  have h6 := drop_eq_slice_append inner 6 1
  have h7 := drop_eq_slice_append inner 7 1
  have h8 := drop_eq_slice_append inner 8 16
  have h24 := drop_eq_slice_append inner 24 16
  have h40 := drop_eq_slice_append inner 40 (u16At inner 4)
  rw [slice_one (by omega)] at h0 h6 h7
  rw [hnext] at h6
  rw [← be16_u16At (by omega)] at h4
  calc inner = inner.drop 0 := rfl
    _ = [inner.getD 0 0] ++ (slice inner 1 3 ++ (be16 (u16At inner 4) ++ ([nextHdrIcmpv6] ++
        ([inner.getD 7 0] ++ (slice inner 8 16 ++ (slice inner 24 16 ++ (slice inner 40
          (u16At inner 4) ++ inner.drop (40 + u16At inner 4)))))))) := by
      rw [← h40, ← h24, ← h8, ← h7, ← h6, ← h4, ← h1, ← h0]
    _ = _ := by
      simp only [bytes, header, start, payloadLen, hdata, ← hm, List.append_assoc,
        List.cons_append, List.nil_append]

end Echo6

/-! ## Which packets are answered -/

/-- An echo request, perhaps with bytes behind it that it does not declare, and its reply. -/
inductive Answers : List UInt8 → List UInt8 → Prop
  | v4 (e : Echo4) (padding : List UInt8) (h : e.msg.type = icmpEchoRequest) :
      Answers (e.bytes ++ padding) e.reply.bytes
  | v6 (e : Echo6) (padding : List UInt8) (h : e.msg.type = icmpv6EchoRequest) :
      Answers (e.bytes ++ padding) e.reply.bytes

/-- The packet is a request: it holds as much as it declares, a whole message at least, and
says that it is ICMP or ICMPv6 and of the type of a request. -/
def IsEchoRequest (inner : List UInt8) : Prop :=
  (∃ (e : Echo4) (padding : List UInt8), e.msg.type = icmpEchoRequest ∧
    inner = e.bytes ++ padding) ∨
  ∃ (e : Echo6) (padding : List UInt8), e.msg.type = icmpv6EchoRequest ∧
    inner = e.bytes ++ padding

/-- The version decides who answers. -/
theorem echoReplyAny_of_version {inner : List UInt8} (hne : inner ≠ []) :
    (version inner = 4 → echoReplyAny inner = echoReply inner) ∧
      (version inner = 6 → echoReplyAny inner = echoReplyV6 inner) := by
  obtain ⟨b, l, rfl⟩ := List.exists_cons_of_ne_nil hne
  constructor
  · intro h4
    exact if_pos h4
  · intro h6
    have h4 : version (b :: l) ≠ 4 := by omega
    exact (if_neg h4).trans (if_pos h6)

theorem Echo4.echoReplyAny_bytes (e : Echo4) (padding : List UInt8) :
    echoReplyAny (e.bytes ++ padding) =
      if e.msg.type = icmpEchoRequest then some e.reply.bytes else none := by
  obtain ⟨hversion, -⟩ := e.read_header (e.headerSum.1 ++ (e.src.1 ++ (e.dst.1 ++ (e.options ++
    (e.msg.bytes ++ padding)))))
  have hbytes : e.bytes ++ padding = e.start ++ (e.headerSum.1 ++ (e.src.1 ++ (e.dst.1 ++
      (e.options ++ (e.msg.bytes ++ padding))))) := by
    simp only [bytes, header, List.append_assoc]
  rw [← hbytes] at hversion
  have hne : e.bytes ++ padding ≠ [] := by
    rw [hbytes, start]
    exact List.cons_ne_nil _ _
  rw [(echoReplyAny_of_version hne).1 hversion, e.echoReply_bytes]

theorem Echo6.echoReplyAny_bytes (e : Echo6) (padding : List UInt8) :
    echoReplyAny (e.bytes ++ padding) =
      if e.msg.type = icmpv6EchoRequest then some e.reply.bytes else none := by
  obtain ⟨hversion, -⟩ := e.read_header (e.src.1 ++ (e.dst.1 ++ (e.msg.bytes ++ padding)))
  have hbytes : e.bytes ++ padding =
      e.start ++ (e.src.1 ++ (e.dst.1 ++ (e.msg.bytes ++ padding))) := by
    simp only [bytes, header, List.append_assoc]
  rw [← hbytes] at hversion
  have hne : e.bytes ++ padding ≠ [] := by
    rw [hbytes, start]
    exact List.cons_ne_nil _ _
  rw [(echoReplyAny_of_version hne).2 hversion, e.echoReplyV6_bytes]

/-- What IPv4 answers is a message. -/
theorem exists_of_echoReply {inner reply : List UInt8} (h : echoReply inner = some reply) :
    ∃ (e : Echo4) (padding : List UInt8), inner = e.bytes ++ padding := by
  simp only [echoReply] at h
  split_ifs at h with hlen hihl hproto hmsg
  obtain ⟨-, hversion⟩ := not_or.mp hlen
  have hdrop : 8 ≤ ((inner.take (u16At inner 2)).drop
      ((inner.getD 0 0).toNat % 16 * 4)).length := by omega
  rw [List.length_drop, List.length_take] at hdrop
  obtain ⟨e, padding, -, hinner⟩ := Echo4.exists_of_checks (not_not.mp hversion) rfl (by omega)
    (not_not.mp hproto) (by omega) (by omega)
  exact ⟨e, padding, hinner⟩

/-- What IPv6 answers is a message. -/
theorem exists_of_echoReplyV6 {inner reply : List UInt8} (h : echoReplyV6 inner = some reply) :
    ∃ (e : Echo6) (padding : List UInt8), inner = e.bytes ++ padding := by
  simp only [echoReplyV6] at h
  split_ifs at h with hlen hfits htype
  obtain ⟨-, hlen⟩ := not_or.mp hlen
  obtain ⟨hversion, hnext⟩ := not_or.mp hlen
  exact Echo6.exists_of_checks (not_not.mp hversion) (not_not.mp hnext) (by omega) (by omega)

/-- **A packet that is answered is a request, and the answer is its reply.** -/
theorem answers_of_echoReplyAny {inner reply : List UInt8} (h : echoReplyAny inner = some reply) :
    Answers inner reply := by
  have hne : inner ≠ [] := by
    rintro rfl
    cases h
  by_cases h4 : version inner = 4
  · obtain ⟨e, padding, rfl⟩ :=
      exists_of_echoReply (((echoReplyAny_of_version hne).1 h4).symm.trans h)
    rw [e.echoReplyAny_bytes] at h
    split_ifs at h with htype
    cases h
    exact Answers.v4 e padding htype
  by_cases h6 : version inner = 6
  · obtain ⟨e, padding, rfl⟩ :=
      exists_of_echoReplyV6 (((echoReplyAny_of_version hne).2 h6).symm.trans h)
    rw [e.echoReplyAny_bytes] at h
    split_ifs at h with htype
    cases h
    exact Answers.v6 e padding htype
  · obtain ⟨b, l, rfl⟩ := List.exists_cons_of_ne_nil hne
    simp only [echoReplyAny, if_neg h4, if_neg h6] at h
    cases h

/-- A reply is not answered. -/
theorem Answers.reply_ignored {inner reply : List UInt8} (h : Answers inner reply) :
    echoReplyAny reply = none := by
  cases h with
  | v4 e padding h =>
    have hreply := e.reply.echoReplyAny_bytes []
    rw [List.append_nil] at hreply
    exact hreply
  | v6 e padding h =>
    have hreply := e.reply.echoReplyAny_bytes []
    rw [List.append_nil] at hreply
    exact hreply

/-- **Pings are answered**, and nothing else is: a packet gets a reply when and only when it
is an echo request.  The reply is the request with its addresses exchanged, the type of a
reply and new checksums, every other field and the data as they were, and nobody answers it. -/
theorem echoReplyAny_spec (inner : List UInt8) :
    ((∃ reply, echoReplyAny inner = some reply) ↔ IsEchoRequest inner) ∧
      ∀ reply, echoReplyAny inner = some reply →
        Answers inner reply ∧ echoReplyAny reply = none := by
  refine ⟨⟨?_, ?_⟩, ?_⟩
  · rintro ⟨reply, h⟩
    cases answers_of_echoReplyAny h with
    | v4 e padding htype => exact Or.inl ⟨e, padding, htype, rfl⟩
    | v6 e padding htype => exact Or.inr ⟨e, padding, htype, rfl⟩
  · rintro (⟨e, padding, h, rfl⟩ | ⟨e, padding, h, rfl⟩)
    · exact ⟨_, (e.echoReplyAny_bytes padding).trans (if_pos h)⟩
    · exact ⟨_, (e.echoReplyAny_bytes padding).trans (if_pos h)⟩
  · intro reply h
    have hanswers := answers_of_echoReplyAny h
    exact ⟨hanswers, hanswers.reply_ignored⟩

end Icmp
