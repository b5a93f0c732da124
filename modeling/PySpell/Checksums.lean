/-
# Checksums that verify

What a receiver makes of the packets that are built here.  It adds the words of the IP
header, and the words of the pseudo-header and what follows the header, in one's
complement; the sum has to be all ones.  `Verifies` is that check, with the additions in
32 bits, together with how the field came to be.  Every builder fills its fields so that
the check succeeds (`builders_verify`).
-/
import PySpell.EchoReply
import PySpell.Outbound
import PySpell.Lib.Checked
import PySpell.Lib.OnesComplement

open Tcp Bytes OnesComplement

namespace Checksums

/-! ## Sums of words -/

theorem sum16_eq (l : List UInt8) (sum : ℕ) : sum16 l sum = sum + wordSum l := by
  induction l, sum using sum16.induct with
  | case1 a b l sum ih =>
    rw [sum16, ih, wordSum]
    omega
  | case2 sum a => rfl
  | case3 sum => rfl

theorem sum16_append {pre : List UInt8} (post : List UInt8) (sum : ℕ)
    (heven : pre.length % 2 = 0) : sum16 (pre ++ post) sum = sum16 post (sum16 pre sum) := by
  rw [sum16_eq, sum16_eq, sum16_eq, wordSum_append post heven, Nat.add_assoc]

/-- The loop ends with no carry. -/
theorem foldCarries_eq {fuel sum : ℕ} (h : sum ≤ fuel) : foldCarries fuel sum = fold 65535 sum := by
  induction fuel generalizing sum with
  | zero => rw [Nat.le_zero.mp h, foldCarries, fold_zero]
  | succ fuel ih =>
    rw [foldCarries]
    split_ifs with hcarry
    · rw [ih (by omega)]
      exact fold_round 65535 sum
    · exact (fold_of_le (by omega)).symm

theorem finish_eq (sum : ℕ) : finish sum = 65535 - fold 65535 sum := by
  rw [finish, foldCarries_eq le_rfl]

/-! ## Additions in 32 bits -/

/-- `u32`, with the overflow checks of a debug build. -/
def u32 : Checked.Machine := ⟨32, true, Checked.Machine.le_width_32⟩

/-- `sum16`, where an addition that overflows panics. -/
def sum16U32 : List UInt8 → ℕ → Option ℕ
  | a :: b :: s, sum => do sum16U32 s (← u32.add sum (a.toNat * 256 + b.toNat))
  | [a], sum => u32.add sum (a.toNat * 256)
  | [], sum => some sum

/-- The loop of `finish`, where an addition that overflows panics. -/
def foldCarriesU32 : ℕ → ℕ → Option ℕ
  | 0, sum => some sum
  | fuel + 1, sum =>
    if sum / 65536 ≠ 0 then do foldCarriesU32 fuel (← u32.add (sum % 65536) (sum / 65536))
    else some sum

/-- The one's-complement sum of the words. -/
def onesSum (data : List UInt8) : Option ℕ := do
  let sum ← sum16U32 data 0
  foldCarriesU32 sum sum

theorem sum16U32_eq (l : List UInt8) (sum : ℕ) (h : sum16 l sum < 2 ^ 32) :
    sum16U32 l sum = some (sum16 l sum) := by
  induction l, sum using sum16.induct with
  | case1 a b l sum ih =>
    rw [sum16] at h ⊢
    have hle : sum + (a.toNat * 256 + b.toNat) < 2 ^ 32 := by
      rw [sum16_eq] at h
      omega
    rw [sum16U32, Checked.Machine.add_of_lt hle]
    exact ih h
  | case2 sum a => exact Checked.Machine.add_of_lt h
  | case3 sum => rfl

theorem foldCarriesU32_eq (fuel : ℕ) {sum : ℕ} (h : sum < 2 ^ 32) :
    foldCarriesU32 fuel sum = some (foldCarries fuel sum) := by
  induction fuel generalizing sum with
  | zero => rfl
  | succ fuel ih =>
    rw [foldCarriesU32, foldCarries]
    split_ifs with hcarry
    · have hround : sum % 65536 + sum / 65536 < 2 ^ 32 := by omega
      rw [Checked.Machine.add_of_lt hround]
      exact ih hround
    · rfl

/-- **No accumulator overflows** on the data of a packet. -/
theorem onesSum_eq {data : List UInt8} (h : data.length ≤ 131072) :
    onesSum data = some (fold 65535 (wordSum data)) := by
  have hle := wordSum_le data
  have hlt : sum16 data 0 < 2 ^ 32 := by
    rw [sum16_eq]
    omega
  rw [onesSum, sum16U32_eq data 0 hlt, Option.bind_eq_bind, Option.bind_some,
    foldCarriesU32_eq _ hlt, foldCarries_eq le_rfl, sum16_eq, Nat.zero_add]

/-! ## Data with a checksum -/

/-- The data hold a checksum at an offset that the receiver accepts. -/
structure Verifies (data : List UInt8) (field : ℕ) : Prop where
  /-- The field was made of the same data with a field of zeros, in 32 bits. -/
  filled : (onesSum (put data field [0, 0])).map (0xffff - ·) = some (u16At data field)
  /-- The receiver's sum, over the field as well. -/
  sum : onesSum data = some 0xffff

/-- **A checksum that is filled in verifies.** -/
theorem verifies_of_finish (pre post : List UInt8) (heven : pre.length % 2 = 0)
    (hlen : pre.length + post.length ≤ 131070) :
    Verifies (pre ++ (be16 (finish (sum16 (pre ++ ([0, 0] ++ post)) 0)) ++ post)) pre.length := by
  obtain ⟨n, hn⟩ : ∃ n, n = finish (sum16 (pre ++ ([0, 0] ++ post)) 0) := ⟨_, rfl⟩
  have hfinish : n = 65535 - fold 65535 (wordSum (pre ++ ([0, 0] ++ post))) := by
    rw [hn, finish_eq, sum16_eq, Nat.zero_add]
  have hn16 : n < 65536 := by omega
  have hfield := u16At_append pre (be16 n ++ post) 0
  rw [Nat.add_zero] at hfield
  have hread : u16At (pre ++ (be16 n ++ post)) pre.length = n := hfield.trans (u16_of_be16 hn16)
  have hbytes : (UInt8.ofNat (n / 256)).toNat * 256 + (UInt8.ofNat n).toNat = n :=
    u16_of_be16 (n := n) hn16
  have hsum : ∀ x : List UInt8, x.length = 2 →
      onesSum (pre ++ (x ++ post)) = some (fold 65535 (wordSum (pre ++ (x ++ post)))) := by
    intro x hx
    apply onesSum_eq
    rw [List.length_append, List.length_append, hx]
    omega
  rw [← hn]
  constructor
  · have hput : put (pre ++ (be16 n ++ post)) pre.length [0, 0] = pre ++ ([0, 0] ++ post) :=
      put_middle rfl rfl
    rw [hput, hsum _ rfl, hread, hfinish]
    rfl
  · rw [hsum _ rfl]
    exact congrArg some (fold_wordSum_middle post heven (hbytes.trans hfinish))

/-! ## Packets -/

/-- The length of the IPv4 header. -/
def headerLen (pkt : List UInt8) : ℕ := (pkt.getD 0 0).toNat % 16 * 4

/-- What the header of a packet carries. -/
def carried (pkt : List UInt8) : List UInt8 := (pkt.take (u16At pkt 2)).drop (headerLen pkt)

/-- The addresses, the protocol and the length, as they go into the checksum. -/
def pseudo (src dst : List UInt8) (proto : UInt8) (len : ℕ) : List UInt8 :=
  src ++ dst ++ [0, proto] ++ be16 len

theorem length_pseudo {src dst : List UInt8} (hsrc : src.length = 4) (hdst : dst.length = 4)
    (proto : UInt8) (len : ℕ) : (pseudo src dst proto len).length = 12 := by
  simp only [pseudo, List.length_append, hsrc, hdst, be16, List.length_cons, List.length_nil]

/-- The pseudo-header of a packet; ICMP has none. -/
def pseudo4 (pkt : List UInt8) : List UInt8 :=
  if pkt.getD 9 0 = Icmp.protoIcmp then []
  else pseudo (slice pkt 12 4) (slice pkt 16 4) (pkt.getD 9 0) (carried pkt).length

/-- The check of an IPv4 packet, with the offset of the checksum in what it carries. -/
structure Verifies4 (pkt : List UInt8) (field : ℕ) : Prop where
  version : Icmp.version pkt = 4
  total : u16At pkt 2 = pkt.length
  header : Verifies (pkt.take (headerLen pkt)) 10
  segment : Verifies (pseudo4 pkt ++ carried pkt) ((pseudo4 pkt).length + field)

/-- The pseudo-header of an IPv6 packet. -/
def pseudo6 (pkt : List UInt8) : List UInt8 :=
  slice pkt 8 16 ++ slice pkt 24 16 ++ be16 ((pkt.drop 40).length / 65536) ++
    be16 (pkt.drop 40).length ++ [0, 0, 0, pkt.getD 6 0]

/-- The check of an IPv6 packet, which has no checksum in its header. -/
structure Verifies6 (pkt : List UInt8) (field : ℕ) : Prop where
  version : Icmp.version pkt = 6
  total : 40 + u16At pkt 4 = pkt.length
  message : Verifies (pseudo6 pkt ++ pkt.drop 40) (40 + field)

/-- **A packet of its parts verifies**, when the parts say what it is and what it carries
verifies. -/
theorem Verifies4.of_parts {seg : List UInt8} {proto : UInt8} {field : ℕ}
    (start src dst options : List UInt8)
    (hstart : start.length = 10) (hsrc : src.length = 4) (hdst : dst.length = 4)
    (hversion : (start.getD 0 0).toNat = 64 + (20 + options.length) / 4)
    (hwords : options.length % 4 = 0 ∧ options.length ≤ 40)
    (htotal : u16At start 2 = 20 + options.length + seg.length)
    (hproto : start.getD 9 0 = proto)
    (hseg : proto = Icmp.protoIcmp ∧ Verifies seg field ∨ proto ≠ Icmp.protoIcmp ∧
      Verifies (pseudo src dst proto seg.length ++ seg) (12 + field)) :
    Verifies4 (start ++ (be16 (checksum (start ++ ([0, 0] ++ (src ++ (dst ++ options))))) ++
      (src ++ (dst ++ options))) ++ seg) field := by
  obtain ⟨sum, hsum⟩ : ∃ sum, sum = be16 (checksum (start ++ ([0, 0] ++ (src ++ (dst ++
    options))))) := ⟨_, rfl⟩
  obtain ⟨header, hheader⟩ : ∃ header, header = start ++ (sum ++ (src ++ (dst ++ options))) :=
    ⟨_, rfl⟩
  have hsumLen : sum.length = 2 := by
    rw [hsum]
    rfl
  have hlen : header.length = 20 + options.length := by
    simp only [hheader, List.length_append, hstart, hsumLen, hsrc, hdst]
    omega
  -- the fields before the checksum are where they were
  have hget : ∀ i < 10, (header ++ seg).getD i 0 = start.getD i 0 := by
    intro i hi
    rw [hheader, List.append_assoc]
    rw [List.getD_eq_getElem?_getD, List.getElem?_append_left (by omega),
      List.getD_eq_getElem?_getD]
  have hheaderLen : headerLen (header ++ seg) = 20 + options.length := by
    rw [headerLen, hget 0 (by decide), hversion]
    omega
  have htotalLen : u16At (header ++ seg) 2 = (header ++ seg).length := by
    rw [List.length_append, hlen, ← htotal, u16At, hget 2 (by decide), hget 3 (by decide)]
    rfl
  have hcarried : carried (header ++ seg) = seg := by
    rw [carried, hheaderLen, htotalLen, List.take_length]
    exact List.drop_left' hlen
  -- and the addresses are behind it
  have hsplit : header ++ seg = (start ++ sum) ++ (src ++ (dst ++ (options ++ seg))) := by
    simp only [hheader, List.append_assoc]
  have hfirst : (start ++ sum).length = 12 := by rw [List.length_append, hstart, hsumLen]
  have hsrcAt : slice (header ++ seg) 12 4 = src := by
    rw [hsplit]
    exact slice_middle hfirst hsrc
  have hdstAt : slice (header ++ seg) 16 4 = dst := by
    rw [hsplit, ← List.append_assoc]
    exact slice_middle (by rw [List.length_append, hfirst, hsrc]) hdst
  rw [← hsum, ← hheader]
  refine ⟨?_, htotalLen, ?_, ?_⟩
  · rw [Icmp.version, hget 0 (by decide), hversion]
    omega
  · -- the header sums to nothing
    rw [hheaderLen, List.take_left' hlen, hheader, hsum]
    have hverifies := verifies_of_finish start (src ++ (dst ++ options)) (by omega)
      (by simp only [List.length_append, hstart, hsrc, hdst]; omega)
    rw [hstart] at hverifies
    exact hverifies
  · -- so does the payload, with the pseudo header unless it is ICMP
    rw [pseudo4, hget 9 (by decide), hproto, hcarried, hsrcAt, hdstAt]
    obtain ⟨hicmp, hseg⟩ | ⟨hicmp, hseg⟩ := hseg
    · rw [if_pos hicmp, List.nil_append, List.length_nil, Nat.zero_add]
      exact hseg
    · rw [if_neg hicmp, length_pseudo hsrc hdst]
      exact hseg

/-! ## The builders -/

theorem l4Checksum_eq (src dst : Ip) (proto : UInt8) (l4 : List UInt8) :
    Outbound.l4Checksum src dst proto l4 =
      finish (sum16 (pseudo src.bytes dst.bytes proto l4.length ++ l4) 0) := by
  rw [sum16_append l4 0 (by rw [length_pseudo rfl rfl])]
  rfl

/-- A field of a segment that is made with the pseudo-header. -/
theorem verifies_pseudo {src dst : Ip} {proto : UInt8} {pre post seg : List UInt8} {sum : ℕ}
    (heven : pre.length % 2 = 0) (hlen : pre.length + post.length ≤ 65536)
    (hsum : sum = finish (sum16 (pseudo src.bytes dst.bytes proto
      (pre ++ ([0, 0] ++ post)).length ++ (pre ++ ([0, 0] ++ post))) 0))
    (hseg : seg = pre ++ (be16 sum ++ post)) :
    Verifies (pseudo src.bytes dst.bytes proto seg.length ++ seg) (12 + pre.length) := by
  have hsegLen : seg.length = (pre ++ ([0, 0] ++ post)).length := by
    rw [hseg]
    simp only [List.length_append, be16, List.length_cons, List.length_nil]
  obtain ⟨ph, hph⟩ : ∃ ph, ph = pseudo src.bytes dst.bytes proto seg.length := ⟨_, rfl⟩
  have hphLen : ph.length = 12 := hph ▸ length_pseudo rfl rfl _ _
  have hverifies := verifies_of_finish (ph ++ pre) post
    (by rw [List.length_append, hphLen]; omega) (by rw [List.length_append, hphLen]; omega)
  rw [← hsegLen, ← hph] at hsum
  rw [← hph, hseg, hsum]
  rw [List.append_assoc, List.append_assoc, List.length_append, hphLen] at hverifies
  exact hverifies

/-- A packet of `ipv4_packet`. -/
theorem Verifies4.ipv4Packet {src dst : Ip} {proto : UInt8} {l4 : List UInt8} {field : ℕ}
    (hlen : 20 + l4.length ≤ 65535)
    (hseg : proto = Icmp.protoIcmp ∧ Verifies l4 field ∨ proto ≠ Icmp.protoIcmp ∧
      Verifies (pseudo src.bytes dst.bytes proto l4.length ++ l4) (12 + field)) :
    Verifies4 (Outbound.ipv4Packet src dst proto l4) field := by
  have htotal : u16At ([0x45, 0] ++ be16 (20 + l4.length) ++ [0, 0, 0x40, 0, 64, proto]) 2 =
      20 + ([] : List UInt8).length + l4.length := by
    rw [List.length_nil, Nat.add_zero]
    exact u16_of_be16 (by omega)
  have hparts := Verifies4.of_parts _ src.bytes dst.bytes [] rfl rfl rfl rfl (by decide) htotal
    rfl hseg
  simp only [List.append_nil, List.append_assoc] at hparts
  simp only [Outbound.ipv4Packet, List.append_assoc]
  exact hparts

/-! ### Over IPv4 -/

theorem icmpEchoRequest_verifies (src dst : Ip) (ident seq : ℕ) {payload : List UInt8}
    (hlen : 28 + payload.length ≤ 65535) :
    Verifies4 (Outbound.icmpEchoRequest src dst ident seq payload) 2 := by
  have hverifies := verifies_of_finish [8, 0] (be16 ident ++ (be16 seq ++ payload)) rfl
    (by simp only [List.length_append, be16, List.length_cons, List.length_nil]; omega)
  simp only [Outbound.icmpEchoRequest, List.append_assoc]
  refine Verifies4.ipv4Packet ?_ (Or.inl ⟨rfl, hverifies⟩)
  simp only [List.length_append, be16, List.length_cons, List.length_nil]
  omega

theorem udpDatagram_verifies (src dst : Ip) (sport dport : ℕ) {payload : List UInt8}
    (hlen : 28 + payload.length ≤ 65535) :
    Verifies4 (Outbound.udpDatagram src dst sport dport payload) 6 := by
  obtain ⟨pre, hpre⟩ : ∃ pre, pre = be16 sport ++ (be16 dport ++ be16 (8 + payload.length)) :=
    ⟨_, rfl⟩
  have hpreLen : pre.length = 6 := hpre ▸ rfl
  have hudp : ∀ sum, be16 sport ++ be16 dport ++ be16 (8 + payload.length) ++ be16 sum ++ payload =
      pre ++ (be16 sum ++ payload) := by
    intro sum
    simp only [hpre, List.append_assoc]
  have hverifies := verifies_pseudo (by rw [hpreLen]) (by omega) (l4Checksum_eq src dst
    Outbound.protoUdp (pre ++ ([0, 0] ++ payload))) rfl
  rw [hpreLen] at hverifies
  simp only [Outbound.udpDatagram, hudp]
  refine Verifies4.ipv4Packet ?_ (Or.inr ⟨by decide, hverifies⟩)
  simp only [List.length_append, hpreLen, be16, List.length_cons, List.length_nil]
  omega

theorem tcpSegment_verifies (src dst : Ip) (sport dport : ℕ) (seq ack : UInt32) (flags : UInt8)
    {payload : List UInt8} (hlen : 40 + payload.length ≤ 65535) :
    Verifies4 (Outbound.tcpSegment src dst sport dport seq ack flags payload) 16 := by
  obtain ⟨pre, hpre⟩ : ∃ pre, pre = be16 sport ++ be16 dport ++ be32 seq ++ be32 ack ++
    [0x50, flags] ++ be16 64240 := ⟨_, rfl⟩
  have hpreLen : pre.length = 16 := hpre ▸ rfl
  have htcp : ∀ sum, be16 sport ++ be16 dport ++ be32 seq ++ be32 ack ++ [0x50, flags] ++
      be16 64240 ++ be16 sum ++ [0, 0] ++ payload = pre ++ (be16 sum ++ ([0, 0] ++ payload)) := by
    intro sum
    simp only [hpre, List.append_assoc]
  have hpost : ([0, 0] ++ payload).length = 2 + payload.length := by
    rw [List.length_append]
    rfl
  have hverifies := verifies_pseudo (by rw [hpreLen]) (by omega) (l4Checksum_eq src dst
    protoTcp (pre ++ ([0, 0] ++ ([0, 0] ++ payload)))) rfl
  rw [hpreLen] at hverifies
  simp only [Outbound.tcpSegment, htcp]
  refine Verifies4.ipv4Packet ?_ (Or.inr ⟨by decide, hverifies⟩)
  rw [List.length_append, List.length_append, hpost, hpreLen]
  simp only [be16, List.length_cons, List.length_nil]
  omega

/-- The server and the client make the same segments, each with helpers of its own. -/
theorem segment_eq_tcpSegment (c : Conn) (flags : UInt8) (payload : List UInt8) :
    c.segment flags payload = Outbound.tcpSegment c.ourIp c.clientIp httpPort c.clientPort
      c.sndNxt c.rcvNxt flags payload := by
  have hlen : ∀ sum, 20 + (tcpHeader c flags sum ++ payload).length = 40 + payload.length := by
    intro sum
    rw [List.length_append, show (tcpHeader c flags sum).length = 20 from rfl]
    omega
  have hclient : Outbound.tcpSegment c.ourIp c.clientIp httpPort c.clientPort c.sndNxt c.rcvNxt
      flags payload = Outbound.ipv4Packet c.ourIp c.clientIp protoTcp (tcpHeader c flags
        (tcpChecksum c.ourIp c.clientIp (tcpHeader c flags 0 ++ payload)) ++ payload) := rfl
  rw [hclient, Outbound.ipv4Packet, hlen, ← List.append_assoc]
  rfl

theorem echoReply_verifies (e : Icmp.Echo4) : Verifies4 e.reply.bytes 2 := by
  have hmsg : Verifies e.reply.msg.bytes 2 := by
    refine verifies_of_finish [Icmp.icmpEchoReply, e.msg.code] e.msg.body (Nat.mod_self 2) ?_
    have hfits := e.fits
    have hlen := e.msg.length_bytes
    simp only [Icmp.Message.bytes, List.length_append, e.msg.sum.2] at hlen
    simp only [List.length_cons, List.length_nil] at hlen ⊢
    omega
  have hfits := e.fits
  have hbyte : (e.start.getD 0 0).toNat = 64 + (20 + e.options.length) / 4 := by
    have hwords := e.words
    rw [show e.start.getD 0 0 = UInt8.ofNat (64 + e.ihl / 4) from rfl, UInt8.toNat_ofNat',
      Icmp.Echo4.ihl]
    omega
  obtain ⟨-, -, htotal, hproto⟩ := e.read_header []
  rw [List.append_nil] at htotal hproto
  have hlen : e.totalLen = 20 + e.options.length + e.reply.msg.bytes.length := by
    have hreply : e.reply.msg.data = e.msg.data := rfl
    rw [e.reply.msg.length_bytes, hreply, Icmp.Echo4.totalLen]
    omega
  exact Verifies4.of_parts e.start e.dst.1 e.src.1 e.options e.length_start e.dst.2 e.src.2 hbyte
    e.words (htotal.trans hlen) hproto (Or.inl ⟨rfl, hmsg⟩)

/-! ### Over IPv6 -/

/-- The sums of `icmpv6_checksum` are those of the pseudo-header and the message. -/
theorem icmpv6Checksum_eq {src dst : List UInt8} (hsrc : src.length = 16) (hdst : dst.length = 16)
    (msg : List UInt8) :
    Icmp.icmpv6Checksum src dst msg = finish (sum16 (src ++ dst ++ be16 (msg.length / 65536) ++
      be16 msg.length ++ [0, 0, 0, Icmp.nextHdrIcmpv6] ++ msg) 0) := by
  have hbe : ∀ n, wordSum (be16 n) = n % 65536 := by
    intro n
    simp only [be16, wordSum, UInt8.toNat_ofNat']
    omega
  have heven : ∀ n, (be16 n).length % 2 = 0 := fun _ => Nat.mod_self 2
  have hnext : wordSum [0, 0, 0, Icmp.nextHdrIcmpv6] = Icmp.nextHdrIcmpv6.toNat := rfl
  simp only [List.append_assoc]
  rw [Icmp.icmpv6Checksum, sum16_eq, sum16_eq, sum16_eq, sum16_eq,
    wordSum_append _ (by rw [hsrc]), wordSum_append _ (by rw [hdst]),
    wordSum_append _ (heven _), wordSum_append _ (heven _), wordSum_append _ rfl, hbe, hbe, hnext]
  refine congrArg finish ?_
  omega

theorem echoReplyV6_verifies (e : Icmp.Echo6) : Verifies6 e.reply.bytes 2 := by
  have hfits := e.fits
  have hlen : e.reply.bytes.length = 40 + e.payloadLen := e.reply.length_bytes
  obtain ⟨post, hpost⟩ : ∃ post, e.reply.bytes = e.start ++ (e.dst.1 ++ (e.src.1 ++ post)) := by
    refine ⟨e.reply.msg.bytes, ?_⟩
    simp only [Icmp.Echo6.bytes, Icmp.Echo6.header, List.append_assoc]
    rfl
  obtain ⟨hversion, htotal, hnext⟩ := e.read_header (e.dst.1 ++ (e.src.1 ++ post))
  have hsrcAt : slice e.reply.bytes 8 16 = e.dst.1 := by
    rw [hpost]
    exact slice_middle e.length_start e.dst.2
  have hdstAt : slice e.reply.bytes 24 16 = e.src.1 := by
    rw [hpost, ← List.append_assoc]
    exact slice_middle (by rw [List.length_append, e.length_start, e.dst.2]) e.src.2
  rw [← hpost] at hversion htotal hnext
  have hdrop : e.reply.bytes.drop 40 = e.reply.msg.bytes := List.drop_left' e.reply.length_header
  -- the pseudo-header of the reply, before its checksum is made and after
  obtain ⟨ph, hph⟩ : ∃ ph, ph = e.dst.1 ++ e.src.1 ++ be16 (e.payloadLen / 65536) ++
    be16 e.payloadLen ++ [0, 0, 0, Icmp.nextHdrIcmpv6] := ⟨_, rfl⟩
  have hphLen : ph.length = 40 := by
    simp only [hph, List.length_append, e.dst.2, e.src.2, be16, List.length_cons, List.length_nil]
  have hlenReply : e.reply.msg.bytes.length = e.payloadLen := e.reply.msg.length_bytes
  have hpseudo : pseudo6 e.reply.bytes = ph := by
    rw [pseudo6, hsrcAt, hdstAt, hdrop, hlenReply, hnext, hph]
  have hlenCleared : (e.msg.retyped Icmp.icmpv6EchoReply).bytes.length = e.payloadLen :=
    (e.msg.retyped Icmp.icmpv6EchoReply).length_bytes
  have hpayload : e.payloadLen = 8 + e.msg.data.length := rfl
  have hbody : e.msg.body.length = 4 + e.msg.data.length := by
    simp only [Icmp.Message.body, List.length_append, e.msg.id.2, e.msg.seq.2]
    omega
  have hhead : (ph ++ [Icmp.icmpv6EchoReply, e.msg.code]).length = 42 := by
    rw [List.length_append, hphLen]
    rfl
  have hsum := icmpv6Checksum_eq e.dst.2 e.src.2 (e.msg.retyped Icmp.icmpv6EchoReply).bytes
  rw [hlenCleared, ← hph] at hsum
  have hverifies := verifies_of_finish (ph ++ [Icmp.icmpv6EchoReply, e.msg.code]) e.msg.body
    (by rw [hhead]) (by rw [hhead, hbody]; omega)
  refine ⟨hversion, by rw [htotal, hlen], ?_⟩
  rw [hpseudo, hdrop]
  rw [List.append_assoc, List.append_assoc, List.length_append, hphLen] at hverifies
  have hmsg : e.reply.msg.bytes = [Icmp.icmpv6EchoReply, e.msg.code] ++ (be16 (finish (sum16 (ph ++
      ([Icmp.icmpv6EchoReply, e.msg.code] ++ ([0, 0] ++ e.msg.body))) 0)) ++ e.msg.body) := by
    have hcleared : [Icmp.icmpv6EchoReply, e.msg.code] ++ ([0, 0] ++ e.msg.body) =
        (e.msg.retyped Icmp.icmpv6EchoReply).bytes := rfl
    rw [hcleared, ← hsum]
    rfl
  rw [hmsg]
  exact hverifies

/-! ### All of them -/

/-- **Every packet that is built verifies**: the sum of its IP header, and that of the
pseudo-header and what the packet carries, are all ones, for data of any length that a
packet can declare.  No sum overflows, neither where a field is made nor where it is
checked. -/
theorem builders_verify :
    (∀ (c : Conn) (flags : UInt8) (payload : List UInt8), 40 + payload.length ≤ 65535 →
      Verifies4 (c.segment flags payload) 16) ∧
    (∀ (c : Outbound.TcpClient) (flags : UInt8) (payload : List UInt8),
      40 + payload.length ≤ 65535 → Verifies4 (c.segment flags payload) 16) ∧
    (∀ (src dst : Ip) (sport dport : ℕ) (payload : List UInt8), 28 + payload.length ≤ 65535 →
      Verifies4 (Outbound.udpDatagram src dst sport dport payload) 6) ∧
    (∀ (src dst : Ip) (ident seq : ℕ) (payload : List UInt8), 28 + payload.length ≤ 65535 →
      Verifies4 (Outbound.icmpEchoRequest src dst ident seq payload) 2) ∧
    (∀ inner reply : List UInt8, Icmp.echoReply inner = some reply → Verifies4 reply 2) ∧
    ∀ inner reply : List UInt8, Icmp.echoReplyV6 inner = some reply → Verifies6 reply 2 := by
  refine ⟨?_, ?_, ?_, ?_, ?_, ?_⟩
  · intro c flags payload hlen
    rw [segment_eq_tcpSegment]
    exact tcpSegment_verifies _ _ _ _ _ _ _ hlen
  · intro c flags payload hlen
    exact tcpSegment_verifies _ _ _ _ _ _ _ hlen
  · intro src dst sport dport payload hlen
    exact udpDatagram_verifies src dst sport dport hlen
  · intro src dst ident seq payload hlen
    exact icmpEchoRequest_verifies src dst ident seq hlen
  · intro inner reply h
    obtain ⟨e, padding, rfl⟩ := Icmp.exists_of_echoReply h
    rw [e.echoReply_bytes] at h
    split_ifs at h with htype
    exact Option.some_inj.mp h ▸ echoReply_verifies e
  · intro inner reply h
    obtain ⟨e, padding, rfl⟩ := Icmp.exists_of_echoReplyV6 h
    rw [e.echoReplyV6_bytes] at h
    split_ifs at h with htype
    exact Option.some_inj.mp h ▸ echoReplyV6_verifies e

/-- A segment and a datagram, each of an odd length. -/
theorem builders_verify_odd :
    Verifies4 (Outbound.tcpSegment ⟨10, 0, 0, 1⟩ ⟨10, 0, 0, 2⟩ 4000 80 1 0 SYN [7]) 16 ∧
      Verifies4 (Outbound.udpDatagram ⟨10, 0, 0, 1⟩ ⟨10, 0, 0, 2⟩ 53 53 [1, 2, 3]) 6 :=
  ⟨builders_verify.2.1 ⟨⟨10, 0, 0, 1⟩, ⟨10, 0, 0, 2⟩, 4000, 80, 1, 0, [], [], false, false⟩ SYN
      [7] (by decide),
    builders_verify.2.2.1 _ _ 53 53 [1, 2, 3] (by decide)⟩

end Checksums
