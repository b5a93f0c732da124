/-
# Echo replies

`icmp.rs`: the answer to a ping, over IPv4 and IPv6.
-/
import PySpell.TcpServer
import PySpell.Lib.Bytes

open Tcp Bytes

namespace Icmp

def protoIcmp : UInt8 := 1
def icmpEchoRequest : UInt8 := 8
def icmpEchoReply : UInt8 := 0
def nextHdrIcmpv6 : UInt8 := 58
def icmpv6EchoRequest : UInt8 := 128
def icmpv6EchoReply : UInt8 := 129

/-- The version of an IP packet: the upper half of its first byte. -/
def version (inner : List UInt8) : ℕ := (inner.getD 0 0).toNat / 16

/-- `checksum`. -/
def checksum (data : List UInt8) : ℕ := finish (sum16 data 0)

/-- The source and the destination, of `n` bytes each, change places. -/
def swapAddrs (pkt : List UInt8) (src dst n : ℕ) : List UInt8 :=
  let s := slice pkt src n
  let d := slice pkt dst n
  put (put pkt src d) dst s

/-- `echo_reply`. -/
def echoReply (inner : List UInt8) : Option (List UInt8) :=
  if inner.length < 20 ∨ version inner ≠ 4 then none
  else
    let ihl := (inner.getD 0 0).toNat % 16 * 4
    let totalLen := u16At inner 2
    if ihl < 20 ∨ totalLen < ihl ∨ inner.length < totalLen then none
    else if inner.getD 9 0 ≠ protoIcmp then none
    else
      let icmp := (inner.take totalLen).drop ihl
      if icmp.length < 8 ∨ icmp.getD 0 0 ≠ icmpEchoRequest then none
      else
        let pkt := swapAddrs (inner.take totalLen) 12 16 4
        let pkt := put pkt ihl [icmpEchoReply]
        let pkt := put pkt (ihl + 2) [0, 0]
        let pkt := put pkt (ihl + 2) (be16 (checksum (pkt.drop ihl)))
        let pkt := put pkt 10 [0, 0]
        some (put pkt 10 (be16 (checksum (pkt.take ihl))))

/-- `icmpv6_checksum`. -/
def icmpv6Checksum (src dst msg : List UInt8) : ℕ :=
  let sum := sum16 dst (sum16 src 0)
  let len := msg.length
  let sum := sum + len / 65536 % 65536 + len % 65536 + nextHdrIcmpv6.toNat
  finish (sum16 msg sum)

/-- `echo_reply_v6`. -/
def echoReplyV6 (inner : List UInt8) : Option (List UInt8) :=
  if inner.length < 40 ∨ version inner ≠ 6 ∨ inner.getD 6 0 ≠ nextHdrIcmpv6 then none
  else
    let payloadLen := u16At inner 4
    let total := 40 + payloadLen
    if payloadLen < 8 ∨ inner.length < total then none
    else if inner.getD 40 0 ≠ icmpv6EchoRequest then none
    else
      let pkt := swapAddrs (inner.take total) 8 24 16
      let pkt := put pkt 40 [icmpv6EchoReply]
      let pkt := put pkt 42 [0, 0]
      let csum := icmpv6Checksum (slice pkt 8 16) (slice pkt 24 16) (pkt.drop 40)
      some (put pkt 42 (be16 csum))

/-- `echo_reply_any`. -/
def echoReplyAny (inner : List UInt8) : Option (List UInt8) :=
  match inner with
  | [] => none
  | _ :: _ =>
    if version inner = 4 then echoReply inner
    else if version inner = 6 then echoReplyV6 inner
    else none

end Icmp
