import Jerboa.Lib.Checksum

/-!
# Segmentation

`segmentTCPv4` of package `network`: the gateway's TCP makes packets that are larger than
the MTU, and they are split for ports that do not take them whole.  The fields of the
headers are read and written where RFC 791 and RFC 9293 have them, and checksums are
those of RFC 1071.
-/

namespace Jerboa.Native

open Lib Lib.Bytes Lib.Checksum

def ipv4MinimumSize : Nat := 20

def tcpMinimumSize : Nat := 20

def tcpProtocolNumber : Nat := 6

def ihl (pkt : List UInt8) : Nat := (pkt.getD 0 0).toNat % 16 * 4

def transportProtocol (pkt : List UInt8) : Nat := (pkt.getD 9 0).toNat

def dataOffset (tcp : List UInt8) : Nat := (tcp.getD 12 0).toNat / 16 * 4

def totalLength (pkt : List UInt8) : Nat := beNat (slice pkt 2 2)

def ipID (pkt : List UInt8) : Nat := beNat (slice pkt 4 2)

def sequenceNumber (pkt : List UInt8) : Nat := beNat (slice pkt (ihl pkt + 4) 4)

def tcpFlags (pkt : List UInt8) : UInt8 := pkt.getD (ihl pkt + 13) 0

def finPsh : UInt8 := 0x09

def cwr : UInt8 := 0x80

def headers (pkt : List UInt8) : Nat := ihl pkt + dataOffset (pkt.drop (ihl pkt))

/-- `PseudoHeaderChecksum` of TCP, for the addresses of the packet. -/
def pseudoHeaderChecksum (pkt : List UInt8) (length : Nat) : Nat :=
  checksum ([0] ++ [UInt8.ofNat tcpProtocolNumber])
    (checksum (beBytes 2 length) (checksum (slice pkt 16 4) (checksum (slice pkt 12 4) 0)))

def setIPv4 (pkt seg : List UInt8) (count : Nat) : List UInt8 :=
  let seg := put seg 2 (beBytes 2 seg.length)
  let seg := put seg 4 (beBytes 2 (ipID pkt + count))
  let seg := put seg 10 (beBytes 2 0)
  put seg 10 (beBytes 2 (complement (checksum (seg.take (ihl pkt)) 0)))

def segmentFlags (pkt : List UInt8) (first last : Bool) : UInt8 :=
  let flags := tcpFlags pkt
  let flags := if last then flags else flags &&& ~~~finPsh
  if first then flags else flags &&& ~~~cwr

def setTCP (pkt seg : List UInt8) (off : Nat) (first last : Bool) : List UInt8 :=
  let seg := put seg (ihl pkt + 4) (beBytes 4 (sequenceNumber pkt + off))
  let seg := put seg (ihl pkt + 13) [segmentFlags pkt first last]
  let seg := put seg (ihl pkt + 16) (beBytes 2 0)
  put seg (ihl pkt + 16) (beBytes 2 (complement
    (checksum (seg.drop (ihl pkt)) (pseudoHeaderChecksum seg (seg.length - ihl pkt)))))

def segment (pkt : List UInt8) (mss off count : Nat) : List UInt8 :=
  let payload := pkt.drop (headers pkt)
  let n := min mss (payload.length - off)
  let seg := pkt.take (headers pkt) ++ slice payload off n
  setTCP pkt (setIPv4 pkt seg count) off (off = 0) (payload.length ≤ off + n)

def segmentLoop (pkt : List UInt8) (mss : Nat) : Nat → Nat → Nat → List (List UInt8)
  | 0, _, _ => []
  | fuel + 1, off, count =>
    if off < (pkt.drop (headers pkt)).length then
      segment pkt mss off count :: segmentLoop pkt mss fuel (off + mss) (count + 1)
    else []

def segmentTCPv4 (pkt : List UInt8) (mss : Int) : List (List UInt8) :=
  if pkt.length < ipv4MinimumSize ∨ mss ≤ 0 then []
  else if transportProtocol pkt ≠ tcpProtocolNumber ∨ ihl pkt < ipv4MinimumSize ∨
      pkt.length < ihl pkt + tcpMinimumSize then []
  else if dataOffset (pkt.drop (ihl pkt)) < tcpMinimumSize ∨ pkt.length < headers pkt then []
  else segmentLoop pkt mss.toNat (pkt.drop (headers pkt)).length 0 0

end Jerboa.Native
