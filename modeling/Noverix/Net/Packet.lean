/-
  Received frames as kernel/net reads them: big-endian fields, the Internet
  checksum, the validation of IPv4 in `net_parse_packet`, and the header checks
  with which `tcp_handle_packet` finds the segment in a frame.

  A frame is the receive buffer and the length `rtl8139_recv` reported for it.
  What lies in the buffer past that length is whatever was there before; the
  code is not kept from looking at it, so the buffer is a whole memory.
-/

import Noverix.Lib.Word

namespace Noverix.Net

open Lib

/-- A receive buffer and the length reported for it. -/
structure Frame where
  byte : Mem
  len : UInt16

/-! ## Fields -/

/-- A `uint16_t` at `off`, as the machine loads it. -/
def le16 (m : Mem) (off : Nat) : UInt16 := UInt16.ofNat ((m off).toNat + 256 * (m (off + 1)).toNat)

/-- `net_ntohs` of the `uint16_t` at `off`. -/
def be16 (m : Mem) (off : Nat) : UInt16 := UInt16.ofNat (256 * (m off).toNat + (m (off + 1)).toNat)

/-- `net_ntohl` of the `uint32_t` at `off`. -/
def be32 (m : Mem) (off : Nat) : UInt32 :=
  UInt32.ofNat (16777216 * (m off).toNat + 65536 * (m (off + 1)).toNat
    + 256 * (m (off + 2)).toNat + (m (off + 3)).toNat)

/-- The `n` bytes from `off` on. -/
def bytesAt (m : Mem) (off n : Nat) : List UInt8 := (List.range n).map fun k => m (off + k)

@[simp] theorem length_bytesAt (m : Mem) (off n : Nat) : (bytesAt m off n).length = n := by
  simp [bytesAt]

abbrev ethArp : UInt16 := 0x0806
abbrev ethIp : UInt16 := 0x0800
abbrev ipIcmp : UInt8 := 1
abbrev ipTcp : UInt8 := 6
abbrev icmpEchoRep : UInt8 := 0

/-- `NET_HOST_IP`, 10.0.2.15. -/
abbrev netHostIp : UInt32 := 0x0A00020F
/-- `NET_GW_IP`, 10.0.2.2. -/
abbrev netGwIp : UInt32 := 0x0A000202
abbrev netNetmask : UInt32 := 0xFFFFFF00

/-! ## The checksum -/

/-- The sum of `n` machine words from `off` on. -/
def sumWords (m : Mem) (off : Nat) : Nat → Nat
  | 0 => 0
  | n + 1 => sumWords m off n + (le16 m (off + 2 * n)).toNat

/-- One round of `while (sum >> 16) sum = (sum & 0xFFFF) + (sum >> 16)`. -/
def foldCarry (sum : Nat) : Nat := if 65536 ≤ sum then sum % 65536 + sum / 65536 else sum

/-- The loop ends after two rounds, whatever the 32-bit sum. -/
theorem foldCarry_twice {sum : Nat} (h : sum < 2 ^ 32) : foldCarry (foldCarry sum) < 65536 := by
  unfold foldCarry
  split_ifs <;> omega

/-- `net_checksum` of the `len` bytes at `off`. -/
def netChecksum (m : Mem) (off len : Nat) : UInt16 :=
  let words := sumWords m off (len / 2)
  let sum := if len % 2 = 1 then words + (m (off + len - 1)).toNat else words
  ~~~ UInt16.ofNat (foldCarry (foldCarry (sum % 2 ^ 32)))

/-! ## IPv4 -/

/-- `ip_hlen`, in bytes. -/
def Frame.ipHlen (f : Frame) : Nat := (f.byte 14 &&& 0x0F).toNat * 4

/-- `ip->total_len`. -/
def Frame.ipTotal (f : Frame) : Nat := (be16 f.byte 16).toNat

/-- The fields of the IPv4 header that say where a packet comes from and goes to. -/
def Frame.srcIp (f : Frame) : UInt32 := be32 f.byte 26
def Frame.dstIp (f : Frame) : UInt32 := be32 f.byte 30

/-- The checks of `net_parse_packet` on a frame of type `ETH_IP`: length, version, header
    length, total length, fragmentation, checksum. -/
def Frame.ipValid (f : Frame) : Bool :=
  34 ≤ f.len.toNat
    && f.byte 14 >>> 4 == 4
    && 20 ≤ f.ipHlen
    && 14 + f.ipHlen ≤ f.len.toNat
    && f.ipHlen ≤ f.ipTotal && 14 + f.ipTotal ≤ f.len.toNat
    -- `flags_frag` is masked as loaded, before any byte swap
    && le16 f.byte 20 &&& 0x3F == 0
    && netChecksum f.byte 14 f.ipHlen == 0

/-- The frames that `net_parse_packet` hands to `tcp_handle_packet`. -/
def Frame.isTcp (f : Frame) : Bool :=
  14 ≤ f.len && be16 f.byte 12 == ethIp && f.ipValid && f.byte 23 == ipTcp
    && 14 + f.ipHlen + 20 ≤ f.len.toNat

/-! ## TCP segments -/

abbrev tcpFlagFin : UInt8 := 0x01
abbrev tcpFlagSyn : UInt8 := 0x02
abbrev tcpFlagRst : UInt8 := 0x04
abbrev tcpFlagPsh : UInt8 := 0x08
abbrev tcpFlagAck : UInt8 := 0x10

/-- What `tcp_handle_packet` reads of a segment. -/
structure RxSegment where
  srcPort : UInt16
  dstPort : UInt16
  seq : UInt32
  ack : UInt32
  flags : UInt8
  window : UInt16
  data : List UInt8
deriving DecidableEq, Repr

namespace RxSegment

def isFin (seg : RxSegment) : Bool := seg.flags &&& tcpFlagFin != 0
def isSyn (seg : RxSegment) : Bool := seg.flags &&& tcpFlagSyn != 0
def isRst (seg : RxSegment) : Bool := seg.flags &&& tcpFlagRst != 0
def isAck (seg : RxSegment) : Bool := seg.flags &&& tcpFlagAck != 0

end RxSegment

def Frame.tcpOff (f : Frame) : Nat := 14 + f.ipHlen

def Frame.tcpHlen (f : Frame) : Nat := ((f.byte (f.tcpOff + 12) >>> 4) &&& 0x0F).toNat * 4

/-- The TCP header at `tcp_off`, with the data that follows it up to the end of the IP
    packet.  The frame may be longer. -/
def Frame.tcpFields (f : Frame) : RxSegment where
  srcPort := be16 f.byte f.tcpOff
  dstPort := be16 f.byte (f.tcpOff + 2)
  seq := be32 f.byte (f.tcpOff + 4)
  ack := be32 f.byte (f.tcpOff + 8)
  flags := f.byte (f.tcpOff + 13)
  window := be16 f.byte (f.tcpOff + 14)
  data := bytesAt f.byte (f.tcpOff + f.tcpHlen) (14 + f.ipTotal - f.tcpOff - f.tcpHlen)

/-- The segment in a frame, if it passes the header checks of `tcp_handle_packet`. -/
def Frame.segment (f : Frame) : Option RxSegment :=
  if 20 ≤ f.ipHlen ∧ f.tcpOff + 20 ≤ f.len.toNat ∧ 14 + f.ipTotal ≤ f.len.toNat ∧
      20 ≤ f.tcpHlen ∧ f.tcpOff + f.tcpHlen ≤ 14 + f.ipTotal then
    some f.tcpFields
  else none

end Noverix.Net
