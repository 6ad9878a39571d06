/-
  The IPv4 packets that `net_parse_packet` accepts, and what the padding behind
  them does.

  `flags_frag` is masked with 0x3F as loaded: of the fragment offset, which ends
  in the next byte, five of thirteen bits are looked at.  `handle_icmp` takes the
  length from the frame, so the bytes behind the packet are part of its checksum.
-/

import Noverix.Net.Checksum
import Noverix.Net.Isolation

namespace Noverix.Net

open Lib

/-! ## What is handed on -/

namespace Frame

/-- The frames of a protocol that `net_parse_packet` hands on, with `room` bytes behind the IP
    header. -/
def handed (f : Frame) (proto : UInt8) (room : Nat) : Bool :=
  14 ≤ f.len && be16 f.byte 12 == ethIp && f.ipValid && f.byte 23 == proto
    && 14 + f.ipHlen + room ≤ f.len.toNat

/-- The frames that `net_parse_packet` hands to `handle_icmp`. -/
def isIcmp (f : Frame) : Bool := f.handed ipIcmp 8

/-- The 13-bit fragment offset. -/
def fragmentOffset (f : Frame) : Nat := (be16 f.byte 20).toNat % 0x2000

/-- The more-fragments flag. -/
def moreFragments (f : Frame) : Bool := (be16 f.byte 20).toNat / 0x2000 % 2 = 1

end Frame

/-- An unfragmented IPv4 packet of protocol `proto`, with `room` bytes behind its header. -/
structure Ipv4Packet (f : Frame) (proto : UInt8) (room : Nat) : Prop where
  etherType : be16 f.byte 12 = 0x0800
  version : f.byte 14 >>> 4 = 4
  header : 20 ≤ f.ipHlen ∧ f.ipHlen ≤ f.ipTotal
  total : f.ipTotal + 14 ≤ f.len.toNat
  checksum : onesSum (byteSum f.byte 14 f.ipHlen) = 0xFFFF
  last : f.moreFragments = false
  first : f.fragmentOffset = 0
  protocol : f.byte 23 = proto
  payload : 14 + f.ipHlen + room ≤ f.len.toNat

section

variable {f : Frame} {proto : UInt8} {room : Nat}

theorem netChecksum_eq_zero (m : Mem) (off len : Nat) :
    netChecksum m off len = 0 ↔ onesSum (byteSum m off len) = 0xFFFF := by
  rw [netChecksum_eq]
  constructor
  · intro h
    rw [← UInt16.not_not (a := onesSum _), h]
    rfl
  · intro h
    rw [h]
    rfl

/-- The mask reaches the flags and five bits of the offset; the other eight are the next byte. -/
theorem fragment_fields (f : Frame) :
    (f.moreFragments = false ∧ f.fragmentOffset = 0) ↔
      le16 f.byte 20 &&& 0x3F = 0 ∧ f.byte 21 = 0 := by
  have h0 := toNat_lt_256 (f.byte 20)
  have h1 := toNat_lt_256 (f.byte 21)
  have hbe : (be16 f.byte 20).toNat = 256 * (f.byte 20).toNat + (f.byte 21).toNat := by
    show (256 * (f.byte 20).toNat + (f.byte 21).toNat) % 65536 = _
    omega
  have hmask : (le16 f.byte 20 &&& 0x3F).toNat
      = ((f.byte 20).toNat + 256 * (f.byte 21).toNat) % 64 := by
    rw [UInt16.toNat_and, le16_toNat]
    exact Nat.and_two_pow_sub_one_eq_mod _ 6
  unfold Frame.moreFragments Frame.fragmentOffset
  rw [← UInt16.toNat_inj, ← UInt8.toNat_inj, hbe, hmask, decide_eq_false_iff_not]
  show _ ↔ _ = 0 ∧ _ = 0
  omega

/-- A frame that is handed on holds such a packet, but for the lower byte of the offset. -/
theorem ipv4Packet_iff : Ipv4Packet f proto room ↔ f.handed proto room = true ∧ f.byte 21 = 0 := by
  have hfragment := fragment_fields f
  simp only [Frame.handed, Frame.ipValid, Bool.and_eq_true, decide_eq_true_eq, beq_iff_eq,
    netChecksum_eq_zero]
  constructor
  · intro h
    obtain ⟨hmask, hlow⟩ := hfragment.mp ⟨h.last, h.first⟩
    obtain ⟨hmin, htotal⟩ := h.header
    have hend := h.total
    have hlen : 14 ≤ f.len := by
      rw [UInt16.le_iff_toNat_le]
      show 14 ≤ f.len.toNat
      omega
    refine ⟨⟨⟨⟨⟨hlen, h.etherType⟩, ?_⟩, h.protocol⟩, h.payload⟩, hlow⟩
    exact ⟨⟨⟨⟨⟨⟨⟨by omega, h.version⟩, hmin⟩, by omega⟩, htotal⟩, by omega⟩, hmask⟩, h.checksum⟩
  · rintro ⟨⟨⟨⟨⟨hlen, htype⟩, hvalid⟩, hproto⟩, hroom⟩, hlow⟩
    obtain ⟨⟨⟨⟨⟨⟨⟨h34, hversion⟩, hmin⟩, hhdr⟩, htotal⟩, hend⟩, hmask⟩, hsum⟩ := hvalid
    obtain ⟨hlast, hfirst⟩ := hfragment.mpr ⟨hmask, hlow⟩
    exact ⟨htype, hversion, ⟨hmin, htotal⟩, by omega, hsum, hlast, hfirst, hproto, hroom⟩

theorem netParsePacket_eq (tcp : Frame → NetM Unit) (f : Frame) :
    netParsePacket tcp f =
      if f.isIcmp then handleIcmp f
      else if f.isTcp then tcp f
      else if 14 ≤ f.len ∧ be16 f.byte 12 = ethArp ∧ 42 ≤ f.len.toNat then handleArp f
      else pure () := by
  have htypes : ethIp ≠ ethArp := by decide
  have hprotos : ipTcp ≠ ipIcmp := by decide
  simp only [Frame.isIcmp, Frame.handed, Frame.isTcp, Bool.and_eq_true, decide_eq_true_eq,
    beq_iff_eq]
  unfold netParsePacket
  by_cases hlen : 14 ≤ f.len
  · rw [if_neg (UInt16.not_lt.mpr hlen)]
    by_cases harp : be16 f.byte 12 = ethArp
    · simp only [hlen, harp, htypes.symm, if_true, true_and, false_and, if_false]
    rw [if_neg harp]
    by_cases hip : be16 f.byte 12 = ethIp
    · by_cases hvalid : f.ipValid = true
      · by_cases hproto : f.byte 23 = ipIcmp
        · simp only [hlen, hip, hvalid, hproto, hprotos.symm, htypes, if_true, true_and,
            false_and, if_false, and_true, and_false, Reactive.bind_pure_unit]
        simp only [hlen, hip, hvalid, hproto, htypes, if_true, true_and, false_and, if_false,
          and_false]
      simp only [hip, hvalid, htypes, if_true, false_and, and_false, if_false,
        Bool.false_eq_true]
    · simp only [hip, harp, false_and, and_false, if_false]
  rw [if_pos (UInt16.not_le.mp hlen)]
  simp only [hlen, false_and, if_false]

end

/-- The frames that `net_parse_packet` hands to `handle_icmp` and to `tcp_handle_packet` are the
    unfragmented IPv4 packets of the two protocols exactly where a frame that is handed on has
    a zero in the lower byte of its fragment offset. -/
theorem handed_packets_iff (f : Frame) :
    ((f.isIcmp = true ↔ Ipv4Packet f ipIcmp 8) ∧ (f.isTcp = true ↔ Ipv4Packet f ipTcp 20)) ↔
      (f.isIcmp = true ∨ f.isTcp = true → f.byte 21 = 0) := by
  have hicmp : Ipv4Packet f ipIcmp 8 ↔ f.isIcmp = true ∧ f.byte 21 = 0 := ipv4Packet_iff
  have htcp : Ipv4Packet f ipTcp 20 ↔ f.isTcp = true ∧ f.byte 21 = 0 := ipv4Packet_iff
  rw [hicmp, htcp]
  tauto

/-- An IPv4 packet with `rest` behind its header, in a frame with `padding` behind the packet. -/
def ipFrame (offset proto : UInt8) (sum : List UInt8) (rest padding : List UInt8) : Frame :=
  .ofBytes ([0, 0, 0, 0, 0, 0, 0, 0, 0, 0, 0, 0, 0x08, 0x00]
    ++ [0x45, 0, 0, UInt8.ofNat (20 + rest.length), 0, 0, 0, offset, 64, proto] ++ sum
    ++ [10, 0, 2, 2, 10, 0, 2, 15] ++ rest ++ padding)

/-- The last fragment of a datagram, at offset 8, is handed to `handle_icmp`. -/
theorem lastFragment_handed :
    (ipFrame 1 ipIcmp [0x62, 0xD0] [0, 0, 0xFF, 0xFF, 0, 0, 0, 0] []).isIcmp = true ∧
      ¬ Ipv4Packet (ipFrame 1 ipIcmp [0x62, 0xD0] [0, 0, 0xFF, 0xFF, 0, 0, 0, 0] []) ipIcmp 8 := by
  refine ⟨by decide +kernel, fun h => ?_⟩
  exact absurd h.first (by decide +kernel)

/-! ## Padding -/

/-- What `handle_icmp` writes. -/
def Stack.pingState (s : Stack) : Bool × UInt16 × UInt16 :=
  (s.pingReplyReceived, s.pingReplyId, s.pingReplySeq)

/-- The state once an echo reply, if it is one, has been noted. -/
def Stack.replied (s : Stack) : Option (UInt16 × UInt16) → Stack
  | none => s
  | some (id, seq) => { s with pingReplyId := id, pingReplySeq := seq, pingReplyReceived := true }

/-- The frame passes the checks of `net_parse_packet`. -/
def Frame.isIpv4 (f : Frame) : Bool := 14 ≤ f.len && be16 f.byte 12 == ethIp && f.ipValid

/-- The identifier and sequence number of the echo reply that `handle_icmp` sees in a frame.  All
    that the frame holds behind the IP header counts. -/
def Frame.echoReply (f : Frame) : Option (UInt16 × UInt16) :=
  if f.isIcmp && checkIcmpChecksum f (f.len.toNat - 14 - f.ipHlen) && f.byte f.tcpOff == icmpEchoRep
  then some (be16 f.byte (f.tcpOff + 4), be16 f.byte (f.tcpOff + 6)) else none

/-- Two frames with the same IPv4 packet. -/
structure SamePacket (f g : Frame) : Prop where
  left : f.isIpv4 = true
  right : g.isIpv4 = true
  bytes : ∀ k, k < 14 + f.ipTotal → g.byte k = f.byte k

/-- `net_parse_packet` does the same to the ping state, whatever happens meanwhile. -/
def SamePing (rounds : Nat) (f g : Frame) : Prop :=
  ∀ (ok : Stack → (q : Req) → q.Ans → Prop) (s : Stack) (v : Bool × UInt16 × UInt16),
    (∃ t, Outcome ok (netParsePacket (tcpHandlePacket rounds) f) s () t ∧ t.pingState = v) ↔
      ∃ t, Outcome ok (netParsePacket (tcpHandlePacket rounds) g) s () t ∧ t.pingState = v

/-- What the `d` bytes behind the first `n` of a message at `off` add to its sum. -/
def tailSum (m : Mem) (off n : Nat) : Nat → Nat
  | 0 => 0
  | d + 1 => tailSum m off n d + (if (n + d) % 2 = 1 then 256 else 1) * (m (off + n + d)).toNat

namespace Frame

/-- The sum of the ICMP message, as long as the IP header says and without its checksum. -/
def messageSum (f : Frame) : Nat := byteSum (icmpCleared f) f.tcpOff (f.ipTotal - f.ipHlen)

/-- What the bytes behind the packet add to it. -/
def paddingSum (f : Frame) : Nat :=
  tailSum f.byte f.tcpOff (f.ipTotal - f.ipHlen) (f.len.toNat - (14 + f.ipTotal))

/-- The checksum of the message is the one of message and padding together. -/
def PaddingFits (f : Frame) : Prop :=
  le16 f.byte (f.tcpOff + 2) = ~~~ onesSum (f.messageSum + f.paddingSum)

/-- All the bytes behind the IP header are an echo reply with the right checksum. -/
structure HoldsReply (f : Frame) : Prop where
  room : 14 + f.ipHlen + 8 ≤ f.len.toNat
  type : f.byte f.tcpOff = icmpEchoRep
  checksum : le16 f.byte (f.tcpOff + 2)
    = ~~~ onesSum (byteSum (icmpCleared f) f.tcpOff (f.len.toNat - 14 - f.ipHlen))

end Frame

section

variable {f g : Frame} {rounds : Nat} {ok : Stack → (q : Req) → q.Ans → Prop} {s t : Stack}

theorem Frame.header_of_isIpv4 (h : f.isIpv4 = true) :
    20 ≤ f.ipHlen ∧ f.ipHlen ≤ f.ipTotal ∧ 14 + f.ipTotal ≤ f.len.toNat := by
  simp only [Frame.isIpv4, Frame.ipValid, Bool.and_eq_true, decide_eq_true_eq] at h
  exact ⟨h.2.1.1.1.1.1.2, h.2.1.1.1.2, h.2.1.1.2⟩

theorem Frame.handed_of_isIpv4 (h : f.isIpv4 = true) {proto : UInt8} {room : Nat} :
    f.handed proto room = true ↔ f.byte 23 = proto ∧ 14 + f.ipHlen + room ≤ f.len.toNat := by
  have heq : f.handed proto room
      = (f.isIpv4 && f.byte 23 == proto && decide (14 + f.ipHlen + room ≤ f.len.toNat)) := rfl
  rw [heq, h, Bool.true_and, Bool.and_eq_true, beq_iff_eq, decide_eq_true_eq]

theorem SamePacket.fields (h : SamePacket f g) :
    g.ipHlen = f.ipHlen ∧ g.ipTotal = f.ipTotal ∧ g.tcpOff = f.tcpOff ∧ g.byte 23 = f.byte 23 := by
  obtain ⟨hmin, htotal, -⟩ := Frame.header_of_isIpv4 h.left
  have hlen : g.ipHlen = f.ipHlen := by
    unfold Frame.ipHlen
    rw [h.bytes 14 (by omega)]
  refine ⟨hlen, ?_, ?_, h.bytes 23 (by omega)⟩
  · unfold Frame.ipTotal be16
    rw [h.bytes 16 (by omega), h.bytes 17 (by omega)]
  · unfold Frame.tcpOff
    rw [hlen]

/-! ### ICMP -/

/-- Of an ICMP packet, `net_parse_packet` notes the echo reply. -/
theorem outcome_icmp (h : f.isIpv4 = true) (hproto : f.byte 23 = ipIcmp) :
    Outcome ok (netParsePacket (tcpHandlePacket rounds) f) s () t ↔ t = s.replied f.echoReply := by
  have htcp : f.isTcp = false := by
    have hne : (ipIcmp == ipTcp) = false := by decide
    rw [Frame.isTcp, hproto, hne, Bool.and_false, Bool.false_and]
  have harp : ¬ (14 ≤ f.len ∧ be16 f.byte 12 = ethArp ∧ 42 ≤ f.len.toNat) := by
    simp only [Frame.isIpv4, Bool.and_eq_true, beq_iff_eq] at h
    rw [h.1.2]
    exact fun hp => absurd hp.2.1 (by decide)
  obtain ⟨hmin, -⟩ := Frame.header_of_isIpv4 h
  rw [netParsePacket_eq, htcp, if_neg harp]
  unfold Frame.echoReply
  cases hicmp : f.isIcmp with
  | false => exact and_iff_right rfl
  | true =>
    obtain ⟨-, hroom⟩ := (Frame.handed_of_isIpv4 h).mp hicmp
    have hlen : u32 (f.len.toNat + 2 ^ 32 - 14 - f.ipHlen) = f.len.toNat - 14 - f.ipHlen := by
      have := f.len.toNat_lt
      unfold u32
      omega
    simp only [if_true, Bool.true_and]
    unfold handleIcmp
    rw [if_neg (by omega)]
    simp only [hlen]
    rw [if_neg (by omega)]
    by_cases hsum : checkIcmpChecksum f (f.len.toNat - 14 - f.ipHlen) = true
    · by_cases hrep : f.byte f.tcpOff = icmpEchoRep
      · simp only [hsum, hrep, beq_self_eq_true, Bool.and_self, if_true]
        exact and_iff_right rfl
      simp only [hsum, hrep, if_true, if_false, Bool.true_and, beq_iff_eq]
      exact and_iff_right rfl
    simp only [hsum, Bool.false_eq_true, if_false, Bool.false_and]
    exact and_iff_right rfl

theorem replied_injective {r r' : Option (UInt16 × UInt16)}
    (h : (Stack.init.replied r).pingState = (Stack.init.replied r').pingState) : r = r' := by
  rcases r with _ | ⟨id, seq⟩ <;> rcases r' with _ | ⟨id', seq'⟩
  · rfl
  · cases h
  · cases h
  · obtain ⟨rfl, rfl⟩ : id = id' ∧ seq = seq' := by simpa [Stack.replied, Stack.pingState] using h
    rfl

/-! ### TCP -/

/-- A packet without room for a TCP header has no effect. -/
theorem outcome_short (hshort : 14 + f.ipTotal < f.tcpOff + 20) :
    Outcome ok (tcpHandlePacket rounds f) s () t ↔ t = s := by
  have hdone : f.tcpHlen < 20 ∨ 14 + f.ipTotal < f.tcpOff + f.tcpHlen := by omega
  unfold tcpHandlePacket tcpHandleVia
  split_ifs
  · exact and_iff_right rfl
  · exact and_iff_right rfl
  · exact and_iff_right rfl
  have hget : ∀ p : Stack → NetM Unit,
      Outcome ok (Reactive.getState >>= p) s () t ↔ Outcome ok (p s) s () t := fun _ => .rfl
  rw [hget]
  cases findSockByPort s (be16 f.byte (f.tcpOff + 2)) <;> exact and_iff_right rfl

section

variable (h : SamePacket f g) (hroom : f.tcpOff + 20 ≤ 14 + f.ipTotal)
include h hroom

theorem SamePacket.tcpFields_eq : g.tcpHlen = f.tcpHlen ∧ g.tcpFields = f.tcpFields := by
  obtain ⟨-, htotal, hoff, -⟩ := h.fields
  have hbyte : ∀ k < 20, g.byte (f.tcpOff + k) = f.byte (f.tcpOff + k) := fun k hk =>
    h.bytes _ (by omega)
  have h16 : ∀ k, k + 1 < 20 → be16 g.byte (f.tcpOff + k) = be16 f.byte (f.tcpOff + k) := by
    intro k hk
    unfold be16
    rw [hbyte k (by omega), Nat.add_assoc, hbyte (k + 1) hk]
  have h32 : ∀ k, k + 3 < 20 → be32 g.byte (f.tcpOff + k) = be32 f.byte (f.tcpOff + k) := by
    intro k hk
    have hnext : ∀ j < 4, g.byte (f.tcpOff + k + j) = f.byte (f.tcpOff + k + j) := fun j hj => by
      rw [Nat.add_assoc]
      exact hbyte (k + j) (by omega)
    unfold be32
    rw [hbyte k (by omega), hnext 1 (by decide), hnext 2 (by decide), hnext 3 (by decide)]
  have hhlen : g.tcpHlen = f.tcpHlen := by
    unfold Frame.tcpHlen
    rw [hoff, hbyte 12 (by decide)]
  refine ⟨hhlen, ?_⟩
  unfold Frame.tcpFields
  rw [hhlen, hoff, htotal]
  congr 1
  · exact h16 0 (by decide)
  · exact h16 2 (by decide)
  · exact h32 4 (by decide)
  · exact h32 8 (by decide)
  · exact hbyte 13 (by decide)
  · exact h16 14 (by decide)
  · refine map_congr_left fun k hk => h.bytes _ ?_
    have := mem_range.mp hk
    omega

theorem SamePacket.tcpHandlePacket_eq : tcpHandlePacket rounds g = tcpHandlePacket rounds f := by
  obtain ⟨hlen, htotal, hoff, -⟩ := h.fields
  obtain ⟨hhlen, hfields⟩ := h.tcpFields_eq hroom
  obtain ⟨hmin, -, hend⟩ := Frame.header_of_isIpv4 h.left
  obtain ⟨-, -, hend'⟩ := Frame.header_of_isIpv4 h.right
  rw [htotal] at hend'
  have hport : be16 g.byte (g.tcpOff + 2) = be16 f.byte (f.tcpOff + 2) :=
    congrArg RxSegment.dstPort hfields
  rw [hoff] at hport
  unfold tcpHandlePacket tcpHandleVia
  rw [hlen, hoff, htotal, hhlen, hfields, hport]
  rw [if_neg (show ¬ g.len.toNat < f.tcpOff + 20 by omega), if_neg (show ¬ g.len.toNat < _ by omega),
    if_neg (show ¬ f.len.toNat < f.tcpOff + 20 by omega), if_neg (show ¬ f.len.toNat < _ by omega)]

end

/-- Packets of other protocols than ICMP have the same effect in both frames. -/
theorem SamePacket.outcome_iff (h : SamePacket f g) (hproto : f.byte 23 ≠ ipIcmp) :
    Outcome ok (netParsePacket (tcpHandlePacket rounds) f) s () t ↔
      Outcome ok (netParsePacket (tcpHandlePacket rounds) g) s () t := by
  -- what is left of `net_parse_packet`
  have hparse : ∀ {e : Frame}, e.isIpv4 = true → e.byte 23 ≠ ipIcmp →
      netParsePacket (tcpHandlePacket rounds) e
        = if e.isTcp then tcpHandlePacket rounds e else pure () := by
    intro e he hne
    have hicmp : e.isIcmp = false := by simp [Frame.isIcmp, Frame.handed, hne]
    have harp : ¬ (14 ≤ e.len ∧ be16 e.byte 12 = ethArp ∧ 42 ≤ e.len.toNat) := by
      simp only [Frame.isIpv4, Bool.and_eq_true, beq_iff_eq] at he
      rw [he.1.2]
      exact fun hp => absurd hp.2.1 (by decide)
    rw [netParsePacket_eq, hicmp, if_neg harp]
    rfl
  obtain ⟨hlen, htotal, hoff, hproto'⟩ := h.fields
  rw [hparse h.left hproto, hparse h.right (hproto' ▸ hproto)]
  by_cases hroom : f.tcpOff + 20 ≤ 14 + f.ipTotal
  · obtain ⟨-, -, hend⟩ := Frame.header_of_isIpv4 h.left
    obtain ⟨-, -, hend'⟩ := Frame.header_of_isIpv4 h.right
    have hoff' : f.tcpOff = 14 + f.ipHlen := rfl
    have htcp : ∀ {e : Frame}, e.isIpv4 = true → e.ipHlen = f.ipHlen → e.byte 23 = f.byte 23 →
        14 + f.ipTotal ≤ e.len.toNat → (e.isTcp = true ↔ f.byte 23 = ipTcp) := by
      intro e he hl hp hlong
      refine (Frame.handed_of_isIpv4 he).trans ?_
      rw [hl, hp]
      exact and_iff_left (by omega)
    simp only [htcp h.left rfl rfl hend, htcp h.right hlen hproto' (htotal ▸ hend'),
      h.tcpHandlePacket_eq hroom]
  have hnone : ∀ {e : Frame}, 14 + e.ipTotal < e.tcpOff + 20 →
      (Outcome ok (if e.isTcp then tcpHandlePacket rounds e else pure ()) s () t ↔ t = s) := by
    intro e hshort
    split
    · exact outcome_short hshort
    · exact and_iff_right rfl
  rw [hnone (not_le.mp hroom), hnone (by rw [htotal, hoff]; exact not_le.mp hroom)]

/-! ### Sums with padding -/

theorem byteSum_succ (m : Mem) (off len : Nat) :
    byteSum m off (len + 1) = byteSum m off len
      + (if len % 2 = 1 then 256 else 1) * (m (off + len)).toNat := by
  unfold byteSum
  by_cases hodd : len % 2 = 1
  · have hhalf : (len + 1) / 2 = len / 2 + 1 := by omega
    have hlow : off + 2 * (len / 2) = off + len - 1 := by omega
    have hhigh : off + len - 1 + 1 = off + len := by omega
    rw [if_neg (by omega), if_pos hodd, if_pos hodd, hhalf, sumWords, le16_toNat, hlow, hhigh]
    omega
  have hhalf : (len + 1) / 2 = len / 2 := by omega
  rw [if_pos (by omega), if_neg hodd, if_neg hodd, hhalf, Nat.one_mul]
  rfl

theorem byteSum_add (m : Mem) (off n d : Nat) :
    byteSum m off (n + d) = byteSum m off n + tailSum m off n d := by
  induction d with
  | zero => rfl
  | succ d ih =>
    rw [← Nat.add_assoc, byteSum_succ, ih, tailSum, Nat.add_assoc, Nat.add_assoc off]

theorem tailSum_congr {m m' : Mem} {off n : Nat} (h : ∀ k, m' (off + n + k) = m (off + n + k))
    (d : Nat) : tailSum m' off n d = tailSum m off n d := by
  induction d with
  | zero => rfl
  | succ d ih => rw [tailSum, tailSum, ih, h]

theorem byteSum_congr {m m' : Mem} {off len : Nat} (h : ∀ k < len, m' (off + k) = m (off + k)) :
    byteSum m' off len = byteSum m off len := by
  induction len with
  | zero => rfl
  | succ len ih => rw [byteSum_succ, byteSum_succ, ih fun k hk => h k (by omega), h len (by omega)]

/-- The carries of one part may be folded in first. -/
theorem onesSum_add_congr {a b c : Nat} (hb : a + b < 2 ^ 32) (hc : a + c < 2 ^ 32)
    (h : onesSum b = onesSum c) : onesSum (a + b) = onesSum (a + c) := by
  have hnat := congrArg UInt16.toNat h
  rw [onesSum_toNat (by omega), onesSum_toNat (by omega)] at hnat
  rw [← UInt16.toNat_inj, onesSum_toNat hb, onesSum_toNat hc]
  split_ifs at hnat ⊢ <;> omega

/-! ### Echo replies -/

theorem Frame.echoReply_of_not (h : f.isIpv4 = true) (hno : ¬ f.HoldsReply) : f.echoReply = none := by
  unfold Frame.echoReply
  refine if_neg fun hyes => hno ?_
  simp only [Bool.and_eq_true, beq_iff_eq, checkIcmpChecksum] at hyes
  exact ⟨((Frame.handed_of_isIpv4 h).mp hyes.1.1).2, hyes.2, hyes.1.2⟩

theorem Frame.echoReply_of_holds (h : f.isIpv4 = true) (hproto : f.byte 23 = ipIcmp)
    (hreply : f.HoldsReply) :
    f.echoReply = some (be16 f.byte (f.tcpOff + 4), be16 f.byte (f.tcpOff + 6)) := by
  unfold Frame.echoReply
  refine if_pos ?_
  simp only [Bool.and_eq_true, beq_iff_eq, checkIcmpChecksum]
  exact ⟨⟨(Frame.handed_of_isIpv4 h).mpr ⟨hproto, hreply.room⟩, hreply.checksum⟩, hreply.type⟩

/-- The frames hold no echo reply, or the same one. -/
theorem SamePacket.echoReply_eq_iff (h : SamePacket f g) (hproto : f.byte 23 = ipIcmp) :
    f.echoReply = g.echoReply ↔ (¬ f.HoldsReply ∧ ¬ g.HoldsReply) ∨
      (f.HoldsReply ∧ g.HoldsReply ∧ be16 f.byte (f.tcpOff + 4) = be16 g.byte (f.tcpOff + 4) ∧
        be16 f.byte (f.tcpOff + 6) = be16 g.byte (f.tcpOff + 6)) := by
  obtain ⟨-, -, hoff, hproto'⟩ := h.fields
  by_cases hf : f.HoldsReply <;> by_cases hg : g.HoldsReply
  · rw [Frame.echoReply_of_holds h.left hproto hf,
      Frame.echoReply_of_holds h.right (hproto'.trans hproto) hg, hoff]
    simp [hf, hg]
  · rw [Frame.echoReply_of_holds h.left hproto hf, Frame.echoReply_of_not h.right hg]
    simp [hf, hg]
  · rw [Frame.echoReply_of_not h.left hf,
      Frame.echoReply_of_holds h.right (hproto'.trans hproto) hg]
    simp [hf, hg]
  · rw [Frame.echoReply_of_not h.left hf, Frame.echoReply_of_not h.right hg]
    simp [hf, hg]

theorem Frame.byteSum_padded (h : f.isIpv4 = true) (hroom : f.ipHlen + 8 ≤ f.ipTotal) :
    byteSum (icmpCleared f) f.tcpOff (f.len.toNat - 14 - f.ipHlen)
      = f.messageSum + f.paddingSum := by
  have hend := (Frame.header_of_isIpv4 h).2.2
  have hlen : f.len.toNat - 14 - f.ipHlen
      = f.ipTotal - f.ipHlen + (f.len.toNat - (14 + f.ipTotal)) := by omega
  -- the field is not in the padding
  have hcleared : ∀ k, icmpCleared f (f.tcpOff + (f.ipTotal - f.ipHlen) + k)
      = f.byte (f.tcpOff + (f.ipTotal - f.ipHlen) + k) := fun k => if_neg (by omega)
  have htail : tailSum (icmpCleared f) f.tcpOff (f.ipTotal - f.ipHlen)
      (f.len.toNat - (14 + f.ipTotal)) = f.paddingSum := tailSum_congr hcleared _
  rw [hlen, byteSum_add, htail]
  rfl

/-- With a whole ICMP header in the packet, the padding counts for the sum alone. -/
theorem Frame.holdsReply_iff (h : f.isIpv4 = true) (hroom : f.ipHlen + 8 ≤ f.ipTotal) :
    f.HoldsReply ↔ f.byte f.tcpOff = icmpEchoRep ∧ f.PaddingFits := by
  have hend := (Frame.header_of_isIpv4 h).2.2
  have hsum := Frame.byteSum_padded h hroom
  constructor
  · intro hreply
    refine ⟨hreply.type, ?_⟩
    rw [Frame.PaddingFits, ← hsum]
    exact hreply.checksum
  · rintro ⟨htype, hfits⟩
    refine ⟨by omega, htype, ?_⟩
    rw [hsum]
    exact hfits

theorem Frame.padded_lt (h : f.isIpv4 = true) (hroom : f.ipHlen + 8 ≤ f.ipTotal) :
    f.messageSum + f.paddingSum < 2 ^ 32 := by
  have hlen := f.len.toNat_lt
  have hlt := byteSum_lt (icmpCleared f) f.tcpOff (show f.len.toNat - 14 - f.ipHlen ≤ 65535 by omega)
  rw [Frame.byteSum_padded h hroom] at hlt
  omega

section

variable (h : SamePacket f g) (hroom : f.ipHlen + 8 ≤ f.ipTotal)
include h hroom

theorem SamePacket.icmp_fields :
    g.byte f.tcpOff = f.byte f.tcpOff ∧
      (∀ k, k + 1 < 8 → be16 g.byte (f.tcpOff + k) = be16 f.byte (f.tcpOff + k)) ∧
      le16 g.byte (f.tcpOff + 2) = le16 f.byte (f.tcpOff + 2) ∧ g.messageSum = f.messageSum := by
  obtain ⟨hlen, htotal, hoff, -⟩ := h.fields
  have hoff' : f.tcpOff = 14 + f.ipHlen := rfl
  have hbyte : ∀ k < 8, g.byte (f.tcpOff + k) = f.byte (f.tcpOff + k) := fun k hk =>
    h.bytes _ (by omega)
  refine ⟨hbyte 0 (by decide), fun k hk => ?_, ?_, ?_⟩
  · unfold be16
    rw [hbyte k (by omega), Nat.add_assoc, hbyte (k + 1) hk]
  · unfold le16
    rw [hbyte 2 (by decide), Nat.add_assoc, hbyte 3 (by decide)]
  · unfold Frame.messageSum
    rw [hlen, htotal, hoff]
    refine byteSum_congr fun k hk => ?_
    unfold icmpCleared
    rw [hoff, h.bytes _ (by omega)]

theorem SamePacket.echoReply_eq_iff_fits (hproto : f.byte 23 = ipIcmp) :
    f.echoReply = g.echoReply ↔
      f.byte f.tcpOff ≠ icmpEchoRep ∨ (f.PaddingFits ↔ g.PaddingFits) := by
  obtain ⟨hlen, htotal, hoff, -⟩ := h.fields
  obtain ⟨htype, h16, -, -⟩ := h.icmp_fields hroom
  rw [h.echoReply_eq_iff hproto, Frame.holdsReply_iff h.left hroom,
    Frame.holdsReply_iff h.right (by rw [hlen, htotal]; exact hroom), hoff, htype,
    h16 4 (by decide), h16 6 (by decide)]
  tauto

/-- Paddings with the same ones' complement sum fit the same messages. -/
theorem SamePacket.fits_iff (hsame : onesSum f.paddingSum = onesSum g.paddingSum) :
    f.PaddingFits ↔ g.PaddingFits := by
  obtain ⟨hlen, htotal, hoff, -⟩ := h.fields
  obtain ⟨-, -, hfield, hmessage⟩ := h.icmp_fields hroom
  have hlt := Frame.padded_lt h.right (by rw [hlen, htotal]; exact hroom)
  unfold Frame.PaddingFits
  rw [hmessage] at hlt
  rw [hoff, hfield, hmessage, onesSum_add_congr (Frame.padded_lt h.left hroom) hlt hsame]

end

theorem SamePacket.samePing_of_ne (h : SamePacket f g) (hproto : f.byte 23 ≠ ipIcmp) :
    SamePing rounds f g := fun ok s v => by
  simp only [h.outcome_iff hproto]

theorem SamePacket.samePing_iff (h : SamePacket f g) (hproto : f.byte 23 = ipIcmp) :
    SamePing rounds f g ↔ f.echoReply = g.echoReply := by
  obtain ⟨-, -, -, hproto'⟩ := h.fields
  have houtcome : ∀ {e : Frame}, e.isIpv4 = true → e.byte 23 = ipIcmp →
      ∀ (ok : Stack → (q : Req) → q.Ans → Prop) (s : Stack) (v : Bool × UInt16 × UInt16),
      (∃ t, Outcome ok (netParsePacket (tcpHandlePacket rounds) e) s () t ∧ t.pingState = v) ↔
        (s.replied e.echoReply).pingState = v := by
    intro e he hp ok s v
    simp only [outcome_icmp he hp, exists_eq_left]
  unfold SamePing
  simp only [houtcome h.left hproto, houtcome h.right (hproto'.trans hproto)]
  constructor
  · intro hsame
    exact replied_injective ((hsame (fun _ _ _ => True) Stack.init _).mpr rfl)
  · intro heq ok s v
    rw [heq]

/-- Where the protocol is not ICMP, any condition for ICMP may be left out. -/
theorem SamePacket.samePing_iff_or (h : SamePacket f g) {P : Prop}
    (hicmp : f.byte 23 = ipIcmp → (f.echoReply = g.echoReply ↔ P)) :
    SamePing rounds f g ↔ f.byte 23 ≠ ipIcmp ∨ P := by
  by_cases hproto : f.byte 23 = ipIcmp
  · rw [h.samePing_iff hproto, hicmp hproto]
    exact (or_iff_right (not_not.mpr hproto)).symm
  · exact iff_of_true (h.samePing_of_ne hproto) (.inl hproto)

end

/-- Two frames with the same packet that has a whole ICMP header have the same effect on the ping
    state exactly if it is no echo reply, or its checksum fits with both paddings or with neither;
    so it does if their ones' complement sums are the same.  A packet with less, which the padding
    completes, needs no echo reply or the same one in both frames. -/
theorem padding_ignored_iff (rounds : Nat) (f g : Frame) (h : SamePacket f g) :
    (f.ipHlen + 8 ≤ f.ipTotal → (SamePing rounds f g ↔ f.byte 23 ≠ ipIcmp ∨
      f.byte f.tcpOff ≠ icmpEchoRep ∨ (f.PaddingFits ↔ g.PaddingFits))) ∧
    (f.ipHlen + 8 ≤ f.ipTotal → onesSum f.paddingSum = onesSum g.paddingSum →
      SamePing rounds f g) ∧
    (f.ipTotal < f.ipHlen + 8 → (SamePing rounds f g ↔ f.byte 23 ≠ ipIcmp ∨
      (¬ f.HoldsReply ∧ ¬ g.HoldsReply) ∨
      (f.HoldsReply ∧ g.HoldsReply ∧ be16 f.byte (f.tcpOff + 4) = be16 g.byte (f.tcpOff + 4) ∧
        be16 f.byte (f.tcpOff + 6) = be16 g.byte (f.tcpOff + 6)))) := by
  refine ⟨fun hroom => ?_, fun hroom hsame => ?_, fun _ => ?_⟩
  · exact h.samePing_iff_or (h.echoReply_eq_iff_fits hroom)
  · exact (h.samePing_iff_or (h.echoReply_eq_iff_fits hroom)).mpr
      (.inr (.inr (h.fits_iff hroom hsame)))
  · exact h.samePing_iff_or h.echoReply_eq_iff

/-- An echo reply, as it was sent. -/
def echoFrame (padding : List UInt8) : Frame :=
  ipFrame 0 ipIcmp [0x62, 0xD1] [0, 0, 0xFE, 0xFE, 0, 1, 1, 0] padding

/-- The sum of the padding is 0xFFFF, which is nothing to the message. -/
theorem padding_ignored_iff_ones : (echoFrame []).echoReply = some (1, 256) ∧
    SamePing 0 (echoFrame []) (echoFrame [0xFF, 0xFF]) := by
  have hfits : (echoFrame []).PaddingFits ∧ (echoFrame [0xFF, 0xFF]).PaddingFits :=
    ⟨by unfold Frame.PaddingFits; decide +kernel, by unfold Frame.PaddingFits; decide +kernel⟩
  have hiff := (padding_ignored_iff 0 (echoFrame []) (echoFrame [0xFF, 0xFF])
    ⟨by decide +kernel, by decide +kernel, by decide +kernel⟩).1 (by decide +kernel)
  exact ⟨by decide +kernel, hiff.mpr (.inr (.inr (iff_of_true hfits.1 hfits.2)))⟩

/-- With a byte behind it that is not zero, the reply is not noted. -/
theorem padded_reply_dropped :
    SamePacket (echoFrame []) (echoFrame [0, 0, 1]) ∧ (echoFrame []).echoReply = some (1, 256) ∧
      (echoFrame [0, 0, 1]).echoReply = none ∧
      ¬ SamePing 0 (echoFrame []) (echoFrame [0, 0, 1]) := by
  have hsame : SamePacket (echoFrame []) (echoFrame [0, 0, 1]) :=
    ⟨by decide +kernel, by decide +kernel, by decide +kernel⟩
  have hreply : (echoFrame []).echoReply = some (1, 256) := by decide +kernel
  have hnone : (echoFrame [0, 0, 1]).echoReply = none := by decide +kernel
  refine ⟨hsame, hreply, hnone, fun hping => ?_⟩
  have heq := (hsame.samePing_iff (by decide +kernel)).mp hping
  rw [hreply, hnone] at heq
  cases heq

end Noverix.Net
