/-
  The Internet checksum: `net_checksum` of net.c and `tcp_checksum` of tcp.c.

  Both add up machine words and fold the carries back in, so they compute modulo
  65535, with 0xFFFF for every multiple but the sum of nothing but zeros.  A field
  that holds the complement of the sum of the rest makes the whole sum 0xFFFF.
-/

import Noverix.Net.Packet

namespace Noverix.Net

open Lib

/-! ## The model -/

/-- What `net_checksum` adds up: the words, and the last byte of an odd length. -/
def byteSum (m : Mem) (off len : Nat) : Nat :=
  if len % 2 = 1 then sumWords m off (len / 2) + (m (off + len - 1)).toNat
  else sumWords m off (len / 2)

/-- A 32-bit sum once its carries are folded in. -/
def onesSum (sum : Nat) : UInt16 := UInt16.ofNat (foldCarry (foldCarry (sum % 2 ^ 32)))

/-- Store a `uint16_t` at `a`. -/
def storeLe16 (m : Mem) (a : Nat) (v : UInt16) : Mem := fun k =>
  if k = a then UInt8.ofNat v.toNat else if k = a + 1 then UInt8.ofNat (v.toNat / 256) else m k

/-- The local array `pseudo` of `tcp_checksum`.  The addresses are stored as they are given. -/
def pseudo (srcIp dstIp : UInt32) (tcpLen : UInt16) : Mem := fun k =>
  if k < 4 then wordByte srcIp.toNat k
  else if k < 8 then wordByte dstIp.toNat (k - 4)
  else if k = 9 then 6
  else if k = 10 then UInt8.ofNat (tcpLen.toNat / 256)
  else if k = 11 then UInt8.ofNat tcpLen.toNat
  else 0

/-- What `tcp_checksum` adds up for the segment at `off`. -/
def tcpSum (srcIp dstIp : UInt32) (m : Mem) (off : Nat) (tcpLen : UInt16) : Nat :=
  sumWords (pseudo srcIp dstIp tcpLen) 0 6 + byteSum m off tcpLen.toNat

def tcpChecksum (srcIp dstIp : UInt32) (m : Mem) (off : Nat) (tcpLen : UInt16) : UInt16 :=
  ~~~ onesSum (tcpSum srcIp dstIp m off tcpLen)

/-- The offset of `checksum` in `tcp_hdr_t`. -/
abbrev tcpChecksumOff : Nat := 16

theorem netChecksum_eq (m : Mem) (off len : Nat) :
    netChecksum m off len = ~~~ onesSum (byteSum m off len) := rfl

/-! ## Sums -/

section

variable {m m' : Mem} {off len n j : Nat} {v : UInt16}

theorem le16_toNat (m : Mem) (a : Nat) :
    (le16 m a).toNat = (m a).toNat + 256 * (m (a + 1)).toNat := by
  have h0 := toNat_lt_256 (m a)
  have h1 := toNat_lt_256 (m (a + 1))
  show ((m a).toNat + 256 * (m (a + 1)).toNat) % 65536 = _
  omega

theorem sumWords_le (m : Mem) (off n : Nat) : sumWords m off n ≤ n * 65535 := by
  induction n with
  | zero => exact le_rfl
  | succ n ih =>
    have hword := (le16 m (off + 2 * n)).toNat_lt
    unfold sumWords
    omega

theorem byteSum_lt (m : Mem) (off : Nat) (h : len ≤ 65535) : byteSum m off len < 2 ^ 31 := by
  have hwords := sumWords_le m off (len / 2)
  have hbyte := toNat_lt_256 (m (off + len - 1))
  unfold byteSum
  split <;> omega

theorem sumWords_congr (h : ∀ k < 2 * n, m' (off + k) = m (off + k)) :
    sumWords m' off n = sumWords m off n := by
  induction n with
  | zero => rfl
  | succ n ih =>
    have h0 := h (2 * n) (by omega)
    have h1 : m' (off + 2 * n + 1) = m (off + 2 * n + 1) := h (2 * n + 1) (by omega)
    rw [sumWords, sumWords, ih fun k hk => h k (by omega)]
    unfold le16
    rw [h0, h1]

theorem storeLe16_of_ne {a k : Nat} (h : k ≠ a ∧ k ≠ a + 1) : storeLe16 m a v k = m k := by
  unfold storeLe16
  rw [if_neg h.1, if_neg h.2]

theorem le16_storeLe16 (m : Mem) (a : Nat) (v : UInt16) :
    (le16 (storeLe16 m a v) a).toNat = v.toNat := by
  have hv := v.toNat_lt
  rw [le16_toNat]
  unfold storeLe16
  rw [if_pos rfl, if_neg (by omega), if_pos rfl]
  show v.toNat % 256 + 256 * (v.toNat / 256 % 256) = _
  omega

theorem sumWords_storeLe16 (hzero : le16 m (off + 2 * j) = 0) (hj : j < n) :
    sumWords (storeLe16 m (off + 2 * j) v) off n = sumWords m off n + v.toNat := by
  induction n with
  | zero => exact absurd hj (Nat.not_lt_zero j)
  | succ n ih =>
    rw [sumWords, sumWords]
    rcases Nat.lt_succ_iff_lt_or_eq.mp hj with hlt | rfl
    · have hsame : le16 (storeLe16 m (off + 2 * j) v) (off + 2 * n) = le16 m (off + 2 * n) := by
        unfold le16
        rw [storeLe16_of_ne (by omega), storeLe16_of_ne (by omega)]
      rw [ih hlt, hsame]
      omega
    have hbelow : sumWords (storeLe16 m (off + 2 * j) v) off j = sumWords m off j :=
      sumWords_congr fun k hk => storeLe16_of_ne (by omega)
    rw [hbelow, le16_storeLe16, hzero]
    rfl

theorem byteSum_storeLe16 (hzero : le16 m (off + 2 * j) = 0) (hj : 2 * j + 2 ≤ len) :
    byteSum (storeLe16 m (off + 2 * j) v) off len = byteSum m off len + v.toNat := by
  unfold byteSum
  rw [sumWords_storeLe16 hzero (by omega)]
  split
  · rw [storeLe16_of_ne (by omega)]
    omega
  · rfl

end

/-! ## Folding -/

variable {sum : Nat}

/-- The folded sum: 0 for 0, and the representative between 1 and 0xFFFF of any other. -/
theorem onesSum_toNat (h : sum < 2 ^ 32) :
    (onesSum sum).toNat = if sum = 0 then 0 else (sum - 1) % 65535 + 1 := by
  have hfold := foldCarry_twice h
  unfold onesSum
  rw [mod_eq_of_lt h, UInt16.toNat_ofNat', mod_eq_of_lt hfold]
  unfold foldCarry
  split_ifs <;> omega

theorem onesSum_add_not (h : sum + 65535 < 2 ^ 32) :
    onesSum (sum + (~~~ onesSum sum).toNat) = 0xFFFF := by
  have hnot : (~~~ onesSum sum).toNat = 65535 - (onesSum sum).toNat := by
    rw [UInt16.toNat_not]
    rfl
  have hsum := onesSum_toNat (show sum < 2 ^ 32 by omega)
  rw [← UInt16.toNat_inj, onesSum_toNat (by omega), hnot, hsum]
  show _ = 65535
  split_ifs <;> omega

/-! ## Checksums verify -/

/-- A checksum that is stored verifies, no addition on the way overflows, and two rounds of
    either folding loop leave nothing to fold: for `net_checksum`, with the field at any even
    offset inside the buffer, and for `tcp_checksum`. -/
theorem checksums_verify (m : Mem) (off : Nat) :
    (∀ len j : Nat, 1 ≤ len → len ≤ 65535 → 2 * j + 2 ≤ len → le16 m (off + 2 * j) = 0 →
      netChecksum (storeLe16 m (off + 2 * j) (netChecksum m off len)) off len = 0 ∧
      (∀ k ≤ len / 2, sumWords m off k < 2 ^ 32) ∧ byteSum m off len < 2 ^ 32 ∧
      foldCarry (foldCarry (byteSum m off len)) < 2 ^ 16) ∧
    ∀ (srcIp dstIp : UInt32) (tcpLen : UInt16), tcpChecksumOff + 2 ≤ tcpLen.toNat →
      le16 m (off + tcpChecksumOff) = 0 →
      onesSum (tcpSum srcIp dstIp (storeLe16 m (off + tcpChecksumOff)
        (tcpChecksum srcIp dstIp m off tcpLen)) off tcpLen) = 0xFFFF ∧
      (∀ k ≤ 6, sumWords (pseudo srcIp dstIp tcpLen) 0 k < 2 ^ 32) ∧
      (∀ k ≤ tcpLen.toNat / 2,
        sumWords (pseudo srcIp dstIp tcpLen) 0 6 + sumWords m off k < 2 ^ 32) ∧
      tcpSum srcIp dstIp m off tcpLen < 2 ^ 32 ∧
      foldCarry (foldCarry (tcpSum srcIp dstIp m off tcpLen)) < 2 ^ 16 := by
  have hwords : ∀ (m : Mem) (off : Nat) {k n : Nat}, k ≤ n → sumWords m off k ≤ n * 65535 :=
    fun m off k n hk => Nat.le_trans (sumWords_le m off k) (Nat.mul_le_mul_right _ hk)
  refine ⟨fun len j _ hlen hj hzero => ?_, fun srcIp dstIp tcpLen hlen hzero => ?_⟩
  · have hsum := byteSum_lt m off hlen
    refine ⟨?_, fun k hk => ?_, by omega, foldCarry_twice (by omega)⟩
    · rw [netChecksum_eq, byteSum_storeLe16 hzero hj, netChecksum_eq, onesSum_add_not (by omega)]
      rfl
    · have := hwords m off (show k ≤ 32767 by omega)
      omega
  · have hlt := tcpLen.toNat_lt
    have hpseudo := hwords (pseudo srcIp dstIp tcpLen) 0 (Nat.le_refl 6)
    have hsum := byteSum_lt m off (show tcpLen.toNat ≤ 65535 by omega)
    have htotal : tcpSum srcIp dstIp m off tcpLen + 65535 < 2 ^ 32 := by
      unfold tcpSum
      omega
    refine ⟨?_, fun k hk => ?_, fun k hk => ?_, by omega, foldCarry_twice (by omega)⟩
    · have hstored : tcpSum srcIp dstIp (storeLe16 m (off + tcpChecksumOff)
          (tcpChecksum srcIp dstIp m off tcpLen)) off tcpLen
            = tcpSum srcIp dstIp m off tcpLen + (tcpChecksum srcIp dstIp m off tcpLen).toNat := by
        have hfield := byteSum_storeLe16 (j := 8) (v := tcpChecksum srcIp dstIp m off tcpLen) hzero
          hlen
        unfold tcpSum
        rw [hfield]
        omega
      rw [hstored]
      exact onesSum_add_not htotal
    · have := hwords (pseudo srcIp dstIp tcpLen) 0 hk
      omega
    · have := hwords m off (show k ≤ 32767 by omega)
      omega

/-- A message of nine bytes with its checksum in the second word. -/
theorem checksums_verify_nine :
    netChecksum (storeLe16 (fun k => if k = 2 ∨ k = 3 then 0 else 0xF0) (0 + 2 * 1)
      (netChecksum (fun k => if k = 2 ∨ k = 3 then 0 else 0xF0) 0 9)) 0 9 = 0 :=
  ((checksums_verify (fun k => if k = 2 ∨ k = 3 then 0 else 0xF0) 0).1 9 1 (by decide) (by decide)
    (by decide) (by decide)).1

end Noverix.Net
