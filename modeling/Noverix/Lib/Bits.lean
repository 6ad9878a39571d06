/-
  Bit maps stored in byte memory: bit `i` is bit `i % 8` of byte `i / 8`.
  `bitAt` is the test `(m[i / 8] >> (i % 8)) & 1`; `putBit` is the pair of
  updates `m[i / 8] |= 1 << (i % 8)` and `m[i / 8] &= ~(1 << (i % 8))`.
-/

import Noverix.Lib.Word
import Mathlib.Tactic.IntervalCases

namespace Noverix.Lib

/-- Bit `i` of the map. -/
def bitAt (m : Mem) (i : Nat) : Bool := (m (i / 8)).toBitVec.getLsbD (i % 8)

/-- The byte with only bit `k` set. -/
def bitMask (k : Nat) : UInt8 := 1 <<< UInt8.ofNat k

/-- Set (`v = true`) or clear bit `i` of the map. -/
def putBit (m : Mem) (i : Nat) (v : Bool) : Mem :=
  fun a =>
    if a = i / 8 then
      if v then m (i / 8) ||| bitMask (i % 8) else m (i / 8) &&& ~~~bitMask (i % 8)
    else m a

theorem getLsbD_bitMask {k j : Nat} (hk : k < 8) (hj : j < 8) :
    (bitMask k).toBitVec.getLsbD j = decide (j = k) := by
  interval_cases k <;> interval_cases j <;> decide

/-- Updating one bit of a map changes that bit and no other. -/
theorem bitAt_putBit (m : Mem) (i j : Nat) (v : Bool) :
    bitAt (putBit m i v) j = if j = i then v else bitAt m j := by
  have hi : i % 8 < 8 := Nat.mod_lt _ (by decide)
  have hj : j % 8 < 8 := Nat.mod_lt _ (by decide)
  unfold bitAt putBit
  by_cases hq : j / 8 = i / 8
  · rw [if_pos hq, hq]
    by_cases hji : j = i
    · subst hji
      cases v <;> simp [getLsbD_bitMask hj hj]
    have hne : j % 8 ≠ i % 8 := by omega
    have hmask : (bitMask (i % 8)).toBitVec.getLsbD (j % 8) = false := by
      rw [getLsbD_bitMask hi hj, decide_eq_false hne]
    rw [if_neg hji]
    cases v with
    | false =>
      rw [if_neg Bool.false_ne_true, UInt8.toBitVec_and, UInt8.toBitVec_not,
        BitVec.getLsbD_and, BitVec.getLsbD_not, hmask]
      simp [hj]
    | true =>
      rw [if_pos rfl, UInt8.toBitVec_or, BitVec.getLsbD_or, hmask, Bool.or_false]
  · rw [if_neg hq, if_neg (by rintro rfl; exact hq rfl)]

theorem bitAt_congr {m m' : Mem} {i : Nat} (h : m' (i / 8) = m (i / 8)) :
    bitAt m' i = bitAt m i := by
  unfold bitAt
  rw [h]

end Noverix.Lib
