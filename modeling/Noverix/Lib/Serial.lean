/-
  Sequence numbers that wrap.

  A number is compared with another by how far it is ahead, modulo 2^32.  The
  lemmas read numbers as `base + UInt32.ofNat n`: as long as the offsets `n`
  of interest stay within 2^31 of each other, `gap` is their difference and
  `laterOf` their maximum.
-/

import Noverix.Lib.Names
import Mathlib.Algebra.Group.Nat.Defs

namespace Noverix.Lib

variable {base a b c d : UInt32} {m n : Nat}

/-- How far `b` is ahead of `a`. -/
def gap (a b : UInt32) : Nat := (b - a).toNat

/-- The one of two numbers that is ahead of the other. -/
def laterOf (a b : UInt32) : UInt32 := if gap a b < 2 ^ 31 then b else a

theorem add_gap (a b : UInt32) : a + UInt32.ofNat (gap a b) = b := by
  rw [gap, UInt32.ofNat_toNat, UInt32.add_comm, UInt32.sub_add_cancel]

@[simp] theorem gap_self (a : UInt32) : gap a a = 0 := by
  rw [gap, UInt32.sub_self]
  rfl

theorem gap_trans (h : gap a b ≤ gap a c) (h' : gap b d ≤ gap b c) : gap a d ≤ gap a c := by
  unfold gap at *
  simp only [UInt32.toNat_sub] at *
  have ha := a.toNat_lt
  have hb := b.toNat_lt
  have hc := c.toNat_lt
  have hd := d.toNat_lt
  omega

theorem offset_add (base : UInt32) (m k : Nat) :
    base + UInt32.ofNat m + UInt32.ofNat k = base + UInt32.ofNat (m + k) := by
  rw [UInt32.ofNat_add, UInt32.add_assoc]

theorem offset_inj : base + UInt32.ofNat m = base + UInt32.ofNat n ↔ m % 2 ^ 32 = n % 2 ^ 32 := by
  rw [← UInt32.toNat_inj]
  simp only [UInt32.toNat_add, UInt32.toNat_ofNat']
  omega

theorem gap_offset (base : UInt32) (h : m ≤ n) (hlt : n - m < 2 ^ 32) :
    gap (base + UInt32.ofNat m) (base + UInt32.ofNat n) = n - m := by
  unfold gap
  simp only [UInt32.toNat_sub, UInt32.toNat_add, UInt32.toNat_ofNat']
  omega

theorem gap_of_offset_eq (h : a + UInt32.ofNat m = b + UInt32.ofNat n) (hle : n ≤ m)
    (hlt : m < 2 ^ 32) : gap a b = m - n := by
  have hnat := congrArg UInt32.toNat h
  unfold gap
  simp only [UInt32.toNat_sub, UInt32.toNat_add, UInt32.toNat_ofNat'] at hnat ⊢
  have ha := a.toNat_lt
  have hb := b.toNat_lt
  omega

theorem gap_offset_behind (base : UInt32) (h : m < n) (hle : n - m < 2 ^ 32) :
    gap (base + UInt32.ofNat n) (base + UInt32.ofNat m) = 2 ^ 32 - (n - m) := by
  unfold gap
  simp only [UInt32.toNat_sub, UInt32.toNat_add, UInt32.toNat_ofNat']
  omega

theorem laterOf_offset (base : UInt32) (h : m < n + 2 ^ 31) (h' : n < m + 2 ^ 31) :
    laterOf (base + UInt32.ofNat m) (base + UInt32.ofNat n) = base + UInt32.ofNat (max m n) := by
  unfold laterOf
  by_cases hmn : m ≤ n
  · rw [gap_offset base hmn (by omega), if_pos (by omega), Nat.max_eq_right hmn]
  rw [gap_offset_behind base (by omega) (by omega), if_neg (by omega),
    Nat.max_eq_left (by omega)]

end Noverix.Lib
