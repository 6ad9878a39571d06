/-
  Byte-addressed memory and 32-bit little-endian words.

  A memory is a total function from byte addresses to bytes.  `load32` and
  `store32` are the 32-bit accesses of a little-endian machine; `u32` is the
  wrap-around of unsigned 32-bit arithmetic, and `asInt` is the conversion of
  an unsigned result to `int` that a caller then tests with `< 0`.
-/

import Noverix.Lib.Names
import Mathlib.Algebra.Group.Nat.Defs

namespace Noverix.Lib

/-- Byte-addressed memory. -/
abbrev Mem := Nat → UInt8

/-- Unsigned 32-bit wrap-around. -/
def u32 (n : Nat) : Nat := n % 2 ^ 32

/-- An unsigned value returned through an `int`: it is negative, and read as a
    failure by callers that test `< 0`, from `2^31` on. -/
def asInt (n : Nat) : Option Nat := if n < 2 ^ 31 then some n else none

theorem u32_lt (n : Nat) : u32 n < 2 ^ 32 := Nat.mod_lt _ (by decide)

variable {n : Nat}

theorem u32_of_lt (h : n < 2 ^ 32) : u32 n = n := mod_eq_of_lt h

theorem asInt_of_lt (h : n < 2 ^ 31) : asInt n = some n := if_pos h

theorem asInt_eq_some {n m : Nat} : asInt n = some m ↔ n < 2 ^ 31 ∧ n = m := by
  unfold asInt
  split
  · simp_all
  simp only [reduceCtorEq, false_iff, not_and]
  omega

/-! ## Little-endian words -/

/-- The 32-bit word stored at `a`. -/
def load32 (m : Mem) (a : Nat) : Nat :=
  (m a).toNat + 256 * (m (a + 1)).toNat + 65536 * (m (a + 2)).toNat
    + 16777216 * (m (a + 3)).toNat

/-- Byte `k` of a word. -/
def wordByte (v k : Nat) : UInt8 := UInt8.ofNat (v / 256 ^ k)

/-- Store the 32-bit word `v` at `a`. -/
def store32 (m : Mem) (a v : Nat) : Mem := fun i =>
  if a ≤ i ∧ i < a + 4 then wordByte v (i - a) else m i

theorem toNat_lt_256 (b : UInt8) : b.toNat < 256 := b.toNat_lt

theorem load32_lt (m : Mem) (a : Nat) : load32 m a < 2 ^ 32 := by
  have h0 := toNat_lt_256 (m a)
  have h1 := toNat_lt_256 (m (a + 1))
  have h2 := toNat_lt_256 (m (a + 2))
  have h3 := toNat_lt_256 (m (a + 3))
  unfold load32
  omega

/-- The four bytes of a word make the word again, up to wrap-around. -/
theorem wordByte_sum (v : Nat) :
    (wordByte v 0).toNat + 256 * (wordByte v 1).toNat + 65536 * (wordByte v 2).toNat
      + 16777216 * (wordByte v 3).toNat = v % 2 ^ 32 := by
  simp only [wordByte, UInt8.toNat_ofNat']
  omega

theorem load32_store32_same (m : Mem) (a v : Nat) :
    load32 (store32 m a v) a = v % 2 ^ 32 := by
  rw [← wordByte_sum v]
  unfold load32 store32
  rw [if_pos (by omega), if_pos (by omega), if_pos (by omega), if_pos (by omega)]
  simp only [Nat.sub_self, Nat.add_sub_cancel_left]

theorem store32_of_disjoint (m : Mem) {a v i : Nat} (h : i < a ∨ a + 4 ≤ i) :
    store32 m a v i = m i := by
  unfold store32
  rw [if_neg (by omega)]

variable {m m' : Mem}

theorem load32_shift {a b : Nat} (h : ∀ k < 4, m' (a + k) = m (b + k)) :
    load32 m' a = load32 m b := by
  have h0 : m' a = m b := h 0 (by decide)
  unfold load32
  rw [h0, h 1 (by decide), h 2 (by decide), h 3 (by decide)]

theorem load32_congr {a : Nat}
    (h : ∀ i, a ≤ i → i < a + 4 → m' i = m i) : load32 m' a = load32 m a :=
  load32_shift fun k hk => h (a + k) (by omega) (by omega)

theorem load32_store32_disjoint (m : Mem) {a b v : Nat} (h : b + 4 ≤ a ∨ a + 4 ≤ b) :
    load32 (store32 m a v) b = load32 m b :=
  load32_congr fun i h1 h2 => store32_of_disjoint m (by omega)

end Noverix.Lib
