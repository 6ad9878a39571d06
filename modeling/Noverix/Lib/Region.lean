/-
  Regions of memory: what a piece of code leaves alone.

  `SameOutside m m' lo hi` says that two memories agree outside `[lo, hi)`.
  Loops that write bytes or words upwards from an address change nothing outside
  the region they walk, and leave in it what they wrote.
-/

import Noverix.Lib.Word

namespace Noverix.Lib

/-! ## Loops -/

/-- Copy `n` bytes from `s` to `d`, upwards and one at a time. -/
def copyBytes (m : Mem) (d s n : Nat) : Mem :=
  (List.range n).foldl (fun m k => Function.update m (u32 (d + k)) (m (u32 (s + k)))) m

/-- Set `n` bytes from `d` on to `v`. -/
def fillBytes (m : Mem) (d : Nat) (v : UInt8) (n : Nat) : Mem :=
  (List.range n).foldl (fun m k => Function.update m (u32 (d + k)) v) m

/-- Store `n` words from `base` on; round `i` stores `val m i`, for the memory `m` it finds. -/
def storeWords (m : Mem) (base : Nat) (val : Mem → Nat → Nat) (n : Nat) : Mem :=
  (List.range n).foldl (fun m i => store32 m (base + 4 * i) (val m i)) m

/-! ## What is left alone -/

/-- The two memories differ at most in `[lo, hi)`. -/
def SameOutside (m m' : Mem) (lo hi : Nat) : Prop := ∀ i, i < lo ∨ hi ≤ i → m' i = m i

section

variable {m m' m'' : Mem} {lo hi lo' hi' d s n : Nat}

theorem SameOutside.refl (m : Mem) (lo hi : Nat) : SameOutside m m lo hi := fun _ _ => rfl

theorem SameOutside.trans (h : SameOutside m m' lo hi) (h' : SameOutside m' m'' lo hi) :
    SameOutside m m'' lo hi := fun i hi => (h' i hi).trans (h i hi)

theorem SameOutside.mono (h : SameOutside m m' lo hi) (hlo : lo' ≤ lo) (hhi : hi ≤ hi') :
    SameOutside m m' lo' hi' := fun i hi => h i (by omega)

theorem sameOutside_store32 (m : Mem) (a v : Nat) : SameOutside m (store32 m a v) a (a + 4) :=
  fun _ hi => store32_of_disjoint m hi

/-- A loop that writes byte `d + k` in round `k`. -/
theorem sameOutside_foldl {val : Mem → Nat → UInt8} (h : d + n ≤ 2 ^ 32) :
    SameOutside m
      ((range n).foldl (fun m k => update m (u32 (d + k)) (val m k)) m) d (d + n) := by
  induction n with
  | zero => exact .refl m _ _
  | succ n ih =>
    rw [range_succ, foldl_append, foldl_cons, foldl_nil]
    intro i hi
    rw [u32_of_lt (by omega), update_of_ne (by omega)]
    exact ih (by omega) i (by omega)

theorem sameOutside_copyBytes (h : d + n ≤ 2 ^ 32) :
    SameOutside m (copyBytes m d s n) d (d + n) := sameOutside_foldl h

theorem copyBytes_read {k : Nat} (hd : d + n ≤ 2 ^ 32) (hs : s + n ≤ 2 ^ 32)
    (hapart : d + n ≤ s ∨ s + n ≤ d) (hk : k < n) : copyBytes m d s n (d + k) = m (s + k) := by
  induction n with
  | zero => exact absurd hk (Nat.not_lt_zero k)
  | succ n ih =>
    have hstep : copyBytes m d s (n + 1)
        = update (copyBytes m d s n) (u32 (d + n)) (copyBytes m d s n (u32 (s + n))) := by
      unfold copyBytes
      rw [range_succ, foldl_append, foldl_cons, foldl_nil]
    rw [hstep, u32_of_lt (by omega), u32_of_lt (by omega)]
    rcases Nat.lt_succ_iff_lt_or_eq.mp hk with hlt | rfl
    · rw [update_of_ne (by omega)]
      exact ih (by omega) (by omega) (by omega) hlt
    rw [update_self]
    exact sameOutside_copyBytes (by omega) _ (by omega)

theorem sameOutside_fillBytes {v : UInt8} (h : d + n ≤ 2 ^ 32) :
    SameOutside m (fillBytes m d v n) d (d + n) := sameOutside_foldl h

theorem storeWords_succ (m : Mem) (base : Nat) (val : Mem → Nat → Nat) (n : Nat) :
    storeWords m base val (n + 1)
      = store32 (storeWords m base val n) (base + 4 * n) (val (storeWords m base val n) n) := by
  unfold storeWords
  rw [range_succ, foldl_append, foldl_cons, foldl_nil]

theorem sameOutside_storeWords (m : Mem) (base : Nat) (val : Mem → Nat → Nat) (n : Nat) :
    SameOutside m (storeWords m base val n) base (base + 4 * n) := by
  induction n with
  | zero => exact .refl m _ _
  | succ n ih =>
    rw [storeWords_succ]
    refine (ih.mono le_rfl (by omega)).trans ?_
    exact SameOutside.mono (sameOutside_store32 _ _ _) (by omega) (by omega)

theorem load32_storeWords {base j : Nat} {val : Mem → Nat → Nat} {v : Nat → Nat}
    (hval : ∀ m', SameOutside m m' base (base + 4 * n) → ∀ i < n, val m' i = v i) (hj : j < n) :
    load32 (storeWords m base val n) (base + 4 * j) = v j % 2 ^ 32 := by
  -- rounds up to `k` have stored their words, later ones do not touch them
  suffices h : ∀ k ≤ n, j < k →
      load32 (storeWords m base val k) (base + 4 * j) = v j % 2 ^ 32 from h n le_rfl hj
  intro k
  induction k with
  | zero => exact fun _ hlt => absurd hlt (Nat.not_lt_zero j)
  | succ k ih =>
    intro hk hlt
    rw [storeWords_succ]
    rcases Nat.lt_succ_iff_lt_or_eq.mp hlt with hlt | rfl
    · rw [load32_store32_disjoint _ (by omega)]
      exact ih (by omega) hlt
    have hsame := (sameOutside_storeWords m base val j).mono le_rfl
      (show base + 4 * j ≤ base + 4 * n by omega)
    rw [load32_store32_same, hval _ hsame j hj]

theorem SameOutside.load32_eq {a : Nat} (h : SameOutside m m' lo hi) (ha : a + 4 ≤ lo ∨ hi ≤ a) :
    load32 m' a = load32 m a :=
  load32_congr fun i hlo hhi => h i (by omega)

end

end Noverix.Lib
