/-
  What a block handed out by the heap holds, against what was asked for.

  `malloc_impl` refuses sizes above `HEAP_SIZE` before it rounds them up, and
  `calloc_impl` divides before it multiplies.  `realloc_impl` rounds up and adds
  the tags first: from `0xFFFFFFF5` on, what it needs wraps to at most 8, which
  every block has.
-/

import Noverix.Memory.HeapRuns

namespace Noverix.Memory

open Lib

/-- The bytes a call asks for. -/
def HeapCall.requested : HeapCall → Nat
  | .malloc size => size.toNat
  | .calloc num size => num.toNat * size.toNat
  | .realloc _ size => size.toNat
  | .free _ => 0

/-- The size can be rounded up, and the tags added, within 32 bits wherever nothing checks it
    first. -/
def HeapCall.Fits : HeapCall → Prop
  | .realloc ptr size => ptr = 0 ∨ size.toNat ≤ 0xFFFFFFF4
  | _ => True

section

variable {m m' : Mem} {out : List Nat} {bs : List Block} {p r size : Nat}

/-- Up to `0xFFFFFFF4` a block of the size needed holds the request. -/
theorem le_needOf_roundUp (h : size ≤ 0xFFFFFFF4) : size ≤ needOf (roundUp size) - 8 := by
  have hround : roundUp size = (size + 3) / 4 * 4 := by
    unfold roundUp
    rw [u32_of_lt (by omega)]
  have hneed := le_needOf (roundUp size) (by omega)
  omega

/-- From there on the size needed wraps. -/
theorem needOf_roundUp_wraps (h : 0xFFFFFFF4 < size) (hsize : size < 2 ^ 32) :
    needOf (roundUp size) = minBlock := by
  have hround : u32 (4 + roundUp size + 4) < minBlock := by
    show (4 + (size + 3) % 2 ^ 32 / 4 * 4 + 4) % 2 ^ 32 < 12
    omega
  show (if u32 (4 + roundUp size + 4) < minBlock then minBlock else _) = minBlock
  rw [if_pos hround]

section

variable (h : Heap m out bs)
include h

theorem Heap.capacity_write {hi : Nat} (hp : p ∈ out) (hsame : SameOutside m m' p hi) :
    capacity m' p = capacity m p := by
  have hin := h.chain.inside_of_mem (h.used.mem_iff.mp hp)
  unfold capacity sizeAt
  rw [hsame.load32_eq (.inl (by omega))]

theorem malloc_covers (heq : mallocImpl m size = some (r, m')) (hr : r ≠ 0) :
    size ≤ capacity m' r := by
  obtain ⟨-, -, hle, hcap⟩ := mallocImpl_ok h heq hr
  exact Nat.le_trans (roundUp_of_le hle).1 hcap

theorem calloc_covers {num : Nat} (heq : callocImpl m num size = some (r, m')) (hr : r ≠ 0) :
    num * size ≤ capacity m' r := by
  have hnone : some (0, m) = some (r, m') → False := fun hzero =>
    hr (congrArg Prod.fst (some.inj hzero)).symm
  unfold callocImpl at heq
  split at heq
  · exact (hnone heq).elim
  split at heq
  · exact (hnone heq).elim
  next hpos hdiv =>
  have hmul : u32 (num * size) = num * size := by
    have hle : num * size ≤ 0xFFFFFFFF :=
      Nat.le_trans (Nat.mul_le_mul_right size (not_lt.mp hdiv)) (Nat.div_mul_le_self _ _)
    exact u32_of_lt (by omega)
  rcases mallocImpl_spec h (u32 (num * size)) with hfail | ⟨q, m1, bs', hok, hq, hheap, -, hle, hcap⟩
  · simp only [hfail] at heq
    exact (hnone heq).elim
  simp only [hok, if_neg hq] at heq
  cases heq
  have htotal := Nat.le_trans (roundUp_of_le hle).1 hcap
  have hend := hheap.capacity_le mem_cons_self
  have hstart : heapStart + heapSize = 0xA00000 := rfl
  rw [hheap.capacity_write mem_cons_self (sameOutside_fillBytes (by omega)), ← hmul]
  exact htotal

/-- The block `realloc_impl` returns holds what was needed; what was needed is what was asked
    for unless it wrapped. -/
theorem realloc_covers_iff (hp : p ∈ out) (hsize : size < 2 ^ 32)
    (heq : reallocImpl m p size = some (r, m')) (hr : r ≠ 0) :
    size ≤ capacity m' r ↔ size ≤ 0xFFFFFFF4 := by
  have hheap : heapSize = 0x200000 := rfl
  have hstart : heapStart = 0x800000 := rfl
  obtain ⟨pre, b, post, rfl, hused, haddr⟩ := h.block_of_mem hp
  obtain ⟨hne, -, -, -, -, hmin, -⟩ := h.header_of_mem hused haddr
  have hpos : size ≠ 0 := by
    rintro rfl
    simp only [reallocImpl, if_neg hne, if_true] at heq
    exact hr (congrArg Prod.fst (some.inj heq)).symm
  obtain ⟨r', m'', heq', hdone⟩ := reallocImpl_spec h hused haddr hpos
  obtain ⟨rfl, rfl⟩ := Prod.mk.inj (some.inj (heq'.symm.trans heq))
  -- every block is smaller than a size that wraps
  have hbound : ∀ {m' : Mem} {out' : List Nat} {bs' : List Block} {q : Nat}, Heap m' out' bs' →
      q ∈ out' → size ≤ capacity m' q → size ≤ 0xFFFFFFF4 := by
    intro m' out' bs' q h' hq hle
    have hend := h'.capacity_le hq
    omega
  cases hdone with
  | cut hfit hrest hs =>
    have hcut := (h.cut hused haddr hs).1
    refine ⟨hbound hcut mem_cons_self, fun hle => ?_⟩
    rw [haddr]
    exact Nat.le_trans (le_needOf_roundUp hle) (hcut.carved_capacity hfit)
  | kept hfit hrest =>
    refine ⟨hbound h hp, fun hle => ?_⟩
    rw [h.capacity_eq haddr]
    exact Nat.le_trans (le_needOf_roundUp hle) (Nat.sub_le_sub_right hfit 8)
  | failed => exact absurd rfl hr
  | @moved _ n m1 hgrow hmalloc _ hn =>
    -- a size that wraps is never moved: every block has the size needed
    have hfits : size ≤ 0xFFFFFFF4 := by
      by_contra hwrap
      rw [needOf_roundUp_wraps (not_le.mp hwrap) hsize] at hgrow
      exact Nat.not_lt.mpr hmin hgrow
    refine iff_of_true ?_ hfits
    obtain ⟨⟨bs1, h1⟩, -, hle, hcap⟩ := mallocImpl_ok h hmalloc hr
    have hround : size ≤ roundUp size := by
      unfold roundUp
      rw [u32_of_lt (by omega)]
      omega
    have hcover := Nat.le_trans (roundUp_of_le hle).1 hcap
    have hend := h1.capacity_le mem_cons_self
    have hsame : SameOutside m1 (copyBytes m1 r' p n) r' (r' + n) :=
      sameOutside_copyBytes (by omega)
    -- the copy and the release leave the new block's tag
    have hkept := h1.capacity_write mem_cons_self hsame
    obtain ⟨hcopy, -⟩ := h1.write_new (Nat.le_trans hn hcover) hsame
    obtain ⟨-, -, hfree⟩ := freeImpl_spec hcopy (mem_cons_of_mem r' hp)
    have hrp : r' ≠ p := by
      rintro rfl
      exact (nodup_cons.mp h1.nodup).1 hp
    have hfreed : capacity (freeImpl (copyBytes m1 r' p n) p) r'
        = capacity (copyBytes m1 r' p n) r' := by
      unfold capacity
      rw [(hfree r' mem_cons_self hrp).size]
    rw [hfreed, hkept]
    omega

end

end

/-- In every history of the heap, whatever pointer a call returns, the payload of its block is at
    least what was asked for exactly if the request fits 32 bits with its tags: always for
    `malloc` and `calloc`, up to `0xFFFFFFF4` for `realloc` of a block. -/
theorem request_covered_iff (m₀ : Mem) (s : HeapHistory)
    (hs : Reach heapStep HeapAllowed ⟨heapInit m₀, []⟩ s) (c : HeapCall)
    (hc : HeapAllowed (.call c) s) (r : Nat) (m' : Mem) (hrun : c.run s.mem = some (r, m'))
    (hr : r ≠ 0) : c.requested ≤ capacity m' r ↔ c.Fits := by
  obtain ⟨bs, h⟩ := heap_of_reach hs
  cases c with
  | malloc size => exact iff_of_true (malloc_covers h hrun hr) trivial
  | calloc num size => exact iff_of_true (calloc_covers h hrun hr) trivial
  | realloc ptr size =>
    change reallocImpl s.mem ptr.toNat size.toNat = some (r, m') at hrun
    show size.toNat ≤ capacity m' r ↔ ptr = 0 ∨ size.toNat ≤ 0xFFFFFFF4
    rcases hc with hnull | hmem
    · change ptr.toNat = 0 at hnull
      have hptr : ptr = 0 := UInt32.toNat_inj.mp hnull
      rw [reallocImpl, if_pos hnull] at hrun
      exact iff_of_true (malloc_covers h hrun hr) (.inl hptr)
    obtain ⟨pre, b, post, rfl, hused, haddr⟩ := h.block_of_mem hmem
    have hne : ptr.toNat ≠ 0 := (h.header_of_mem hused haddr).1
    have hptr : ¬ ptr = 0 := fun hzero => hne (by rw [hzero]; rfl)
    rw [or_iff_right hptr]
    exact realloc_covers_iff h hmem size.toNat_lt hrun hr
  | free ptr => exact absurd (congrArg Prod.fst (Option.some.inj hrun)).symm hr

/-- `realloc` of the block to 40 bytes. -/
theorem request_covered_iff_oneBlock :
    oneBlock.out = [0x800004] ∧ ∃ r m', (HeapCall.realloc 0x800004 40).run oneBlock.mem = some (r, m') ∧
      r ≠ 0 ∧ 40 ≤ capacity m' r := by
  have hout : oneBlock.out = [0x800004] := by decide +kernel
  have hreach : Reach heapStep HeapAllowed ⟨heapInit fun _ => 0, []⟩ oneBlock :=
    .next (HeapOp.call (.malloc 10)) .start (Or.inl rfl)
  have hc : HeapAllowed (.call (.realloc 0x800004 40)) oneBlock := .inr (by rw [hout]; decide)
  have hrun : ((HeapCall.realloc 0x800004 40).run oneBlock.mem).map Prod.fst = some 0x800018 := by
    decide +kernel
  obtain ⟨⟨r, m'⟩, heq, hfst⟩ := map_eq_some_iff.mp hrun
  obtain rfl : r = 0x800018 := hfst
  refine ⟨hout, _, m', heq, by decide, ?_⟩
  exact (request_covered_iff (fun _ => 0) oneBlock hreach _ hc _ m' heq (by decide)).mpr
    (.inr (by decide))

/-- `realloc` of it to `0xFFFFFFFF` bytes returns the block as if 1 byte had been asked for. -/
theorem realloc_shrinks_to_grow :
    Reach heapStep HeapAllowed ⟨heapInit fun _ => 0, []⟩ oneBlock ∧
    HeapAllowed (.call (.realloc 0x800004 0xFFFFFFFF)) oneBlock ∧
    ((HeapCall.realloc 0x800004 0xFFFFFFFF).run oneBlock.mem).map
      (fun r => (r.1, capacity r.2 r.1)) = some (0x800004, 12) := by
  have hout : oneBlock.out = [0x800004] := by decide +kernel
  refine ⟨.next (HeapOp.call (.malloc 10)) .start (Or.inl rfl), .inr (by rw [hout]; decide), ?_⟩
  decide +kernel

end Noverix.Memory
