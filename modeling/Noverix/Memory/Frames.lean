/-
  Whole histories of the page frame allocator.

  A history is the allocator together with the frames that have been handed out
  and not been given back.  At every point the bits that are set are those of
  the frames reserved at the start and of the outstanding frames; so a range
  that is handed out overlaps neither, and the free frames are the rest.

  What `pfa_init` does not reserve is handed out sooner or later.
-/

import Noverix.Memory.Pfa
import Noverix.Lib.Runs

namespace Noverix.Memory

open Lib

/-! ## Histories -/

/-- The allocator, and the frames outstanding. -/
structure History where
  pfa : Pfa
  out : Finset Nat

/-- The calls. -/
inductive Op where
  | allocFrame
  | allocFrames (count : UInt32)
  | freeFrame (addr : UInt32)
  | freeFrames (addr count : UInt32)

/-- The frames of a range. -/
def rangeOf (start n : Nat) : Finset Nat := Finset.Ico start (start + n)

@[simp] theorem mem_rangeOf {start n f : Nat} : f ∈ rangeOf start n ↔ start ≤ f ∧ f < start + n :=
  Finset.mem_Ico

/-- A call for `n` frames that returned `r`, an address or 0. -/
def History.after (s : History) (r : UInt32 × Pfa) (n : Nat) : History where
  pfa := r.2
  out := if r.1 = 0 then s.out else s.out ∪ rangeOf (frameOf r.1) n

/-- One call. -/
def step : Op → History → History
  | .allocFrame, s => s.after s.pfa.allocFrame 1
  | .allocFrames count, s => s.after (s.pfa.allocFrames count) count.toNat
  | .freeFrame addr, s => ⟨s.pfa.freeFrame addr, s.out \ rangeOf (frameOf addr) 1⟩
  | .freeFrames addr count, s =>
    ⟨s.pfa.freeFrames addr count, s.out \ rangeOf (frameOf addr) count.toNat⟩

/-- Only outstanding frames are given back. -/
def FreesOwn : Op → History → Prop
  | .freeFrame addr, s => rangeOf (frameOf addr) 1 ⊆ s.out
  | .freeFrames addr count, s => rangeOf (frameOf addr) count.toNat ⊆ s.out
  | _, _ => True

/-- Nothing is given back. -/
def AllocOnly : Op → History → Prop
  | .allocFrame, _ => True
  | .allocFrames _, _ => True
  | _, _ => False

/-- The history that starts with `pfa_init`. -/
def booted (detectedRam bssEnd : UInt32) : History := ⟨Pfa.init detectedRam bssEnd, ∅⟩

/-! ## The invariant -/

/-- Of `T` frames, those set are the reserved ones and the outstanding ones. -/
structure Exclusive (bssEnd : UInt32) (T : Nat) (s : History) : Prop where
  total : s.pfa.totalFrames = T
  bits : ∀ f, f < T → (s.pfa.testBit f = true ↔ Pfa.Reserved bssEnd f ∨ f ∈ s.out)
  out : ∀ f ∈ s.out, f < T ∧ ¬ Pfa.Reserved bssEnd f

section

variable {bssEnd detectedRam : UInt32} {T start n : Nat} {s : History} {q : Pfa}

theorem exclusive_booted (detectedRam bssEnd : UInt32) :
    Exclusive bssEnd (Pfa.ramFrames detectedRam) (booted detectedRam bssEnd) where
  total := (Pfa.init_spec detectedRam bssEnd).1
  bits f hf := by
    have hbit := (Pfa.init_spec detectedRam bssEnd).2 f hf
    simp only [booted, hbit, decide_eq_true_iff, Finset.notMem_empty, or_false]
  out f hf := absurd hf (Finset.notMem_empty f)

section

variable (h : Exclusive bssEnd T s)
include h

theorem Exclusive.of_free {f : Nat} (hf : f < T) (hfree : s.pfa.testBit f = false) :
    ¬ Pfa.Reserved bssEnd f ∧ f ∉ s.out := by
  rw [← not_or, ← h.bits f hf, hfree]
  decide

theorem Exclusive.took (ht : Pfa.Took s.pfa start n q) :
    Exclusive bssEnd T ⟨q, s.out ∪ rangeOf start n⟩ := by
  have hfits := ht.fits
  rw [h.total] at hfits
  refine ⟨ht.total.trans h.total, fun f hf => ?_, fun f hf => ?_⟩
  · rw [ht.bits f (by rw [h.total]; exact hf), Finset.mem_union, mem_rangeOf]
    split
    · next hin => exact iff_of_true rfl (.inr (.inr hin))
    next hout =>
    rw [h.bits f hf, or_iff_left hout]
  · rcases Finset.mem_union.mp hf with hold | hnew
    · exact h.out f hold
    obtain ⟨hlo, hhi⟩ := mem_rangeOf.mp hnew
    have hlt : f < T := by omega
    exact ⟨hlt, (h.of_free hlt (ht.free f hlo hhi)).1⟩

theorem Exclusive.gave (hown : rangeOf start n ⊆ s.out) (hg : Pfa.Gave s.pfa start n q) :
    Exclusive bssEnd T ⟨q, s.out \ rangeOf start n⟩ := by
  refine ⟨hg.total.trans h.total, fun f hf => ?_, fun f hf => h.out f (Finset.mem_sdiff.mp hf).1⟩
  rw [hg.bits f (by rw [h.total]; exact hf), Finset.mem_sdiff, mem_rangeOf]
  split
  · next hin =>
    -- an outstanding frame is not reserved
    have hres := (h.out f (hown (mem_rangeOf.mpr hin))).2
    exact iff_of_false (by decide) (not_or.mpr ⟨hres, fun hout => hout.2 hin⟩)
  · next hout => rw [h.bits f hf, and_iff_left hout]

/-- With the kernel at the bottom of memory, frame 0 is never free. -/
theorem Exclusive.pos_of_took (hk : 0 < Pfa.kernelFrames bssEnd) (ht : Pfa.Took s.pfa start n q) :
    0 < start := by
  rcases Nat.eq_zero_or_pos start with rfl | hpos
  · have hn := ht.pos
    have hfits := ht.fits
    rw [h.total] at hfits
    have hfree := ht.free 0 le_rfl (by omega)
    exact absurd (.inl hk) (h.of_free (by omega) hfree).1
  · exact hpos

end

theorem Pfa.Took.addr (ht : Pfa.Took s.pfa start n q) (htotal : s.pfa.totalFrames ≤ 2 ^ 18)
    (hpos : 0 < start) :
    addrOf start ≠ 0 ∧ (addrOf start).toNat = start * 4096 ∧ frameOf (addrOf start) = start := by
  have hn := ht.pos
  have hfits := ht.fits
  have haddr := addrOf_toNat (f := start) (by omega)
  refine ⟨?_, haddr, frameOf_addrOf (by omega)⟩
  intro h0
  rw [h0] at haddr
  have hzero : (0 : UInt32).toNat = 0 := rfl
  omega

theorem Exclusive.after_took (h : Exclusive bssEnd T s) (hT : T ≤ 2 ^ 18)
    (hk : 0 < Pfa.kernelFrames bssEnd) (ht : Pfa.Took s.pfa start n q) :
    Exclusive bssEnd T (s.after (addrOf start, q) n) := by
  obtain ⟨hne, -, hframe⟩ := ht.addr (by rw [h.total]; exact hT) (h.pos_of_took hk ht)
  have heq : s.after (addrOf start, q) n = ⟨q, s.out ∪ rangeOf start n⟩ := by
    unfold History.after
    rw [if_neg hne, hframe]
  rw [heq]
  exact h.took ht

theorem step_alloc {P : History → Prop} {op : Op} (hop : AllocOnly op s) (h : P s)
    (htook : ∀ start n q, Pfa.Took s.pfa start n q → P (s.after (addrOf start, q) n)) :
    P (step op s) := by
  cases op with
  | allocFrame =>
    show P (s.after s.pfa.allocFrame 1)
    rcases s.pfa.allocFrame_spec with ⟨i, q, heq, ht, -⟩ | ⟨heq, -⟩
    · rw [heq]
      exact htook i 1 q ht
    rw [heq]
    exact h
  | allocFrames count =>
    show P (s.after (s.pfa.allocFrames count) count.toNat)
    rcases s.pfa.allocFrames_spec count with ⟨i, q, heq, ht⟩ | ⟨heq, -⟩
    · rw [heq]
      exact htook i count.toNat q ht
    rw [heq]
    exact h
  | freeFrame addr => exact hop.elim
  | freeFrames addr count => exact hop.elim

theorem Exclusive.step (h : Exclusive bssEnd T s) (hT : T ≤ 2 ^ 18)
    (hk : 0 < Pfa.kernelFrames bssEnd) (op : Op) (hop : FreesOwn op s) :
    Exclusive bssEnd T (step op s) := by
  have hkeep := fun start n q (ht : Pfa.Took s.pfa start n q) => h.after_took hT hk ht
  cases op with
  | allocFrame => exact step_alloc trivial h hkeep
  | allocFrames count => exact step_alloc trivial h hkeep
  | freeFrame addr =>
    have hmem : frameOf addr ∈ s.out := hop (mem_rangeOf.mpr ⟨le_rfl, by omega⟩)
    obtain ⟨hlt, hres⟩ := h.out _ hmem
    have hpos : 0 < frameOf addr := by
      refine Nat.pos_of_ne_zero fun h0 => hres (.inl ?_)
      omega
    exact h.gave hop (Pfa.freeFrame_spec hpos (by rw [h.total]; exact hlt))
  | freeFrames addr count =>
    refine h.gave hop (Pfa.freeFrames_spec (by rw [h.total]; exact hT) fun k hk => ?_)
    rw [h.total]
    exact (h.out _ (hop (mem_rangeOf.mpr ⟨Nat.le_add_right .., by omega⟩))).1

theorem exclusive_of_reach (hk : 0 < Pfa.kernelFrames bssEnd)
    (hs : Reach step FreesOwn (booted detectedRam bssEnd) s) :
    Exclusive bssEnd (Pfa.ramFrames detectedRam) s :=
  hs.invariant (Exclusive bssEnd (Pfa.ramFrames detectedRam)) (exclusive_booted ..)
    fun op _ h hop => h.step (Pfa.ramFrames_le _) hk op hop

end

/-! ## Exclusivity -/

/-- The frames below `total` that `pfa_init` reserves. -/
def reservedFrames (bssEnd : UInt32) (total : Nat) : Finset Nat :=
  (Finset.range total).filter (Pfa.Reserved bssEnd)

/-- `addr` is the address of `n` frames below `total` that are neither reserved nor
    outstanding. -/
def Granted (bssEnd : UInt32) (s : History) (n : Nat) (addr : UInt32) : Prop :=
  ∃ start, 0 < start ∧ addr.toNat = start * frameSize ∧ start + n ≤ s.pfa.totalFrames ∧
    Disjoint (rangeOf start n) s.out ∧ ∀ f ∈ rangeOf start n, ¬ Pfa.Reserved bssEnd f

section

variable {bssEnd : UInt32} {T start n : Nat} {s : History} {q : Pfa}

theorem Exclusive.granted (h : Exclusive bssEnd T s) (hT : T ≤ 2 ^ 18)
    (hk : 0 < Pfa.kernelFrames bssEnd) (ht : Pfa.Took s.pfa start n q) :
    addrOf start ≠ 0 ∧ Granted bssEnd s n (addrOf start) := by
  have hpos := h.pos_of_took hk ht
  obtain ⟨hne, haddr, -⟩ := ht.addr (by rw [h.total]; exact hT) hpos
  have hfits := ht.fits
  rw [h.total] at hfits
  have hfree : ∀ f ∈ rangeOf start n, ¬ Pfa.Reserved bssEnd f ∧ f ∉ s.out := fun f hf => by
    obtain ⟨hlo, hhi⟩ := mem_rangeOf.mp hf
    exact h.of_free (by omega) (ht.free f hlo hhi)
  exact ⟨hne, start, hpos, haddr, ht.fits,
    Finset.disjoint_left.mpr fun f hf => (hfree f hf).2, fun f hf => (hfree f hf).1⟩

theorem Exclusive.card_set (h : Exclusive bssEnd T s) :
    ((Finset.range T).filter (s.pfa.testBit ·)).card
      = (reservedFrames bssEnd T).card + s.out.card := by
  have hset : (Finset.range T).filter (s.pfa.testBit ·) = reservedFrames bssEnd T ∪ s.out := by
    ext f
    rw [Finset.mem_filter, Finset.mem_union, reservedFrames, Finset.mem_filter, Finset.mem_range]
    constructor
    · rintro ⟨hlt, hbit⟩
      exact ((h.bits f hlt).mp hbit).imp_left fun hres => ⟨hlt, hres⟩
    · rintro (⟨hlt, hres⟩ | hout)
      · exact ⟨hlt, (h.bits f hlt).mpr (.inl hres)⟩
      · exact ⟨(h.out f hout).1, (h.bits f (h.out f hout).1).mpr (.inr hout)⟩
  rw [hset, Finset.card_union_of_disjoint]
  refine Finset.disjoint_left.mpr fun f hres hout => ?_
  exact (h.out f hout).2 (Finset.mem_filter.mp hres).2

end

theorem kernelFrames_pos {bssEnd : UInt32} (h : 0 < (Pfa.kernelEnd bssEnd).toNat) :
    0 < Pfa.kernelFrames bssEnd := by
  have hlow : Pfa.kernelEnd bssEnd &&& 4095 = 0 := by
    show ((bssEnd + 4096 - 1) &&& ~~~ (4096 - 1)) &&& 4095 = 0
    rw [UInt32.and_assoc]
    exact UInt32.and_zero
  have hmod : (Pfa.kernelEnd bssEnd).toNat % 2 ^ 12 = 0 := by
    rw [← Nat.and_two_pow_sub_one_eq_mod]
    exact congrArg UInt32.toNat hlow
  show 0 < (Pfa.kernelEnd bssEnd).toNat / 4096
  omega

/-- In every history, with `kernel_end > 0`: a call that succeeds hands out frames that are
    below `total_frames`, not reserved and not outstanding, at an address that is not 0; a
    call that fails returns 0, changes nothing, and there was no free frame or no free run
    of that length (a run has at least one frame); and the free frames are those that are
    neither reserved nor outstanding. -/
theorem frames_exclusive (detectedRam bssEnd : UInt32) (hk : 0 < (Pfa.kernelEnd bssEnd).toNat)
    (s : History) (hs : Reach step FreesOwn (booted detectedRam bssEnd) s) :
    (s.pfa.allocFrame.1 ≠ 0 ∧ Granted bssEnd s 1 s.pfa.allocFrame.1 ∨
      s.pfa.allocFrame = (0, s.pfa) ∧ ¬ s.pfa.HasRun 1) ∧
    (∀ count, (s.pfa.allocFrames count).1 ≠ 0 ∧
        Granted bssEnd s count.toNat (s.pfa.allocFrames count).1 ∨
      s.pfa.allocFrames count = (0, s.pfa) ∧ ¬ s.pfa.HasRun count.toNat) ∧
    s.pfa.totalFrames = Pfa.ramFrames detectedRam ∧
    s.pfa.getFreeFrameCount =
      s.pfa.totalFrames - (reservedFrames bssEnd s.pfa.totalFrames).card - s.out.card := by
  have hk' := kernelFrames_pos hk
  have h := exclusive_of_reach hk' hs
  have hT := Pfa.ramFrames_le detectedRam
  refine ⟨?_, fun count => ?_, h.total, ?_⟩
  · rcases s.pfa.allocFrame_spec with ⟨i, q, heq, ht, -⟩ | ⟨heq, hall⟩
    · rw [heq]
      exact .inl (h.granted hT hk' ht)
    refine .inr ⟨heq, ?_⟩
    rintro ⟨-, start, hfits, hfree⟩
    have hset := hall start hfits
    rw [hfree start (Nat.le_refl _) (Nat.lt_succ_self _)] at hset
    cases hset
  · rcases s.pfa.allocFrames_spec count with ⟨i, q, heq, ht⟩ | hfail
    · rw [heq]
      exact .inl (h.granted hT hk' ht)
    · exact .inr hfail
  · have hcount := s.pfa.getFreeFrameCount_add_card
    rw [h.total] at hcount ⊢
    rw [h.card_set] at hcount
    omega

/-- Eight frames with a kernel that ends at 0x3000: two of them are handed out together and a
    third one alone, which is given back. -/
def returned : History :=
  step (.freeFrame 0x5000) (step .allocFrame (step (.allocFrames 2) (booted 0x8000 0x3000)))

/-- Frame 5 is handed out again, and three are free. -/
theorem frames_exclusive_returned :
    returned.out = {3, 4} ∧ Granted 0x3000 returned 1 0x5000 ∧
      returned.pfa.getFreeFrameCount = 8 - 3 - 2 := by
  have hs : Reach step FreesOwn (booted 0x8000 0x3000) returned := by
    refine .next (Op.freeFrame 0x5000) (.next Op.allocFrame (.next (Op.allocFrames 2) .start
      trivial) trivial) ?_
    show rangeOf (frameOf 0x5000) 1 ⊆ _
    decide +kernel
  obtain ⟨halloc, -, htotal, hcount⟩ := frames_exclusive 0x8000 0x3000 (by decide) _ hs
  have haddr : returned.pfa.allocFrame.1 = 0x5000 := by decide +kernel
  rw [htotal] at hcount
  refine ⟨by decide +kernel, ?_, hcount.trans (by decide +kernel)⟩
  rcases halloc with ⟨-, hgranted⟩ | ⟨hnone, -⟩
  · rw [haddr] at hgranted
    exact hgranted
  rw [hnone] at haddr
  exact absurd haddr (by decide)

/-! ## Memory at fixed addresses -/

/-- The kernel heap, the page of the trampoline and the page below the boot stack top. -/
def FixedByte (a : Nat) : Prop :=
  (0x800000 ≤ a ∧ a < 0x800000 + 0x200000) ∨ (0x70000 ≤ a ∧ a < 0x70000 + 0x1000) ∨
    (0x90000 - 0x1000 ≤ a ∧ a < 0x90000)

/-- The frame overlaps memory that the kernel uses at fixed addresses. -/
def FixedFrame (f : Nat) : Prop := ∃ a, f * frameSize ≤ a ∧ a < (f + 1) * frameSize ∧ FixedByte a

/-- No sequence of allocations hands out a frame of that memory. -/
def NeverFixed (detectedRam bssEnd : UInt32) : Prop :=
  ∀ s, Reach step AllocOnly (booted detectedRam bssEnd) s → ∀ f ∈ s.out, ¬ FixedFrame f

section

variable {bssEnd detectedRam : UInt32} {T f start n : Nat} {s : History} {q : Pfa}

theorem fixedFrame_iff : FixedFrame f ↔ f = 0x70 ∨ f = 0x8F ∨ (0x800 ≤ f ∧ f < 0xA00) := by
  show (∃ a, f * 4096 ≤ a ∧ a < (f + 1) * 4096 ∧ FixedByte a) ↔ _
  unfold FixedByte
  constructor
  · rintro ⟨a, hlo, hhi, hfix⟩
    omega
  · intro h
    exact ⟨f * 4096, le_rfl, by omega, by omega⟩

theorem reserved_fixed_iff (hf : FixedFrame f) :
    Pfa.Reserved bssEnd f ↔ f < Pfa.kernelFrames bssEnd := by
  rw [fixedFrame_iff] at hf
  unfold Pfa.Reserved
  constructor
  · rintro (h | h | h)
    · exact h
    · omega
    · omega
  · exact .inl

/-- What is set at the start stays set, and only what was not is handed out. -/
structure Guarded (bssEnd : UInt32) (T : Nat) (s : History) : Prop where
  total : s.pfa.totalFrames = T
  bits : ∀ f, f < T → Pfa.Reserved bssEnd f → s.pfa.testBit f = true
  out : ∀ f ∈ s.out, f < T ∧ ¬ Pfa.Reserved bssEnd f

theorem guarded_booted (detectedRam bssEnd : UInt32) :
    Guarded bssEnd (Pfa.ramFrames detectedRam) (booted detectedRam bssEnd) where
  total := (exclusive_booted detectedRam bssEnd).total
  bits f hf hres := ((exclusive_booted detectedRam bssEnd).bits f hf).mpr (.inl hres)
  out := (exclusive_booted detectedRam bssEnd).out

theorem Guarded.after_took (h : Guarded bssEnd T s) (hT : T ≤ 2 ^ 18)
    (ht : Pfa.Took s.pfa start n q) : Guarded bssEnd T (s.after (addrOf start, q) n) := by
  have hn := ht.pos
  have hfits := ht.fits
  rw [h.total] at hfits
  refine ⟨ht.total.trans h.total, fun f hf hres => ?_, fun f hf => ?_⟩
  · show q.testBit f = true
    rw [ht.bits f (by rw [h.total]; exact hf), h.bits f hf hres, ite_self]
  · have hin : f ∈ s.out ∪ rangeOf start n := by
      have hframe := frameOf_addrOf (f := start) (by omega)
      unfold History.after at hf
      rw [hframe] at hf
      split at hf
      · exact Finset.mem_union_left _ hf
      · exact hf
    rcases Finset.mem_union.mp hin with hold | hnew
    · exact h.out f hold
    obtain ⟨hlo, hhi⟩ := mem_rangeOf.mp hnew
    have hfree := ht.free f hlo hhi
    refine ⟨by omega, fun hres => ?_⟩
    rw [h.bits f (by omega) hres] at hfree
    cases hfree

theorem Guarded.step (h : Guarded bssEnd T s) (hT : T ≤ 2 ^ 18) (op : Op) (hop : AllocOnly op s) :
    Guarded bssEnd T (step op s) :=
  step_alloc hop h fun _ _ _ ht => h.after_took hT ht

/-- The free frames up to `f`. -/
def freeUpTo (p : Pfa) (f : Nat) : Finset Nat :=
  (Finset.range (f + 1)).filter fun g => p.testBit g = false

variable {p : Pfa}

theorem mem_freeUpTo {g : Nat} : g ∈ freeUpTo p f ↔ g ≤ f ∧ p.testBit g = false := by
  unfold freeUpTo
  rw [Finset.mem_filter, Finset.mem_range, Nat.lt_succ_iff]

theorem freeUpTo_took {i : Nat} (ht : Pfa.Took p i 1 q)
    (hf : f < p.totalFrames) : freeUpTo q f = (freeUpTo p f).erase i := by
  ext g
  rw [Finset.mem_erase, mem_freeUpTo, mem_freeUpTo]
  constructor
  · rintro ⟨hg, hfree⟩
    rw [ht.bits g (by omega)] at hfree
    split at hfree
    · cases hfree
    · exact ⟨by omega, hg, hfree⟩
  · rintro ⟨hne, hg, hfree⟩
    refine ⟨hg, ?_⟩
    rw [ht.bits g (by omega), if_neg (by omega), hfree]

/-- First fit reaches every free frame. -/
theorem handedOut_of_free (hT : s.pfa.totalFrames ≤ 2 ^ 18) (hpos : 0 < f)
    (hf : f < s.pfa.totalFrames) (hfree : s.pfa.testBit f = false)
    {s0 : History} (hs : Reach step AllocOnly s0 s) :
    ∃ s', Reach step AllocOnly s0 s' ∧ f ∈ s'.out := by
  -- each call takes one of the free frames up to `f`
  induction hn : (freeUpTo s.pfa f).card generalizing s with
  | zero =>
    have hmem : f ∈ freeUpTo s.pfa f := mem_freeUpTo.mpr ⟨le_rfl, hfree⟩
    rw [Finset.card_eq_zero.mp hn] at hmem
    exact absurd hmem (Finset.notMem_empty f)
  | succ n ih =>
    have hnext := hs.next Op.allocFrame trivial
    have hstep : step .allocFrame s = s.after s.pfa.allocFrame 1 := rfl
    rcases s.pfa.allocFrame_spec with ⟨i, q, heq, ht, hbefore⟩ | ⟨heq, hall⟩
    · rw [hstep, heq] at hnext
      have hi : s.pfa.testBit i = false := ht.free i le_rfl (Nat.lt_succ_self i)
      have hile : i ≤ f := by
        by_contra hlt
        rw [hbefore f (by omega)] at hfree
        cases hfree
      rcases Nat.lt_or_eq_of_le hile with hlt | rfl
      · -- `i` is gone, `f` is still free
        have hqf : q.testBit f = false := by
          rw [ht.bits f hf, if_neg (by omega), hfree]
        have hcard : (freeUpTo q f).card = n := by
          rw [freeUpTo_took ht hf, Finset.card_erase_of_mem (mem_freeUpTo.mpr ⟨hile, hi⟩), hn]
          rfl
        exact ih (s := s.after (addrOf i, q) 1) (ht.total.le.trans hT)
          (hf.trans_eq ht.total.symm) hqf hnext hcard
      refine ⟨_, hnext, ?_⟩
      obtain ⟨hne, -, hframe⟩ := ht.addr hT hpos
      show i ∈ if addrOf i = 0 then s.out else s.out ∪ rangeOf (frameOf (addrOf i)) 1
      rw [if_neg hne, hframe]
      exact Finset.mem_union_right _ (mem_rangeOf.mpr ⟨le_rfl, Nat.lt_succ_self _⟩)
    rw [hall f hf] at hfree
    cases hfree

theorem handedOut_of_unreserved (detectedRam : UInt32) (hpos : 0 < f)
    (hf : f < Pfa.ramFrames detectedRam)
    (hres : ¬ Pfa.Reserved bssEnd f) :
    ∃ s, Reach step AllocOnly (booted detectedRam bssEnd) s ∧ f ∈ s.out := by
  have hboot := exclusive_booted detectedRam bssEnd
  have hfree : (booted detectedRam bssEnd).pfa.testBit f = false := by
    rw [← Bool.not_eq_true, hboot.bits f hf]
    rintro (h | h)
    · exact hres h
    · exact absurd h (Finset.notMem_empty f)
  refine handedOut_of_free ?_ hpos ?_ hfree .start
  · rw [hboot.total]
    exact Pfa.ramFrames_le detectedRam
  · rw [hboot.total]
    exact hf

end

/-- Allocations stay off the memory at fixed addresses exactly when every frame of it is
    beyond the detected memory or below the end of the kernel. -/
theorem neverFixed_iff (detectedRam bssEnd : UInt32) :
    NeverFixed detectedRam bssEnd ↔
      ∀ f, FixedFrame f → f < Pfa.ramFrames detectedRam → f < Pfa.kernelFrames bssEnd := by
  constructor
  · intro h f hfix hf
    by_contra hk
    have hres : ¬ Pfa.Reserved bssEnd f := fun hres => hk ((reserved_fixed_iff hfix).mp hres)
    have hpos : 0 < f := by
      rw [fixedFrame_iff] at hfix
      omega
    obtain ⟨s, hs, hout⟩ := handedOut_of_unreserved detectedRam hpos hf hres
    exact h s hs f hout hfix
  · intro h s hs f hout hfix
    have hg := hs.invariant (Guarded bssEnd (Pfa.ramFrames detectedRam)) (guarded_booted ..)
      fun op _ hg hop => hg.step (Pfa.ramFrames_le _) op hop
    obtain ⟨hlt, hres⟩ := hg.out f hout
    exact hres ((reserved_fixed_iff hfix).mpr (h f hfix hlt))

/-- With 128 MiB and a kernel that ends at 0x60000, the first frame of the heap is handed
    out. -/
theorem heapFrame_not_neverFixed : ¬ NeverFixed 0x8000000 0x60000 := by
  intro h
  have hres : ¬ Pfa.Reserved 0x60000 0x800 := by decide
  obtain ⟨s, hs, hout⟩ :=
    handedOut_of_unreserved 0x8000000 (by decide) (by decide) hres
  exact h s hs 0x800 hout (fixedFrame_iff.mpr (by decide))

end Noverix.Memory
