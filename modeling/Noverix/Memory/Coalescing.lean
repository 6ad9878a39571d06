/-
  Free blocks next to each other.

  `free_impl` joins a block with its free neighbours, so that free blocks are
  always separated by blocks in use.  It looks for the block in front only above
  `HEAP_START + MIN_BLOCK`: a free block of the smallest size at the start of the
  heap is never joined with the block behind it.  `realloc_impl` frees what it
  cuts off a block without looking at the block behind.
-/

import Mathlib.Data.List.Chain
import Noverix.Memory.HeapRuns

namespace Noverix.Memory

open Lib

/-! ## Separated free blocks -/

/-- No two neighbours are both free. -/
def NoFreePair (bs : List Block) : Prop := bs.IsChain fun a b => a.used = true ∨ b.used = true

/-- The heap is tiled by blocks of which no two neighbours are both free. -/
def Coalesced (m : Mem) : Prop :=
  ∃ bs, Chain m heapStart bs ∧ extent bs = heapSize ∧ NoFreePair bs

section

variable {m m' : Mem} {out : List Nat} {bs pre post pre' post' : List Block} {b c : Block}

theorem Heap.coalesced_iff (h : Heap m out bs) : Coalesced m ↔ NoFreePair bs := by
  constructor
  · rintro ⟨bs', hchain, hext, hapart⟩
    rw [h.chain.unique hchain (h.covers.trans hext.symm)]
    exact hapart
  · exact fun hapart => ⟨bs, h.chain, h.covers, hapart⟩

theorem noFreePair_used (hused : b.used = true) :
    NoFreePair (pre ++ b :: post) ↔ NoFreePair pre ∧ NoFreePair post := by
  unfold NoFreePair
  rw [List.isChain_append, List.isChain_cons]
  constructor
  · exact fun ⟨hpre, ⟨_, hpost⟩, _⟩ => ⟨hpre, hpost⟩
  · refine fun ⟨hpre, hpost⟩ => ⟨hpre, ⟨fun _ _ => .inl hused, hpost⟩, fun x _ y hy => ?_⟩
    cases hy
    exact .inr hused

theorem noFreePair_free (hfree : b.used = false) :
    NoFreePair (pre ++ b :: post) ↔ NoFreePair pre ∧ NoFreePair post ∧
      (∀ c ∈ pre.getLast?, c.used = true) ∧ ∀ c ∈ post.head?, c.used = true := by
  have hnot : ¬ b.used = true := by rw [hfree]; decide
  unfold NoFreePair
  rw [List.isChain_append, List.isChain_cons]
  constructor
  · rintro ⟨hpre, ⟨hhead, hpost⟩, hlast⟩
    refine ⟨hpre, hpost, fun c hc => ?_, fun c hc => (hhead c hc).resolve_left hnot⟩
    exact (hlast c hc b rfl).resolve_right hnot
  · rintro ⟨hpre, hpost, hlast, hhead⟩
    refine ⟨hpre, ⟨fun c hc => .inr (hhead c hc), hpost⟩, fun c hc y hy => .inl (hlast c hc)⟩

/-- Cutting a block separates the blocks on either side; what is cut off must not meet a free
    block. -/
theorem noFreePair_carve {size need : Nat} (hpre : NoFreePair pre) (hpost : NoFreePair post) :
    NoFreePair (pre ++ carve size need ++ post) ↔
      (minBlock ≤ size - need → ∀ c ∈ post.head?, c.used = true) := by
  unfold carve
  split
  · next hrest =>
    rw [append_assoc, cons_append, cons_append, nil_append,
      noFreePair_used rfl, and_iff_right hpre]
    have hcut : NoFreePair ([] ++ ⟨size - need, false⟩ :: post) ↔ _ := noFreePair_free rfl
    rw [nil_append] at hcut
    rw [hcut]
    constructor
    · exact fun ⟨_, _, _, hhead⟩ _ => hhead
    · exact fun hhead => ⟨.nil, hpost, fun c hc => absurd hc (by simp), hhead hrest⟩
  next hrest =>
  rw [append_assoc, cons_append, nil_append, noFreePair_used rfl]
  exact iff_of_true ⟨hpre, hpost⟩ fun h => absurd h hrest

/-! ## Malloc -/

theorem NoFreePair.sides (h : NoFreePair (pre ++ [b] ++ post)) :
    NoFreePair pre ∧ NoFreePair post := by
  rw [append_assoc, cons_append, nil_append] at h
  cases hused : b.used with
  | true => exact (noFreePair_used hused).mp h
  | false =>
    obtain ⟨hpre, hpost, -⟩ := (noFreePair_free hused).mp h
    exact ⟨hpre, hpost⟩

theorem malloc_noFreePair {size r : Nat} (h : Heap m out bs) (hapart : NoFreePair bs)
    (heq : mallocImpl m size = some (r, m')) :
    ∃ bs', Heap m' (if r = 0 then out else r :: out) bs' ∧ NoFreePair bs' := by
  rcases mallocImpl_blocks h size with hfail |
    ⟨pre, b, post, m1, rfl, hfree, -, hok, -, -, hheap, -⟩
  · obtain ⟨rfl, rfl⟩ := Prod.mk.inj (some.inj (hfail.symm.trans heq))
    exact ⟨bs, h, hapart⟩
  obtain ⟨rfl, rfl⟩ := Prod.mk.inj (some.inj (hok.symm.trans heq))
  rw [if_neg (Nat.succ_ne_zero _)]
  refine ⟨_, hheap, ?_⟩
  obtain ⟨hpre, hpost⟩ := hapart.sides
  rw [append_assoc, cons_append, nil_append, noFreePair_free hfree] at hapart
  exact (noFreePair_carve hpre hpost).mpr fun _ => hapart.2.2.2

theorem calloc_noFreePair {num size r : Nat} (h : Heap m out bs) (hapart : NoFreePair bs)
    (heq : callocImpl m num size = some (r, m')) :
    ∃ bs', Heap m' (if r = 0 then out else r :: out) bs' ∧ NoFreePair bs' := by
  have hnone : some (0, m) = some (r, m') →
      ∃ bs', Heap m' (if r = 0 then out else r :: out) bs' ∧ NoFreePair bs' := by
    intro hzero
    cases hzero
    exact ⟨bs, h, hapart⟩
  unfold callocImpl at heq
  split at heq
  · exact hnone heq
  split at heq
  · exact hnone heq
  rcases mallocImpl_spec h (u32 (num * size)) with hfail | ⟨q, m1, -, hok, hq, -, -, hle, hcap⟩
  · simp only [hfail] at heq
    exact hnone heq
  simp only [hok, if_neg hq] at heq
  cases heq
  obtain ⟨bs', hheap, hapart'⟩ := malloc_noFreePair h hapart hok
  rw [if_neg hq] at hheap ⊢
  have hend := hheap.capacity_le mem_cons_self
  have hstart : heapStart + heapSize = 0xA00000 := rfl
  have htotal := Nat.le_trans (roundUp_of_le hle).1 hcap
  exact ⟨bs', (hheap.write_new htotal (sameOutside_fillBytes (by omega))).1, hapart'⟩

end

/-! ## Free -/

/-- The block of `p` is the second one, and the first is free and of the smallest size. -/
def LeavesGap (m : Mem) (p : Nat) : Prop :=
  p = heapStart + minBlock + headerSize ∧ load32 m heapStart = minBlock

section

variable {m m' : Mem} {out : List Nat} {bs pre post pre' post' : List Block} {b : Block} {p : Nat}

theorem one_block_of_extent {a : Nat} (h : Chain m a bs) (hext : extent bs = minBlock) :
    ∃ c, bs = [c] ∧ c.size = minBlock := by
  have hmin : minBlock = 12 := rfl
  cases bs with
  | nil => contradiction
  | cons c bs =>
    have hc := h.1.min
    rw [extent_cons] at hext
    obtain rfl := h.2.eq_nil (by omega)
    refine ⟨c, rfl, ?_⟩
    rw [extent_nil] at hext
    omega

theorem Heap.leavesGap_iff (h : Heap m out (pre ++ [b] ++ post))
    (haddr : p = heapStart + extent pre + 4) :
    LeavesGap m p ↔ ∃ c, pre = [c] ∧ c.used = false ∧ c.size = minBlock := by
  have hmin : minBlock = 12 := rfl
  have hpre : Chain m heapStart pre := by
    have hchain := h.chain
    rw [append_assoc, chain_append] at hchain
    exact hchain.1
  constructor
  · rintro ⟨hp, hhdr⟩
    have hext : extent pre = minBlock := by
      change p = heapStart + minBlock + 4 at hp
      omega
    obtain ⟨c, rfl, hsize⟩ := one_block_of_extent hpre hext
    refine ⟨c, rfl, ?_, hsize⟩
    rw [← (header_spec hpre.1).2, hhdr, hmin]
  · rintro ⟨c, rfl, hfree, hsize⟩
    refine ⟨by rw [haddr, extent_cons, hsize]; rfl, ?_⟩
    rw [hpre.1.header, Block.header, hfree, hsize]
    rfl

theorem JoinsNext.noFreePair (h : JoinsNext post post') (hpost : NoFreePair post) :
    NoFreePair post' ∧ ∀ c ∈ post'.head?, c.used = true := by
  rcases h with ⟨rfl, hhead⟩ | ⟨c, rfl, hfree⟩
  · exact ⟨hpost, hhead⟩
  rw [← nil_append (c :: post'), noFreePair_free hfree] at hpost
  exact ⟨hpost.2.1, hpost.2.2.2⟩

theorem JoinsPrev.noFreePair (h : JoinsPrev pre pre') (hpre : NoFreePair pre) :
    NoFreePair pre' ∧ ((∀ c ∈ pre'.getLast?, c.used = true) ↔
      ¬ ∃ c, pre = [c] ∧ c.used = false ∧ c.size = minBlock) := by
  rcases h with ⟨rfl, hlast⟩ | ⟨c, rfl, hfree, hlong⟩
  · refine ⟨hpre, ?_, fun hgap c hc => ?_⟩
    · rintro hused ⟨c, rfl, hfree, -⟩
      exact absurd (hused c rfl) (by rw [hfree]; decide)
    · rcases hlast c hc with hused | ⟨rfl, hsize⟩
      · exact hused
      by_contra hused
      exact hgap ⟨c, rfl, Bool.eq_false_iff.mpr hused, hsize⟩
  rw [noFreePair_free hfree] at hpre
  refine ⟨hpre.1, iff_of_true hpre.2.2.1 ?_⟩
  rintro ⟨c', hone, -, hsize⟩
  rw [hone, extent_cons, extent_nil, hsize] at hlong
  exact Nat.lt_irrefl _ hlong

/-- `free_impl` keeps free blocks apart unless it passes over the first block. -/
theorem free_noFreePair_iff (h : Heap m out bs) (hapart : NoFreePair bs) (hp : p ∈ out) :
    Coalesced (freeImpl m p) ↔ ¬ LeavesGap m p := by
  obtain ⟨pre, b, post, rfl, hused, haddr⟩ := h.block_of_mem hp
  obtain ⟨pre', size', post', hheap, hprev, hnext, -, -⟩ := freeImpl_blocks h hused haddr
  obtain ⟨hpre, hpost⟩ := hapart.sides
  obtain ⟨hpre', hgap⟩ := hprev.noFreePair hpre
  obtain ⟨hpost', hhead⟩ := hnext.noFreePair hpost
  rw [h.leavesGap_iff haddr, ← hgap, hheap.coalesced_iff, append_assoc, cons_append,
    nil_append, noFreePair_free rfl]
  exact ⟨fun hall => hall.2.2.1, fun hlast => ⟨hpre', hpost', hlast, hhead⟩⟩

end

/-! ## Realloc -/

/-- The block behind that of `p` is free. -/
def FreeBehind (m : Mem) (p : Nat) : Prop :=
  p - headerSize + sizeAt m p < heapStart + heapSize ∧
    load32 m (p - headerSize + sizeAt m p) % 2 = 0

/-- What `realloc_impl` needs of the neighbours of the block of `p`: nothing is cut off in front
    of a free block, and a block that moves, since `malloc_impl` finds a larger one, is not the
    one `free_impl` leaves unjoined. -/
def ReallocJoins (m : Mem) (p size : Nat) : Prop :=
  (needOf (roundUp size) + minBlock ≤ sizeAt m p → ¬ FreeBehind m p) ∧
    (sizeAt m p < needOf (roundUp size) →
      ∀ q m₁, mallocImpl m (roundUp size) = some (q, m₁) → q ≠ 0 → ¬ LeavesGap m p)

section

variable {m m' : Mem} {out : List Nat} {bs pre post : List Block} {b : Block} {p r size : Nat}

section

variable (h : Heap m out (pre ++ [b] ++ post)) (haddr : p = heapStart + extent pre + 4)
include h haddr

theorem Heap.freeBehind_iff : FreeBehind m p ↔ ¬ ∀ c ∈ post.head?, c.used = true := by
  have hcovers := h.covers
  have hbehind : p - headerSize + sizeAt m p = heapStart + extent (pre ++ [b]) := by
    rw [haddr, h.chain.tagged_of_mem.sizeAt_eq, extent_append, extent_cons, extent_nil]
    show heapStart + extent pre + 4 - 4 + b.size = _
    omega
  unfold FreeBehind
  rw [hbehind]
  have hchain := (chain_append.mp h.chain).2
  rw [extent_append] at hcovers
  cases post with
  | nil =>
    rw [extent_nil] at hcovers
    refine iff_of_false (fun hlt => ?_) fun hall => hall fun c hc => absurd hc (by simp)
    exact absurd hlt.1 (by omega)
  | cons c post =>
    have hc := hchain.1.min
    rw [extent_cons] at hcovers
    rw [and_iff_right (by omega), (header_spec hchain.1).2, head?_cons]
    constructor
    · exact fun hfree hall => absurd (hall c rfl) (by rw [hfree]; decide)
    · refine fun hall => Bool.eq_false_iff.mpr fun hused => hall fun d hd => ?_
      cases hd
      exact hused

/-- A request that is larger than the block of `p` is not served from a first block of the
    smallest size. -/
theorem Heap.leavesGap_malloc (hgrow : b.size < needOf (roundUp size))
    (heq : mallocImpl m size = some (r, m')) (hr : r ≠ 0) : LeavesGap m' p ↔ LeavesGap m p := by
  have hmin : minBlock = 12 := rfl
  refine and_congr_right fun hp => ?_
  rcases mallocImpl_blocks h size with hfail | ⟨pre1, b1, post1, m1, hbs, -, hfit, hok, -, hs, -, -⟩
  · exact absurd (congrArg Prod.fst (some.inj (hfail.symm.trans heq))).symm hr
  obtain ⟨-, rfl⟩ := Prod.mk.inj (some.inj (hok.symm.trans heq))
  have hb := h.chain.tagged_of_mem.min
  have hchain := h.chain
  rw [append_assoc, chain_append] at hchain
  have hext : extent pre = minBlock := by
    change p = heapStart + minBlock + 4 at hp
    omega
  obtain ⟨c, rfl, hsize⟩ := one_block_of_extent hchain.1 hext
  cases pre1 with
  | nil =>
    -- the first block is too small
    obtain ⟨rfl, -⟩ := List.cons.inj hbs
    omega
  | cons c' pre1 =>
    obtain ⟨rfl, -⟩ := List.cons.inj hbs
    rw [hs.same.load32_eq (.inl (by rw [extent_cons]; omega))]

end

/-- `realloc_impl` keeps free blocks apart exactly if its neighbours allow it. -/
theorem realloc_noFreePair_iff (h : Heap m out bs) (hapart : NoFreePair bs) (hp : p ∈ out)
    (hsize : size ≠ 0) (heq : reallocImpl m p size = some (r, m')) :
    Coalesced m' ↔ ReallocJoins m p size := by
  have hmin : minBlock = 12 := rfl
  obtain ⟨pre, b, post, rfl, hused, haddr⟩ := h.block_of_mem hp
  have hb : sizeAt m p = b.size := by
    rw [haddr]
    exact h.chain.tagged_of_mem.sizeAt_eq
  obtain ⟨hpre, hpost⟩ := hapart.sides
  obtain ⟨r', m'', heq', hdone⟩ := reallocImpl_spec h hused haddr hsize
  obtain ⟨rfl, rfl⟩ := Prod.mk.inj (some.inj (heq'.symm.trans heq))
  unfold ReallocJoins
  rw [hb, h.freeBehind_iff haddr, not_not]
  cases hdone with
  | cut hfit hrest hs =>
    rw [((h.cut hused haddr hs).1).coalesced_iff, noFreePair_carve hpre hpost]
    refine ⟨fun hhead => ⟨fun _ => hhead hrest, fun hgrow => ?_⟩, fun hall _ => hall.1 (by omega)⟩
    omega
  | kept hfit hrest =>
    exact iff_of_true (h.coalesced_iff.mpr hapart) ⟨fun hcut => by omega, fun hgrow => by omega⟩
  | failed hgrow hnone =>
    refine iff_of_true (h.coalesced_iff.mpr hapart) ⟨fun hcut => by omega, fun _ q m₁ hq hr => ?_⟩
    obtain ⟨rfl, -⟩ := Prod.mk.inj (some.inj (hnone.symm.trans hq))
    exact absurd rfl hr
  | @moved _ n m1 hgrow hmalloc hr hn =>
    obtain ⟨-, hu, hle, hcap⟩ := mallocImpl_ok h hmalloc hr
    obtain ⟨bs1, h1, hapart1⟩ := malloc_noFreePair h hapart hmalloc
    rw [if_neg hr] at h1
    have hcover := Nat.le_trans (roundUp_of_le hle).1 hcap
    have hend := h1.capacity_le mem_cons_self
    have hlow := (h1.chain.inside_of_mem (h1.used.mem_iff.mp mem_cons_self)).1
    have hstart : heapStart + heapSize = 0xA00000 := rfl
    have hsame : SameOutside m1 (copyBytes m1 r' p n) r' (r' + n) :=
      sameOutside_copyBytes (by omega)
    obtain ⟨hcopy, -⟩ := h1.write_new (Nat.le_trans hn hcover) hsame
    have hgap : LeavesGap (copyBytes m1 r' p n) p ↔ LeavesGap m p := by
      have hround : roundUp (roundUp size) = roundUp size := by
        have hspec := roundUp_spec size
        have hheap : heapSize = 0x200000 := rfl
        show u32 (roundUp size + 3) / 4 * 4 = roundUp size
        rw [u32_of_lt (by omega)]
        omega
      rw [← h.leavesGap_malloc haddr (by rw [hround]; exact hgrow) hmalloc hr]
      unfold LeavesGap
      rw [hsame.load32_eq (.inl (by omega))]
    rw [free_noFreePair_iff hcopy hapart1 (mem_cons_of_mem r' hp), hgap]
    exact ⟨fun hno => ⟨fun hcut => by omega, fun _ _ _ _ _ => hno⟩,
      fun hall => hall.2 hgrow r' m1 hmalloc hr⟩

end

/-- In every heap that is tiled by blocks, with no two neighbours free, `realloc` of an
    outstanding pointer to a size other than zero returns, and leaves no two neighbours free
    exactly if it cuts nothing off in front of a free block and does not move the second block
    away from a free first block of the smallest size. -/
theorem realloc_coalesced_iff (m : Mem) (out : List Nat) (bs : List Block) (h : Heap m out bs)
    (hapart : NoFreePair bs) (p : Nat) (hp : p ∈ out) (size : Nat) (hsize : 0 < size) :
    ∃ r m', reallocImpl m p size = some (r, m') ∧ (Coalesced m' ↔ ReallocJoins m p size) := by
  obtain ⟨r, m', heq, -⟩ := realloc_keeps h hp (Nat.pos_iff_ne_zero.mp hsize)
  exact ⟨r, m', heq, realloc_noFreePair_iff h hapart hp (Nat.pos_iff_ne_zero.mp hsize) heq⟩

/-- One block of 108 bytes on a fresh heap. -/
def bigBlock : HeapHistory := heapStep (.call (.malloc 100)) ⟨heapInit fun _ => 0, []⟩

theorem bigBlock_spec : bigBlock.out = [0x800004] ∧
    ∃ bs, Heap bigBlock.mem bigBlock.out bs ∧ NoFreePair bs := by
  have hout : bigBlock.out = [0x800004] := by decide +kernel
  obtain ⟨r, m', heq, -⟩ := malloc_keeps (heap_heapInit fun _ => 0) 100
  have hstep : bigBlock = ⟨m', if r = 0 then [] else r :: []⟩ := by
    show heapStep (.call (.malloc 100)) _ = _
    have hrun : (HeapCall.malloc 100).run (heapInit fun _ => 0) = some (r, m') := heq
    simp only [heapStep, hrun, HeapCall.outAfter]
  refine ⟨hout, ?_⟩
  rw [hstep]
  exact malloc_noFreePair (heap_heapInit fun _ => 0) (List.isChain_singleton _) heq

/-- Growing the block moves it, and its bytes are joined with those in front. -/
theorem realloc_coalesced_iff_bigBlock : ∃ r m',
    reallocImpl bigBlock.mem 0x800004 200 = some (r, m') ∧ Coalesced m' := by
  obtain ⟨hout, bs, h, hapart⟩ := bigBlock_spec
  obtain ⟨r, m', heq, hiff⟩ := realloc_coalesced_iff bigBlock.mem bigBlock.out bs h hapart 0x800004
    (by rw [hout]; decide) 200 (by decide)
  refine ⟨r, m', heq, hiff.mpr ⟨fun hcut => absurd hcut (by decide +kernel), fun _ _ _ _ _ hgap => ?_⟩⟩
  exact absurd hgap.1 (by decide)

/-- Shrinking it leaves the 96 bytes cut off next to the rest of the heap. -/
theorem realloc_splits_free : ∃ bs, Heap bigBlock.mem bigBlock.out bs ∧ NoFreePair bs ∧
    0x800004 ∈ bigBlock.out ∧ ∃ r m', reallocImpl bigBlock.mem 0x800004 4 = some (r, m') ∧
      ¬ Coalesced m' := by
  obtain ⟨hout, bs, h, hapart⟩ := bigBlock_spec
  have hp : 0x800004 ∈ bigBlock.out := by rw [hout]; decide
  obtain ⟨r, m', heq, -⟩ := realloc_keeps h hp (show 4 ≠ 0 by decide)
  refine ⟨bs, h, hapart, hp, r, m', heq, fun hco => ?_⟩
  have hjoins := (realloc_noFreePair_iff h hapart hp (by decide) heq).mp hco
  exact hjoins.1 (by decide +kernel) ⟨by decide +kernel, by decide +kernel⟩

/-! ## Whole runs -/

/-- Steps other than calls of `realloc`. -/
def HeapOp.NoRealloc : HeapOp → Prop
  | .call (.realloc _ _) => False
  | _ => True

/-- The step is not a call of `free` that leaves the first two blocks unjoined. -/
def FreesWell : HeapOp → HeapHistory → Prop
  | .call (.free ptr), s => ¬ LeavesGap s.mem ptr.toNat
  | _, _ => True

/-- A history whose heap has no two free neighbours. -/
def CoalescedHistory (s : HeapHistory) : Prop := ∃ bs, Heap s.mem s.out bs ∧ NoFreePair bs

variable {s : HeapHistory}

theorem heapStep_call {c : HeapCall} {r : Nat} {m' : Mem}
    (heq : c.run s.mem = some (r, m')) : heapStep (.call c) s = ⟨m', c.outAfter r s.out⟩ := by
  simp only [heapStep, heq]

theorem step_coalesced_iff (h : CoalescedHistory s) (op : HeapOp)
    (hop : HeapAllowed op s) (hno : op.NoRealloc) :
    Coalesced (heapStep op s).mem ↔ FreesWell op s := by
  obtain ⟨bs, h, hapart⟩ := h
  cases op with
  | write addr v => exact iff_of_true ((h.write_byte hop).coalesced_iff.mpr hapart) trivial
  | call c =>
    obtain ⟨r, m', heq, -⟩ := call_keeps h c hop
    rw [heapStep_call heq]
    cases c with
    | malloc size =>
      obtain ⟨bs', h', hapart'⟩ := malloc_noFreePair h hapart heq
      exact iff_of_true (h'.coalesced_iff.mpr hapart') trivial
    | calloc num size =>
      obtain ⟨bs', h', hapart'⟩ := calloc_noFreePair h hapart heq
      exact iff_of_true (h'.coalesced_iff.mpr hapart') trivial
    | realloc ptr size => exact hno.elim
    | free ptr =>
      obtain ⟨-, rfl⟩ := Prod.mk.inj (some.inj heq)
      show Coalesced (freeImpl s.mem ptr.toNat) ↔ ¬ LeavesGap s.mem ptr.toNat
      rcases hop with hnull | hmem
      · change ptr.toNat = 0 at hnull
        rw [hnull]
        refine iff_of_true (h.coalesced_iff.mpr hapart) fun hgap => ?_
        exact absurd hgap.1 (by decide)
      · exact free_noFreePair_iff h hapart hmem

theorem coalescedHistory_step (h : CoalescedHistory s) (op : HeapOp)
    (hop : HeapAllowed op s ∧ op.NoRealloc ∧ FreesWell op s) : CoalescedHistory
    (heapStep op s) := by
  obtain ⟨hallowed, hno, hwell⟩ := hop
  have hco := (step_coalesced_iff h op hallowed hno).mpr hwell
  obtain ⟨bs, h, -⟩ := h
  obtain ⟨bs', h'⟩ := heap_step ⟨bs, h⟩ op hallowed
  exact ⟨bs', h', h'.coalesced_iff.mp hco⟩

theorem coalescedHistory_of_reach {m0 : Mem}
    (hs : Reach heapStep (fun op s => HeapAllowed op s ∧ op.NoRealloc ∧ FreesWell op s)
      ⟨heapInit m0, []⟩ s) : CoalescedHistory s :=
  hs.invariant CoalescedHistory ⟨_, heap_heapInit m0, List.isChain_singleton _⟩
    fun op _ h hop => coalescedHistory_step h op hop

/-- With no pointer outstanding, all blocks are free; with none adjacent, there is one. -/
theorem CoalescedHistory.single (h : CoalescedHistory s) (hout : s.out = []) :
    Chain s.mem heapStart [⟨heapSize, false⟩] := by
  obtain ⟨bs, h, hapart⟩ := h
  have hcovers := h.covers
  have hnone : ∀ pre b post, bs = pre ++ [b] ++ post → b.used = false := by
    intro pre b post hbs
    refine Bool.eq_false_iff.mpr fun hused => ?_
    have hmem := h.used.mem_iff.mpr (mem_usedAt.mpr ⟨pre, b, post, hbs, hused, rfl⟩)
    rw [hout] at hmem
    exact absurd hmem not_mem_nil
  cases bs with
  | nil => contradiction
  | cons b bs =>
    have hb := hnone [] b bs rfl
    cases bs with
    | nil =>
      rw [extent_cons, extent_nil, Nat.add_zero] at hcovers
      have hblock : b = ⟨heapSize, false⟩ := by
        cases b
        exact Block.mk.injEq .. ▸ ⟨hcovers, hb⟩
      rw [← hblock]
      exact h.chain
    | cons c bs =>
      have hc := hnone [b] c bs rfl
      rcases (List.isChain_cons_cons.mp hapart).1 with hused | hused
      · exact absurd hused (by rw [hb]; decide)
      · exact absurd hused (by rw [hc]; decide)

/-- In every history without `realloc` in which no call of `free` is given the second block
    while the first is free and of the smallest size: no two neighbours are free, once every
    pointer is released the heap is one free block of `HEAP_SIZE` bytes, and the next step
    keeps free blocks apart exactly if it is not such a call either. -/
theorem free_coalesces_iff (m₀ : Mem) (s : HeapHistory)
    (hs : Reach heapStep (fun op s => HeapAllowed op s ∧ op.NoRealloc ∧ FreesWell op s)
      ⟨heapInit m₀, []⟩ s) :
    Coalesced s.mem ∧ (s.out = [] → Chain s.mem heapStart [⟨heapSize, false⟩]) ∧
    ∀ op, HeapAllowed op s → op.NoRealloc → (Coalesced (heapStep op s).mem ↔ FreesWell op s) := by
  have h := coalescedHistory_of_reach hs
  refine ⟨?_, h.single, fun op hop hno => step_coalesced_iff h op hop hno⟩
  obtain ⟨bs, h, hapart⟩ := h
  exact h.coalesced_iff.mpr hapart

/-- `malloc(10)`, and its pointer released. -/
theorem free_coalesces_iff_oneBlock :
    Chain (heapStep (.call (.free 0x800004)) oneBlock).mem heapStart [⟨heapSize, false⟩] := by
  have hout : oneBlock.out = [0x800004] := by decide +kernel
  have hgap : FreesWell (.call (.free 0x800004)) oneBlock := fun hgap => absurd hgap.1 (by decide)
  refine (free_coalesces_iff (fun _ => 0) (heapStep (.call (.free 0x800004)) oneBlock) ?_).2.1 ?_
  · refine .next _ (.next (HeapOp.call (.malloc 10)) .start ⟨.inl rfl, trivial, trivial⟩)
      ⟨.inr ?_, trivial, hgap⟩
    rw [hout]
    decide
  · show oneBlock.out.erase 0x800004 = []
    rw [hout]
    decide

/-- Two calls `malloc(4)`, and the first pointer released. -/
def tinyFirst : HeapHistory :=
  heapStep (.call (.free 0x800004)) <| heapStep (.call (.malloc 4)) <|
    heapStep (.call (.malloc 4)) ⟨heapInit fun _ => 0, []⟩

/-- Releasing the second pointer then leaves two free blocks. -/
theorem free_leaves_two_blocks : ∃ s,
    Reach heapStep (fun op s => HeapAllowed op s ∧ op.NoRealloc) ⟨heapInit fun _ => 0, []⟩ s ∧
    s.out = [] ∧ ¬ Coalesced s.mem ∧ ¬ Chain s.mem heapStart [⟨heapSize, false⟩] := by
  have hreach : Reach heapStep (fun op s => HeapAllowed op s ∧ op.NoRealloc ∧ FreesWell op s)
      ⟨heapInit fun _ => 0, []⟩ tinyFirst := by
    refine .next (HeapOp.call (.free 0x800004)) (.next (HeapOp.call (.malloc 4))
      (.next (HeapOp.call (.malloc 4)) .start ⟨.inl rfl, trivial, trivial⟩)
      ⟨.inl rfl, trivial, trivial⟩) ⟨.inr ?_, trivial, fun hgap => absurd hgap.1 (by decide)⟩
    decide +kernel
  have hout : tinyFirst.out = [0x800010] := by decide +kernel
  have hop : HeapAllowed (.call (.free 0x800010)) tinyFirst := .inr (by rw [hout]; decide)
  have hnot : ¬ Coalesced (heapStep (.call (.free 0x800010)) tinyFirst).mem := fun hco =>
    (step_coalesced_iff (coalescedHistory_of_reach hreach) (.call (.free 0x800010)) hop trivial).mp
      hco ⟨by decide, by decide +kernel⟩
  refine ⟨heapStep (.call (.free 0x800010)) tinyFirst, .next _ ?_ ⟨hop, trivial⟩, ?_, hnot, ?_⟩
  · exact hreach.mono fun _ _ hall => ⟨hall.1, hall.2.1⟩
  · show tinyFirst.out.erase 0x800010 = []
    rw [hout]
    decide
  · exact fun hone => hnot ⟨_, hone, rfl, List.isChain_singleton _⟩

end Noverix.Memory
