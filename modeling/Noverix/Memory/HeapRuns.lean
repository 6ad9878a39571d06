/-
  Histories of the kernel heap.

  A history is the memory together with the pointers that were returned and not
  released.  Clients write where they like outside the heap, and inside it only
  to payloads that are outstanding.  In every history the heap is tiled by
  blocks whose tags agree, the blocks in use are those of the outstanding
  pointers, and a call changes no payload but that of its argument or result.
-/

import Noverix.Memory.Heap
import Noverix.Lib.Runs

namespace Noverix.Memory

open Lib

/-! ## Histories -/

/-- The memory, and the pointers outstanding. -/
structure HeapHistory where
  mem : Mem
  out : List Nat

/-- The calls. -/
inductive HeapCall where
  | malloc (size : UInt32)
  | calloc (num size : UInt32)
  | realloc (ptr size : UInt32)
  | free (ptr : UInt32)

/-- The pointer a call returns (0 for `free`) and the memory; `none` if the machine halts. -/
def HeapCall.run : HeapCall → Mem → Option (Nat × Mem)
  | .malloc size, m => mallocImpl m size.toNat
  | .calloc num size, m => callocImpl m num.toNat size.toNat
  | .realloc ptr size, m => reallocImpl m ptr.toNat size.toNat
  | .free ptr, m => some (0, freeImpl m ptr.toNat)

/-- The pointer a call is given, 0 if none. -/
def HeapCall.arg : HeapCall → Nat
  | .malloc _ => 0
  | .calloc _ _ => 0
  | .realloc ptr _ => ptr.toNat
  | .free ptr => ptr.toNat

/-- The pointers outstanding after a call that returned `r`. -/
def HeapCall.outAfter (r : Nat) (out : List Nat) : HeapCall → List Nat
  | .malloc _ => if r = 0 then out else r :: out
  | .calloc _ _ => if r = 0 then out else r :: out
  | .realloc ptr size =>
    if ptr = 0 then (if r = 0 then out else r :: out)
    else if size = 0 then out.erase ptr.toNat
    else if r = 0 then out
    else r :: out.erase ptr.toNat
  | .free ptr => out.erase ptr.toNat

/-- What happens: a call, or a client writes a byte. -/
inductive HeapOp where
  | call (c : HeapCall)
  | write (addr : Nat) (v : UInt8)

def heapStep : HeapOp → HeapHistory → HeapHistory
  | .call c, s =>
    match c.run s.mem with
    | some (r, m) => ⟨m, c.outAfter r s.out⟩
    | none => s
  | .write addr v, s => { s with mem := Function.update s.mem addr v }

/-- Calls are given NULL or an outstanding pointer; writes go to payloads or outside the
    heap. -/
def HeapAllowed : HeapOp → HeapHistory → Prop
  | .call c, s => c.arg = 0 ∨ c.arg ∈ s.out
  | .write addr _, s =>
    addr < heapStart ∨ heapStart + heapSize ≤ addr ∨
      ∃ p ∈ s.out, p ≤ addr ∧ addr < p + capacity s.mem p

/-! ## Calls -/

section

variable {m m' : Mem} {out : List Nat} {bs : List Block} {p : Nat}

/-- What a call may do: the heap stays well formed, for the pointers `out'`, and only the
    payload of `arg` changes. -/
def CallKeeps (m : Mem) (out : List Nat) (arg : Nat) (m' : Mem) (out' : List Nat) : Prop :=
  (∃ bs', Heap m' out' bs') ∧ ∀ q ∈ out, q ≠ arg → Untouched m m' q

theorem Heap.callKeeps (h : Heap m out bs) (arg : Nat) : CallKeeps m out arg m out :=
  ⟨⟨bs, h⟩, fun q _ _ => .refl m q⟩

theorem malloc_keeps (h : Heap m out bs) (size : Nat) :
    ∃ r m', mallocImpl m size = some (r, m') ∧
      CallKeeps m out 0 m' (if r = 0 then out else r :: out) := by
  rcases mallocImpl_spec h size with heq | ⟨r, m', bs', heq, hr, hheap, huntouched, -, -⟩
  · exact ⟨0, m, heq, h.callKeeps 0⟩
  refine ⟨r, m', heq, ⟨bs', ?_⟩, fun q hq _ => huntouched q hq⟩
  rw [if_neg hr]
  exact hheap

theorem Heap.capacity_le (h : Heap m out bs) (hp : p ∈ out) :
    p + capacity m p ≤ heapStart + heapSize := by
  have hin := h.chain.inside_of_mem (h.used.mem_iff.mp hp)
  rw [h.covers] at hin
  show p + (sizeAt m p - 4 - 4) ≤ _
  omega

variable {r n : Nat}

theorem Heap.write_new (h : Heap m (r :: out) bs) (hn : n ≤ capacity m r)
    (hsame : SameOutside m m' r (r + n)) :
    Heap m' (r :: out) bs ∧ ∀ q ∈ out, Untouched m m' q := by
  have hr : r ∈ r :: out := mem_cons_self
  obtain ⟨hheap, hu⟩ := h.write hr (hsame.mono le_rfl (Nat.add_le_add_left hn r))
  refine ⟨hheap, fun q hq => hu q (mem_cons_of_mem _ hq) ?_⟩
  rintro rfl
  exact (nodup_cons.mp h.nodup).1 hq

theorem calloc_keeps (h : Heap m out bs) (num size : Nat) :
    ∃ r m', callocImpl m num size = some (r, m') ∧
      CallKeeps m out 0 m' (if r = 0 then out else r :: out) := by
  unfold callocImpl
  split
  · exact ⟨0, m, rfl, h.callKeeps 0⟩
  split
  · exact ⟨0, m, rfl, h.callKeeps 0⟩
  rcases mallocImpl_spec h (u32 (num * size)) with heq |
    ⟨r, m', bs', heq, hr, hheap, huntouched, hle, hcap⟩
  · simp only [heq]
    exact ⟨0, m, rfl, h.callKeeps 0⟩
  simp only [heq]
  rw [if_neg hr]
  have htotal := Nat.le_trans (roundUp_of_le hle).1 hcap
  have hend := hheap.capacity_le mem_cons_self
  have hstart : heapStart + heapSize = 0xA00000 := rfl
  obtain ⟨hheap', hu⟩ := hheap.write_new htotal (sameOutside_fillBytes (v := 0) (by omega))
  refine ⟨r, _, rfl, ⟨bs', ?_⟩, fun q hq _ => (huntouched q hq).trans (hu q hq)⟩
  rw [if_neg hr]
  exact hheap'

theorem free_keeps (h : Heap m out bs) (hp : p = 0 ∨ p ∈ out) :
    CallKeeps m out p (freeImpl m p) (out.erase p) := by
  by_cases hmem : p ∈ out
  · obtain ⟨bs', hheap, hu⟩ := freeImpl_spec h hmem
    exact ⟨⟨bs', hheap⟩, hu⟩
  obtain rfl := hp.resolve_right hmem
  rw [List.erase_of_not_mem hmem]
  exact h.callKeeps 0

/-- What `realloc_impl` does with the block `b` between `pre` and `post`: the pointer it
    returns, and the memory. -/
inductive Reallocated (m : Mem) (p size : Nat) (pre : List Block) (b : Block) (post : List Block) :
    Nat → Mem → Prop
  /-- The block is cut, and the rest is free. -/
  | cut {m' : Mem} (hfit : needOf (roundUp size) ≤ b.size)
      (hrest : minBlock ≤ b.size - needOf (roundUp size))
      (hs : Splice m m' heapStart pre [b] (carve b.size (needOf (roundUp size))) post)
      (hkept : ∀ i, p ≤ i → i < p + needOf (roundUp size) - 8 → m' i = m i) :
      Reallocated m p size pre b post p m'
  /-- The block fits as it is. -/
  | kept (hfit : needOf (roundUp size) ≤ b.size)
      (hrest : ¬ minBlock ≤ b.size - needOf (roundUp size)) :
      Reallocated m p size pre b post p m
  /-- No larger block is found. -/
  | failed (hgrow : b.size < needOf (roundUp size))
      (hnone : mallocImpl m (roundUp size) = some (0, m)) : Reallocated m p size pre b post 0 m
  /-- The contents are copied to a larger block, and the old one is released. -/
  | moved {r n : Nat} {m' : Mem} (hgrow : b.size < needOf (roundUp size))
      (hmalloc : mallocImpl m (roundUp size) = some (r, m')) (hr : r ≠ 0) (hn : n ≤ roundUp size)
      (hcopy : n = min (b.size - 8) (roundUp size)) :
      Reallocated m p size pre b post r (freeImpl (copyBytes m' r p n) p)

variable {pre post : List Block} {size : Nat} {b : Block}

section

variable (h : Heap m out (pre ++ [b] ++ post)) (hused : b.used = true)
  (haddr : p = heapStart + extent pre + 4)
include h hused haddr

theorem reallocImpl_spec (hsize : size ≠ 0) :
    ∃ r m', reallocImpl m p size = some (r, m') ∧ Reallocated m p size pre b post r m' := by
  have hstart : heapStart = 0x800000 := rfl
  have hheap : heapSize = 0x200000 := rfl
  obtain ⟨hne, hsub, hext, hword, hodd, hmin, hbal⟩ := h.header_of_mem hused haddr
  have hrange : ¬ (blockOf p < heapStart ∨ heapStart + heapSize ≤ blockOf p) := by omega
  obtain ⟨hnmin, hnaligned⟩ := needOf_spec (roundUp_spec size).1
  unfold reallocImpl
  rw [if_neg hne, if_neg hsize]
  simp only [hsub, hword] at hrange ⊢
  rw [if_neg hrange, if_neg hodd]
  split
  · next hfit =>
    split
    · next hrest =>
      obtain ⟨hchain, hsame, hkept⟩ := splitBlock_spec (m := m) (a := heapStart + extent pre)
        hnmin hnaligned hrest hbal (by omega)
      exact ⟨p, _, rfl, .cut hfit hrest ⟨extent_carve hfit, hsame, hchain⟩
        fun i hlo hhi => hkept i (by omega) (by omega)⟩
    · next hrest => exact ⟨p, m, rfl, .kept hfit hrest⟩
  next hgrow =>
  rcases mallocImpl_spec h (roundUp size) with heq | ⟨r, m', bs', heq, hr, -⟩
  · rw [heq]
    exact ⟨0, m, rfl, .failed (not_le.mp hgrow) heq⟩
  rw [heq]
  show ∃ r0 m0, (if r = 0 then some (0, m') else some (r, _)) = some (r0, m0) ∧ _
  rw [if_neg hr]
  have hdata : u32 (b.size + 2 ^ 32 - headerSize - footerSize) = b.size - 8 := by
    show (b.size + 2 ^ 32 - 4 - 4) % 2 ^ 32 = _
    omega
  rw [hdata]
  refine ⟨r, _, rfl, .moved (not_le.mp hgrow) heq hr ?_ ?_⟩
  · split <;> omega
  · split <;> omega

theorem Heap.cut {need : Nat} (hs : Splice m m' heapStart pre [b] (carve b.size need) post) :
    Heap m' (p :: out.erase p) (pre ++ carve b.size need ++ post) ∧
      ∀ q ∈ out, q ≠ p → Untouched m m' q := by
  have hp : p ∈ out := h.used.mem_iff.mpr (mem_usedAt.mpr ⟨pre, b, post, rfl, hused, haddr⟩)
  have hmid : usedAt (heapStart + extent pre) [b] = [p] := by
    rw [usedAt, if_pos hused, haddr]
    rfl
  have hnew := h.splice hs (out.erase p) (by rw [hmid]; exact perm_cons_erase hp)
  rw [usedAt_carve, ← haddr] at hnew
  refine ⟨hnew, fun q hq hqp => h.untouched hs hq ?_⟩
  rw [hmid]
  exact fun hmem => hqp (mem_singleton.mp hmem)

end

/-- Moving to a larger block: the new block is written, then the old one released. -/
theorem move_keeps {bs' : List Block} (hp : p ∈ out) (h' : Heap m' (r :: out) bs')
    (hu : ∀ q ∈ out, Untouched m m' q) (hn : n ≤ capacity m' r) :
    CallKeeps m out p (freeImpl (copyBytes m' r p n) p) (r :: out.erase p) := by
  have hend := h'.capacity_le mem_cons_self
  have hstart : heapStart + heapSize = 0xA00000 := rfl
  obtain ⟨hcopy, hu'⟩ := h'.write_new hn (sameOutside_copyBytes (s := p) (by omega))
  have hrp : ¬ (r == p) = true := by
    rw [beq_iff_eq]
    rintro rfl
    exact (nodup_cons.mp h'.nodup).1 hp
  obtain ⟨bs'', hfreed, hu''⟩ := freeImpl_spec hcopy (mem_cons_of_mem r hp)
  rw [List.erase_cons_tail hrp] at hfreed
  refine ⟨⟨bs'', hfreed⟩, fun q hq hqp => ?_⟩
  exact ((hu q hq).trans (hu' q hq)).trans (hu'' q (mem_cons_of_mem r hq) hqp)

theorem realloc_keeps (h : Heap m out bs) (hp : p ∈ out) (hsize : size ≠ 0) :
    ∃ r m', reallocImpl m p size = some (r, m') ∧
      CallKeeps m out p m' (if r = 0 then out else r :: out.erase p) := by
  obtain ⟨pre, b, post, rfl, hused, haddr⟩ := h.block_of_mem hp
  have hne : p ≠ 0 := (h.header_of_mem hused haddr).1
  obtain ⟨r, m', heq, hdone⟩ := reallocImpl_spec h hused haddr hsize
  refine ⟨r, m', heq, ?_⟩
  cases hdone with
  | cut hfit hrest hs =>
    rw [if_neg hne]
    obtain ⟨hheap, hu⟩ := h.cut hused haddr hs
    exact ⟨⟨_, hheap⟩, hu⟩
  | kept hfit hrest =>
    rw [if_neg hne]
    exact ⟨⟨_, h.chain, h.covers, (perm_cons_erase hp).symm.trans h.used⟩,
      fun q _ _ => .refl m q⟩
  | failed => exact h.callKeeps p
  | moved hgrow hmalloc hr hn =>
    rw [if_neg hr]
    obtain ⟨⟨bs', hheap'⟩, hu, hle, hcap⟩ := mallocImpl_ok h hmalloc hr
    exact move_keeps hp hheap' hu (Nat.le_trans hn (Nat.le_trans (roundUp_of_le hle).1 hcap))

theorem call_keeps (h : Heap m out bs) (c : HeapCall) (hc : c.arg = 0 ∨ c.arg ∈ out) :
    ∃ r m', c.run m = some (r, m') ∧ CallKeeps m out c.arg m' (c.outAfter r out) := by
  cases c with
  | malloc size => exact malloc_keeps h size.toNat
  | calloc num size => exact calloc_keeps h num.toNat size.toNat
  | realloc ptr size =>
    have hptr : ptr = 0 ↔ ptr.toNat = 0 := by
      rw [← UInt32.toNat_inj]
      exact .rfl
    have hzero : size = 0 ↔ size.toNat = 0 := by
      rw [← UInt32.toNat_inj]
      exact .rfl
    unfold HeapCall.outAfter
    simp only [hptr, hzero]
    show ∃ r m', reallocImpl m ptr.toNat size.toNat = some (r, m') ∧ _
    by_cases h0 : ptr.toNat = 0
    · simp only [h0, reallocImpl, if_true]
      show ∃ r m', _ ∧ CallKeeps m out ptr.toNat m' _
      rw [h0]
      exact malloc_keeps h size.toNat
    have hmem : ptr.toNat ∈ out := hc.resolve_left h0
    simp only [h0, if_false]
    by_cases hs : size.toNat = 0
    · simp only [hs, if_true, reallocImpl, h0, if_false]
      exact ⟨0, _, rfl, free_keeps h (.inr hmem)⟩
    simp only [hs, if_false]
    exact realloc_keeps h hmem hs
  | free ptr => exact ⟨0, _, rfl, free_keeps h hc⟩

end

/-! ## Whole runs -/

theorem heap_heapInit (m : Mem) : Heap (heapInit m) [] [⟨heapSize, false⟩] := by
  have htags : heapInit m = putTags m heapStart ⟨heapSize, false⟩ :=
    setFooter_eq_putTags m false (by decide) (by decide) rfl
  rw [htags]
  exact ⟨⟨tagged_putTags (by decide) (by decide) (by decide), trivial⟩, rfl, .refl _⟩

theorem Heap.write_byte {m : Mem} {out : List Nat} {bs : List Block} {addr : Nat} {v : UInt8}
    (h : Heap m out bs)
    (hw : addr < heapStart ∨ heapStart + heapSize ≤ addr ∨
      ∃ p ∈ out, p ≤ addr ∧ addr < p + capacity m p) :
    Heap (update m addr v) out bs := by
  have hother : ∀ i ≠ addr, update m addr v i = m i := fun i hi =>
    update_of_ne hi ..
  have houtside : (addr < heapStart ∨ heapStart + heapSize ≤ addr) →
      Heap (update m addr v) out bs := by
    intro hout
    refine ⟨h.chain.congr fun i hlo hhi => hother i ?_, h.covers, h.used⟩
    rw [h.covers] at hhi
    omega
  rcases hw with hw | hw | ⟨p, hp, hlo, hhi⟩
  · exact houtside (.inl hw)
  · exact houtside (.inr hw)
  · exact (h.write hp fun i hi => hother i (by omega)).1

variable {s : HeapHistory}

theorem heap_step (h : ∃ bs, Heap s.mem s.out bs) (op : HeapOp)
    (hop : HeapAllowed op s) : ∃ bs, Heap (heapStep op s).mem (heapStep op s).out bs := by
  obtain ⟨bs, h⟩ := h
  cases op with
  | call c =>
    obtain ⟨r, m', heq, hkeeps, -⟩ := call_keeps h c hop
    have hstep : heapStep (.call c) s = ⟨m', c.outAfter r s.out⟩ := by
      simp only [heapStep, heq]
    rw [hstep]
    exact hkeeps
  | write addr v => exact ⟨bs, h.write_byte hop⟩

theorem heap_of_reach {m0 : Mem}
    (hs : Reach heapStep HeapAllowed ⟨heapInit m0, []⟩ s) : ∃ bs, Heap s.mem s.out bs :=
  hs.invariant (fun s => ∃ bs, Heap s.mem s.out bs) ⟨_, heap_heapInit m0⟩
    fun op _ h hop => heap_step h op hop

/-- The blocks of two outstanding pointers do not overlap. -/
def PayloadsApart (m : Mem) (p q : Nat) : Prop := p + capacity m p ≤ q ∨ q + capacity m q ≤ p

section

variable {m : Mem} {out : List Nat} {bs : List Block} {p : Nat}

theorem Heap.payloadsApart (h : Heap m out bs) : out.Pairwise (PayloadsApart m) := by
  have hsymm : ∀ {p q : Nat}, PayloadsApart m p q → PayloadsApart m q p := Or.symm
  rw [h.used.pairwise_iff hsymm]
  refine h.chain.usedAt_spaced.2.imp fun hpq => .inl ?_
  show _ + (sizeAt m _ - 4 - 4) ≤ _
  omega

theorem Chain.extent_aligned {a : Nat} (h : Chain m a bs) : extent bs % 4 = 0 := by
  induction bs generalizing a with
  | nil => rfl
  | cons b bs ih =>
    have hb := h.1.aligned
    have hbs := ih h.2
    rw [extent_cons]
    omega

theorem Heap.aligned (h : Heap m out bs) (hp : p ∈ out) : p % 4 = 0 := by
  obtain ⟨pre, b, post, rfl, -, rfl⟩ := h.block_of_mem hp
  have hchain := h.chain
  rw [append_assoc, chain_append] at hchain
  have hpre := Chain.extent_aligned hchain.1
  have hstart : heapStart = 0x800000 := rfl
  omega

end

/-- In every history of the heap: blocks with agreeing tags, of sizes that are multiples of 4
    and at least `MIN_BLOCK`, tile it exactly; the outstanding pointers are aligned, belong to
    distinct blocks in use, and their payloads are disjoint; and every call returns and
    changes no payload of an outstanding pointer other than its argument. -/
theorem heap_integrity (m₀ : Mem) (s : HeapHistory)
    (hs : Reach heapStep HeapAllowed ⟨heapInit m₀, []⟩ s) :
    (∃ bs, Chain s.mem heapStart bs ∧ extent bs = heapSize ∧
      ∀ p ∈ s.out, ∃ pre b post, bs = pre ++ [b] ++ post ∧ b.used = true ∧
        p = heapStart + extent pre + headerSize ∧ capacity s.mem p = b.size - 8) ∧
    s.out.Nodup ∧ (∀ p ∈ s.out, p % 4 = 0) ∧ s.out.Pairwise (PayloadsApart s.mem) ∧
    ∀ c : HeapCall, HeapAllowed (.call c) s → ∃ r m', c.run s.mem = some (r, m') ∧
      ∀ p ∈ s.out, p ≠ c.arg → ∀ i, p ≤ i → i < p + capacity s.mem p → m' i = s.mem i := by
  obtain ⟨bs, h⟩ := heap_of_reach hs
  refine ⟨⟨bs, h.chain, h.covers, fun p hp => ?_⟩, h.nodup, fun p hp => h.aligned hp,
    h.payloadsApart, fun c hc => ?_⟩
  · obtain ⟨pre, b, post, hbs, hused, rfl⟩ := h.block_of_mem hp
    exact ⟨pre, b, post, hbs, hused, rfl, (hbs ▸ h).capacity_eq rfl⟩
  · obtain ⟨r, m', heq, -, hu⟩ := call_keeps h c hc
    exact ⟨r, m', heq, fun p hp hne i hlo hhi => (hu p hp hne).payload i hlo hhi⟩

/-- The history of one call of `malloc` on a fresh heap. -/
def oneBlock : HeapHistory := heapStep (.call (.malloc 10)) ⟨heapInit fun _ => 0, []⟩

/-- Its pointer is aligned, and a second call of `malloc` leaves its payload alone. -/
theorem heap_integrity_oneBlock :
    oneBlock.out = [0x800004] ∧ ∃ r m', (HeapCall.malloc 20).run oneBlock.mem = some (r, m') ∧
      ∀ i, 0x800004 ≤ i → i < 0x800004 + capacity oneBlock.mem 0x800004 → m' i = oneBlock.mem i := by
  have hout : oneBlock.out = [0x800004] := by decide +kernel
  have hreach : Reach heapStep HeapAllowed ⟨heapInit fun _ => 0, []⟩ oneBlock :=
    .next (HeapOp.call (.malloc 10)) .start (Or.inl rfl)
  obtain ⟨-, -, -, -, hcall⟩ := heap_integrity (fun _ => 0) oneBlock hreach
  obtain ⟨r, m', heq, hkeep⟩ := hcall (.malloc 20) (.inl rfl)
  exact ⟨hout, r, m', heq, hkeep 0x800004 (by rw [hout]; decide) (by decide)⟩

end Noverix.Memory
