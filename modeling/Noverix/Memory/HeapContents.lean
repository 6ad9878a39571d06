/-
  What stays in the heap's blocks: contents that `realloc_impl` moves, and the
  word in front of a pointer that was freed.

  A freed block may be joined with its neighbours, and its header is then inside
  a larger free block.  As long as nothing is allocated, the calls write tags of
  free blocks only, and none of them lands on that word but a header.
-/

import Noverix.Memory.HeapRuns
import Mathlib.Data.List.Pairwise

namespace Noverix.Memory

open Lib

variable {m m' : Mem} {out : List Nat} {bs pre post : List Block} {b : Block} {p q r size a : Nat}

/-! ## realloc -/

/-- The blocks of two payloads, tags included, do not overlap. -/
def BlocksApart (m : Mem) (p q : Nat) : Prop := p + sizeAt m p ≤ q ∨ q + sizeAt m q ≤ p

theorem Heap.blocksApart (h : Heap m out bs) (hp : p ∈ out) (hq : q ∈ out) (hne : p ≠ q) :
    BlocksApart m p q := by
  have hsymm : Std.Symm (BlocksApart m) := ⟨fun _ _ => Or.symm⟩
  have hpairs : (usedAt heapStart bs).Pairwise (BlocksApart m) :=
    h.chain.usedAt_spaced.2.imp fun hpq => .inl hpq.2
  exact hpairs.forall (h.used.mem_iff.mp hp) (h.used.mem_iff.mp hq) hne

theorem sub_eq_capacity (m : Mem) (p : Nat) : sizeAt m p - 8 = capacity m p := by
  show _ = sizeAt m p - 4 - 4
  omega

/-- Whatever `realloc_impl` does with the block, the pointer it returns has its contents. -/
theorem Reallocated.contents (h : Heap m out (pre ++ [b] ++ post)) (hused : b.used = true)
    (haddr : p = heapStart + extent pre + 4) (hle : size ≤ heapSize)
    (hdone : Reallocated m p size pre b post r m') (hr : r ≠ 0) :
    ∀ i, i < min (b.size - 8) size → m' (r + i) = m (p + i) := by
  intro i hi
  have hheap : heapSize = 0x200000 := rfl
  have hstart : heapStart = 0x800000 := rfl
  have hround := roundUp_of_le hle
  cases hdone with
  | cut hfit hrest hs hkept =>
    have hneed := le_needOf (roundUp size) (by omega)
    exact hkept _ (Nat.le_add_right p i) (by omega)
  | kept hfit hrest => rfl
  | failed => exact absurd rfl hr
  | @moved _ n m1 hgrow hmalloc _ hn hcopy =>
    have hp : p ∈ out := h.used.mem_iff.mpr (mem_usedAt.mpr ⟨pre, b, post, rfl, hused, haddr⟩)
    obtain ⟨⟨bs', h1⟩, hu, hle', hcap⟩ := mallocImpl_ok h hmalloc hr
    have hrp : r ≠ p := by
      rintro rfl
      exact (nodup_cons.mp h1.nodup).1 hp
    -- both payloads, in the memory that is copied
    have hold : capacity m1 p = b.size - 8 := by
      rw [← h.capacity_eq haddr]
      unfold capacity
      rw [(hu p hp).size]
    have hnew := h1.capacity_le mem_cons_self
    have hlow := h1.capacity_le (mem_cons_of_mem r hp)
    have hapart : PayloadsApart m1 r p :=
      (List.pairwise_cons.mp h1.payloadsApart).1 p hp
    unfold PayloadsApart at hapart
    have hroom : n ≤ capacity m1 r := Nat.le_trans hn (Nat.le_trans (roundUp_of_le hle').1 hcap)
    have hsame : SameOutside m1 (copyBytes m1 r p n) r (r + n) := sameOutside_copyBytes (by omega)
    obtain ⟨hcopied, -⟩ := h1.write_new hroom hsame
    obtain ⟨-, -, hfree⟩ := freeImpl_spec hcopied (mem_cons_of_mem r hp)
    have hkeep := (hfree r mem_cons_self hrp).payload (r + i) (Nat.le_add_right r i)
    have hcapr : capacity (copyBytes m1 r p n) r = capacity m1 r := by
      have hin := h1.chain.inside_of_mem (h1.used.mem_iff.mp mem_cons_self)
      unfold capacity sizeAt
      rw [hsame.load32_eq (.inl (by omega))]
    rw [sub_eq_capacity, hcapr] at hkeep
    rw [hkeep (by omega), copyBytes_read (by omega) (by omega) (by omega) (by omega)]
    refine (hu p hp).payload (p + i) (Nat.le_add_right p i) ?_
    rw [sub_eq_capacity, h.capacity_eq haddr]
    omega

/-- What a call of `realloc` for `p` that returns `q` leaves. -/
structure ReallocKeeps (s s' : HeapHistory) (p size q : Nat) : Prop where
  contents : q ≠ 0 → ∀ i, i < min (capacity s.mem p) size → s'.mem (q + i) = s.mem (p + i)
  released : q ≠ 0 → q ≠ p → ∃ bs, Chain s'.mem heapStart bs ∧ extent bs = heapSize ∧
    p ∉ usedAt heapStart bs
  apart : q ≠ 0 → q ≠ p → ∀ r ∈ s'.out, r ≠ q → BlocksApart s'.mem q r
  failed : q = 0 → p ∈ s'.out ∧ capacity s'.mem p = capacity s.mem p ∧
    ∀ i, i < capacity s.mem p → s'.mem (p + i) = s.mem (p + i)

/-- In every history, a call of `realloc` that returns a pointer has kept the contents, up to
    the smaller of the two sizes, has released the block if it moved, and shares no byte of the
    new one with another; a call that fails has changed nothing of the block. -/
theorem realloc_preserves (m₀ : Mem) (s : HeapHistory)
    (hs : Reach heapStep HeapAllowed ⟨heapInit m₀, []⟩ s) (p size : UInt32) (hp : p.toNat ∈ s.out)
    (hpos : 0 < size.toNat) (hle : size.toNat ≤ heapSize) :
    ∃ q, (HeapCall.realloc p size).run s.mem
        = some (q, (heapStep (.call (.realloc p size)) s).mem) ∧
      ReallocKeeps s (heapStep (.call (.realloc p size)) s) p.toNat size.toNat q := by
  obtain ⟨bs, h⟩ := heap_of_reach hs
  obtain ⟨pre, b, post, rfl, hused, haddr⟩ := h.block_of_mem hp
  have hne := (h.header_of_mem hused haddr).1
  obtain ⟨q, m', heq, hdone⟩ := reallocImpl_spec h hused haddr (Nat.pos_iff_ne_zero.mp hpos)
  have hrun : (HeapCall.realloc p size).run s.mem = some (q, m') := heq
  obtain ⟨r, m'', heq', hkeeps⟩ := realloc_keeps h hp (Nat.pos_iff_ne_zero.mp hpos)
  obtain ⟨rfl, rfl⟩ := Prod.mk.inj (Option.some.inj (heq'.symm.trans heq))
  obtain ⟨⟨bs', hheap⟩, -⟩ := hkeeps
  have hp0 : ¬ p = 0 := fun h0 => hne (by rw [h0]; rfl)
  have hsize0 : ¬ size = 0 := fun h0 => by
    rw [h0] at hpos
    exact Nat.lt_irrefl 0 hpos
  have hstep : heapStep (.call (.realloc p size)) s
      = ⟨m'', if r = 0 then s.out else r :: s.out.erase p.toNat⟩ := by
    simp only [heapStep, hrun, HeapCall.outAfter, if_neg hp0, if_neg hsize0]
  rw [hstep]
  refine ⟨r, hrun, ⟨fun hr => ?_, fun hr hrp => ?_, fun hr _ t ht htr => ?_, fun hr => ?_⟩⟩
  · rw [h.capacity_eq haddr]
    exact hdone.contents h hused haddr hle hr
  · refine ⟨bs', hheap.chain, hheap.covers, fun hmem => ?_⟩
    have hout := hheap.used.mem_iff.mpr hmem
    rw [if_neg hr] at hout
    rcases mem_cons.mp hout with heq | hmem
    · exact hrp heq.symm
    · exact (h.nodup.mem_erase_iff.mp hmem).1 rfl
  · refine hheap.blocksApart ?_ ht htr.symm
    rw [if_neg hr]
    exact mem_cons_self
  · subst hr
    generalize hzero : (0 : Nat) = z at hdone
    cases hdone with
    | cut hfit hrest hs => exact absurd hzero.symm hne
    | kept hfit hrest => exact absurd hzero.symm hne
    | failed => exact ⟨hp, rfl, fun _ _ => rfl⟩
    | moved hgrow hmalloc hr => exact absurd hzero.symm hr

/-- The block of ten bytes grows to twenty. -/
theorem realloc_preserves_oneBlock :
    ∃ q, (HeapCall.realloc 0x800004 20).run oneBlock.mem
        = some (q, (heapStep (.call (.realloc 0x800004 20)) oneBlock).mem) ∧
      ReallocKeeps oneBlock (heapStep (.call (.realloc 0x800004 20)) oneBlock) 0x800004 20 q :=
  realloc_preserves (fun _ => 0) oneBlock
    (.next (HeapOp.call (.malloc 10)) .start (Or.inl rfl)) 0x800004 20 (by decide +kernel)
    (by decide) (by decide)

/-! ## Freeing twice -/

/-- No block ends in the twelve bytes behind `a`. -/
def NoSeam (bs : List Block) (a : Nat) : Prop :=
  ∀ front rest, front ++ rest = bs →
    heapStart + extent front ≤ a ∨ a + 12 ≤ heapStart + extent front

theorem noSeam_start (hb : 12 ≤ b.size) :
    NoSeam (pre ++ [b] ++ post) (heapStart + extent pre) := by
  intro front rest heq
  rw [append_assoc, List.append_eq_append_iff] at heq
  rcases heq with ⟨l, rfl, -⟩ | ⟨l, rfl, hrest⟩
  · rw [extent_append]
    omega
  cases l with
  | nil =>
    rw [append_nil]
    omega
  | cons c l =>
    obtain ⟨rfl, -⟩ := List.cons.inj hrest
    rw [extent_append, extent_cons]
    omega

theorem NoSeam.joined {front mid rest : List Block} {c : Block}
    (h : NoSeam (front ++ mid ++ rest) a)
    (hext : extent (front ++ [c] ++ rest) = extent (front ++ mid ++ rest)) :
    NoSeam (front ++ [c] ++ rest) a := by
  intro front' rest' heq
  rw [append_assoc, List.append_eq_append_iff] at heq
  rcases heq with ⟨l, rfl, -⟩ | ⟨l, rfl, hrest⟩
  · exact h front' (l ++ mid ++ rest) (by simp only [append_assoc])
  cases l with
  | nil =>
    rw [append_nil]
    exact h front (mid ++ rest) (by rw [append_assoc])
  | cons d l =>
    obtain ⟨rfl, htail⟩ := List.cons.inj hrest
    change rest = l ++ rest' at htail
    subst htail
    have hold := h (front ++ mid ++ l) rest' (by simp only [append_assoc])
    simp only [extent_append, extent_cons, extent_nil] at hext hold ⊢
    omega

theorem even_putTags {x n : Nat} (hx : x ≤ a ∨ a + 12 ≤ x) (hn : x + n ≤ a ∨ a + 12 ≤ x + n)
    (hxa : x % 4 = 0) (ha : a % 4 = 0) (hmin : 12 ≤ n) (heven : n % 4 = 0) (hlt : n < 2 ^ 32)
    (h : x ≠ a → load32 m a % 2 = 0) : load32 (putTags m x ⟨n, false⟩) a % 2 = 0 := by
  unfold putTags
  rw [load32_store32_disjoint _ (by show a + 4 ≤ x + n - 4 ∨ x + n - 4 + 4 ≤ a; omega)]
  by_cases hxa' : x = a
  · subst hxa'
    rw [load32_store32_same]
    show (n + 0) % 2 ^ 32 % 2 = 0
    omega
  rw [load32_store32_disjoint _ (by omega)]
  exact h hxa'

/-- The word at `a` reads as the header of a free block, and no block ends right behind it. -/
def FreedWord (a : Nat) (s : HeapHistory) : Prop :=
  ∃ bs, Heap s.mem s.out bs ∧ NoSeam bs a ∧ load32 s.mem a % 2 = 0

/-- A call of `free` for a block leaves it so; the header of its own block becomes so. -/
theorem freedWord_free (h : Heap m out (pre ++ [b] ++ post)) (hused : b.used = true)
    (haddr : p = heapStart + extent pre + 4) (hseam : NoSeam (pre ++ [b] ++ post) a)
    (ha : a % 4 = 0)
    (heven : heapStart + extent pre ≠ a → load32 m a % 2 = 0) :
    FreedWord a ⟨freeImpl m p, out.erase p⟩ := by
  have hstart : heapStart = 0x800000 := rfl
  have hheap : heapSize = 0x200000 := rfl
  obtain ⟨pre', size', post', hnew, hprev, hnext, -, hind⟩ := freeImpl_blocks h hused haddr
  obtain ⟨l, rfl⟩ : ∃ l, pre = pre' ++ l := by
    rcases hprev with ⟨rfl, -⟩ | ⟨c, rfl, -⟩
    · exact ⟨[], (append_nil _).symm⟩
    · exact ⟨[c], rfl⟩
  obtain ⟨r, rfl⟩ : ∃ r, post = r ++ post' := by
    rcases hnext with ⟨rfl, -⟩ | ⟨c, rfl, -⟩
    · exact ⟨[], rfl⟩
    · exact ⟨[c], rfl⟩
  have hlist : pre' ++ l ++ [b] ++ (r ++ post') = pre' ++ (l ++ [b] ++ r) ++ post' := by
    simp only [append_assoc]
  have hext : extent (pre' ++ [⟨size', false⟩] ++ post')
      = extent (pre' ++ (l ++ [b] ++ r) ++ post') := by
    rw [hnew.covers, ← h.covers, hlist]
  -- tags from one seam of the chain to another
  have hput : ∀ (m' : Mem) (front mid rest : List Block),
      front ++ mid ++ rest = pre' ++ l ++ [b] ++ (r ++ post') → 12 ≤ extent mid →
      (heapStart + extent front ≠ a → load32 m' a % 2 = 0) →
      load32 (putTags m' (heapStart + extent front) ⟨extent mid, false⟩) a % 2 = 0 := by
    intro m' front mid rest heq hmin hev
    have hchain := h.chain
    have hcovers := h.covers
    rw [← heq] at hchain hcovers
    obtain ⟨hfront, hmid⟩ := chain_append.mp (chain_append.mp hchain).1
    have h1 := Chain.extent_aligned hfront
    have h2 := Chain.extent_aligned hmid
    have hs1 := hseam front (mid ++ rest) (by rw [← append_assoc, heq])
    have hs2 := hseam (front ++ mid) rest heq
    simp only [extent_append] at hcovers hs2
    exact even_putTags hs1 (by omega) (by omega) ha hmin h2 (by omega) hev
  have hmin := (h.header_of_mem hused haddr).2.2.2.2.2.1
  refine ⟨_, hnew, (hlist ▸ hseam).joined hext, hind (fun m => load32 m a % 2 = 0) ?_ ?_⟩
  · exact hput m (pre' ++ l) [b] (r ++ post') rfl hmin heven
  · exact fun m' front mid rest heq hmin hev => hput m' front mid rest heq hmin fun _ => hev

/-- Calls of `free` for pointers that are outstanding. -/
def FreesOutstanding (op : HeapOp) (s : HeapHistory) : Prop :=
  ∃ q : UInt32, op = .call (.free q) ∧ q.toNat ∈ s.out

/-- In every history, once an outstanding pointer has been freed and others after it, freeing it
    again changes nothing. -/
theorem double_free_harmless (m₀ : Mem) (s : HeapHistory)
    (hs : Reach heapStep HeapAllowed ⟨heapInit m₀, []⟩ s) (p : UInt32) (hp : p.toNat ∈ s.out)
    (t : HeapHistory) (ht : Reach heapStep FreesOutstanding (heapStep (.call (.free p)) s) t) :
    freeImpl t.mem p.toNat = t.mem := by
  obtain ⟨bs, h⟩ := heap_of_reach hs
  have haligned := h.aligned hp
  obtain ⟨pre, b, post, rfl, hused, haddr⟩ := h.block_of_mem hp
  obtain ⟨hne, hsub, hext, -, -, hmin, -⟩ := h.header_of_mem hused haddr
  have hword : FreedWord (heapStart + extent pre) t := by
    refine ht.invariant (FreedWord (heapStart + extent pre)) ?_ ?_
    · exact freedWord_free h hused haddr (noSeam_start hmin) (by omega) fun hno => absurd rfl hno
    · rintro op u ⟨bs', h', hseam, heven⟩ ⟨q, rfl, hq⟩
      obtain ⟨pre', c, post', rfl, hc, hqaddr⟩ := h'.block_of_mem hq
      exact freedWord_free h' hc hqaddr hseam (by omega) fun _ => heven
  obtain ⟨-, -, -, heven⟩ := hword
  have hrange : ¬ (heapStart + extent pre < heapStart ∨
      heapStart + heapSize ≤ heapStart + extent pre) := by
    omega
  simp only [freeImpl, if_neg hne, hsub]
  rw [if_neg hrange, if_pos heven]

/-- A second block after the first. -/
def twoBlocks : HeapHistory := heapStep (.call (.malloc 20)) oneBlock

theorem reach_twoBlocks : Reach heapStep HeapAllowed ⟨heapInit fun _ => 0, []⟩ twoBlocks :=
  .next (HeapOp.call (.malloc 20)) (.next (HeapOp.call (.malloc 10)) .start (Or.inl rfl)) (Or.inl rfl)

theorem twoBlocks_out : twoBlocks.out = [0x800018, 0x800004] := by decide +kernel

/-- Both are freed, and then the first one again. -/
theorem double_free_harmless_twoBlocks :
    let t := heapStep (.call (.free 0x800018)) (heapStep (.call (.free 0x800004)) twoBlocks)
    t.out = [] ∧ freeImpl t.mem 0x800004 = t.mem := by
  refine ⟨by decide +kernel, double_free_harmless (fun _ => 0) twoBlocks reach_twoBlocks 0x800004
    (by rw [twoBlocks_out]; decide) _ (.next (HeapOp.call (.free 0x800018)) .start
      ⟨0x800018, rfl, ?_⟩)⟩
  decide +kernel

/-! ## Whole runs -/

/-- What the owner of `p` allows: it is not given to a call, and its payload is not written to. -/
def LeavesAlone (p : Nat) : HeapOp → HeapHistory → Prop
  | .call c, _ => c.arg ≠ p
  | .write addr _, s => addr < p ∨ p + capacity s.mem p ≤ addr

theorem HeapCall.mem_outAfter (c : HeapCall) (hp : p ∈ out) (hc : c.arg ≠ p) :
    p ∈ c.outAfter r out := by
  have herase : p ∈ out.erase c.arg := (List.mem_erase_of_ne hc.symm).mpr hp
  cases c with
  | free ptr => exact herase
  | _ =>
    simp only [outAfter, arg] at herase ⊢
    split_ifs <;> simp [hp, herase]

theorem Heap.untouched_write {addr : Nat} {v : UInt8} (h : Heap m out bs) (hp : p ∈ out)
    (hw : HeapAllowed (.write addr v) ⟨m, out⟩) (hout : LeavesAlone p (.write addr v) ⟨m, out⟩) :
    Untouched m (update m addr v) p := by
  have hother : ∀ i, i ≠ addr → update m addr v i = m i := fun i hi => update_of_ne hi ..
  have houtside : addr < heapStart ∨ heapStart + heapSize ≤ addr →
      Untouched m (update m addr v) p := by
    intro hfar
    obtain ⟨pre, b, post, -, -, haddr⟩ := h.block_of_mem hp
    have hend := h.capacity_le hp
    rw [← sub_eq_capacity] at hend
    exact ⟨congrArg (· / 2 * 2) (load32_congr fun i _ _ => hother i (by omega)),
      fun i _ _ => hother i (by omega)⟩
  rcases hw with hw | hw | ⟨q, hq, hlo, hhi⟩
  · exact houtside (.inl hw)
  · exact houtside (.inr hw)
  · refine (h.write hq fun i hi => hother i ?_).2 p hp fun heq => ?_
    · simp only at hlo hhi
      omega
    · subst heq
      exact hout.elim (Nat.not_lt.mpr hlo) (Nat.not_le.mpr hhi)

/-- What a client has in its block stays there, through any run of calls and writes of the others,
    for as long as it keeps the pointer to itself. -/
theorem heap_data_persists (m₀ : Mem) (s t : HeapHistory) (p : Nat)
    (hs : Reach heapStep HeapAllowed ⟨heapInit m₀, []⟩ s) (hp : p ∈ s.out)
    (ht : Reach heapStep (fun op u => HeapAllowed op u ∧ LeavesAlone p op u) s t) :
    p ∈ t.out ∧ capacity t.mem p = capacity s.mem p ∧
      ∀ i, p ≤ i → i < p + capacity s.mem p → t.mem i = s.mem i := by
  have hkept : (∃ bs, Heap t.mem t.out bs) ∧ p ∈ t.out ∧ Untouched s.mem t.mem p := by
    refine ht.invariant (fun u => (∃ bs, Heap u.mem u.out bs) ∧ p ∈ u.out ∧
      Untouched s.mem u.mem p) ⟨heap_of_reach hs, hp, .refl _ _⟩ ?_
    rintro op u ⟨⟨bs, h⟩, hu, hsame⟩ ⟨hop, hleft⟩
    refine ⟨heap_step ⟨bs, h⟩ op hop, ?_⟩
    cases op with
    | call c =>
      obtain ⟨r, m', heq, -, hothers⟩ := call_keeps h c hop
      simp only [heapStep, heq]
      exact ⟨c.mem_outAfter hu hleft, hsame.trans (hothers p hu hleft.symm)⟩
    | write addr v => exact ⟨hu, hsame.trans (h.untouched_write hu hop hleft)⟩
  obtain ⟨-, hout, hsame⟩ := hkept
  exact ⟨hout, congrArg (· - 4 - 4) hsame.size, fun i hlo hhi =>
    hsame.payload i hlo (by rw [sub_eq_capacity]; exact hhi)⟩

/-- Two blocks, with the byte 7 in the first. -/
def sevenFirst : HeapHistory := heapStep (.write 0x800004 7) twoBlocks

/-- The byte stays while the second block is freed and a larger one taken. -/
theorem heap_data_persists_sevenFirst :
    let t := heapStep (.call (.malloc 100)) (heapStep (.call (.free 0x800018)) sevenFirst)
    t.out = [0x800018, 0x800004] ∧ capacity t.mem 0x800004 = 12 ∧ t.mem 0x800004 = 7 := by
  have hcap : capacity twoBlocks.mem 0x800004 = 12 := by decide +kernel
  have hcap' : capacity sevenFirst.mem 0x800004 = 12 := by decide +kernel
  have hout : sevenFirst.out = [0x800018, 0x800004] := twoBlocks_out
  have hs : Reach heapStep HeapAllowed ⟨heapInit fun _ => 0, []⟩ sevenFirst := by
    refine .next (HeapOp.write 0x800004 7) reach_twoBlocks (.inr (.inr ⟨0x800004, ?_, le_rfl, ?_⟩))
    · rw [twoBlocks_out]
      decide
    · rw [hcap]
      decide
  intro t
  have ht : Reach heapStep (fun op u => HeapAllowed op u ∧ LeavesAlone 0x800004 op u)
      sevenFirst t := by
    refine .next (HeapOp.call (.malloc 100)) (.next (HeapOp.call (.free 0x800018)) .start
      ⟨.inr ?_, fun h => by cases h⟩) ⟨.inl rfl, fun h => by cases h⟩
    rw [hout]
    decide
  obtain ⟨-, hsame, hbytes⟩ := heap_data_persists _ _ _ 0x800004 hs (by rw [hout]; decide) ht
  refine ⟨by decide +kernel, hsame.trans hcap', (hbytes _ le_rfl ?_).trans ?_⟩
  · rw [hcap']
    decide
  · show Function.update twoBlocks.mem 0x800004 7 0x800004 = 7
    exact Function.update_self ..

end Noverix.Memory
