/-
  What the driver does to one inode: `inode_alloc` takes the first free slot,
  `inode_free` gives the blocks back and then clears the record, and the
  shadow-paging update of `nvfs_write` and `nvfs_append` fills a free run,
  stores the record, and then gives the old blocks back.

  Each is one rewriting of its inode (`Rewrites`), so ownership survives it.
  The statements are for any notion of inodes that count (`P`) that looks at
  the type alone: all inodes, or the live ones.
-/

import Noverix.Nvfs.ExtentIO

namespace Noverix.Nvfs

open Lib
open Lib.DiskProg (wp wp_bind wp_getState wp_mono)

variable {P : Inode → Bool} {V : Vol} {i : Nat}
  {ib : Nat} {g : Globals} {d : Disk} {C : Disk → Prop}

/-- A notion of inodes that count which depends on the type alone. -/
def ByType (P : Inode → Bool) : Prop := ∀ m n : Inode, m.type = n.type → P m = P n

/-- All inodes count. -/
def anyInode : Inode → Bool := fun _ => true

/-- The inodes in use. -/
def Inode.live (n : Inode) : Bool := n.type != 0

theorem byType_anyInode : ByType anyInode := fun _ _ _ => rfl

theorem byType_live : ByType Inode.live := fun m n h => by unfold Inode.live; rw [h]

theorem Owned.indData (h : Owned P ib V) (hp : P (V.ino i) = true) :
    ∀ b ∈ (V.ino i).indBlks, InData ib b := fun b hb =>
  h.inData i b (by rw [holds_pos hp]; exact mem_append_right _ hb)

theorem Owned.refsData (h : Owned P ib V) (hp : P (V.ino i) = true) :
    ∀ b ∈ V.refs (V.ino i), InData ib b := fun b hb =>
  h.inData i b (by rw [holds_pos hp]; exact hb)

/-! ## Allocation -/

/-- The table has a free slot. -/
def FreeSlot (ib : Nat) (V : Vol) : Prop := ∃ i, 1 ≤ i ∧ i < 4 * ib ∧ (V.ino i).type = 0

theorem wp_inodeAllocLoop (hg : Geometry ib g) {type : UInt8} {ticks : Nat}
    {exhausted : NvfsM (Option Nat)} {is : List Nat} (his : ∀ i ∈ is, i < 4 * ib)
    {Q : Option Nat → Globals → Disk → Prop} :
    wp 32768 C (inodeAllocLoop type ticks exhausted is) Q g d ↔
      match is.find? fun i => ((vol ib d).ino i).type = 0 with
      | none => wp 32768 C exhausted Q g d
      | some i => C (d.setIno i (freshInode type (nowSec ticks))) ∧
          Q (some i) g (d.setIno i (freshInode type (nowSec ticks))) := by
  induction is with
  | nil => rfl
  | cons i is ih =>
    have hi : i < 4 * ib := his i mem_cons_self
    have hhi := hg.hi
    unfold inodeAllocLoop
    rw [wp_bind, wp_inodeRead hg hi, find?_cons]
    by_cases ht : ((vol ib d).ino i).type = 0
    · simp only [ht, decide_true, ↓reduceIte]
      rw [wp_bind, wp_inodeWrite hg hi, if_pos rfl, asInt_of_lt (by omega)]
      rfl
    simp only [ht, decide_false, ↓reduceIte]
    exact ih fun j hj => his j (mem_cons_of_mem _ hj)

theorem Geometry.mem_slots (hg : Geometry ib g) (i : Nat) :
    i ∈ range' 1 (g.sbInodeCount - 1) ↔ 1 ≤ i ∧ i < 4 * ib := by
  have hlo := hg.lo
  rw [mem_range'_1, hg.inodeCount]
  omega

theorem inodeAlloc_spec (hg : Geometry ib g) (hslot : FreeSlot ib (vol ib d)) (type : UInt8)
    (ticks : Nat) :
    wp 32768
      (fun d' => ∃ i, 1 ≤ i ∧ i < 4 * ib ∧ ((vol ib d).ino i).type = 0 ∧
        vol ib d' = (vol ib d).setIno i (freshInode type (nowSec ticks)))
      (inodeAlloc type ticks)
      (fun r g' d' => g' = g ∧ ∃ i, r = some i ∧ 1 ≤ i ∧ i < 4 * ib ∧
        ((vol ib d).ino i).type = 0 ∧
        vol ib d' = (vol ib d).setIno i (freshInode type (nowSec ticks))) g d := by
  unfold inodeAlloc
  rw [wp_bind, wp_getState,
    wp_inodeAllocLoop hg fun i hi => ((hg.mem_slots i).mp hi).2]
  cases hfind : (range' 1 (g.sbInodeCount - 1)).find?
      fun i => ((vol ib d).ino i).type = 0 with
  | none =>
    obtain ⟨i, h1, h2, h3⟩ := hslot
    have := find?_eq_none.mp hfind i ((hg.mem_slots i).mpr ⟨h1, h2⟩)
    simp [h3] at this
  | some i =>
    obtain ⟨h1, h2⟩ := (hg.mem_slots i).mp (mem_of_find?_eq_some hfind)
    have htype : ((vol ib d).ino i).type = 0 := by simpa using find?_some hfind
    have hvol : vol ib (d.setIno i (freshInode type (nowSec ticks)))
        = (vol ib d).setIno i (freshInode type (nowSec ticks)) := vol_setIno h2 _
    exact ⟨⟨i, h1, h2, htype, hvol⟩, rfl, i, rfl, h1, h2, htype, hvol⟩

/-! ## Freeing -/

namespace Vol

theorem clear_clear (V : Vol) (as bs : List Nat) : (V.clear as).clear bs = V.clear (as ++ bs) := by
  apply Vol.ext <;> try rfl
  funext b
  rw [clear_bit, clear_bit, clear_bit]
  by_cases ha : b ∈ as <;> simp [ha]

theorem clear_singleton (V : Vol) (b : Nat) : V.clear [b] = V.setBit b false := by
  rw [← setBit_clear, clear_nil]

end Vol

/-- The record `inode_free` leaves. -/
def Inode.freed (n : Inode) : Inode := { n with type := 0, size := 0, extentCount := 0 }

theorem Inode.freed_capExtents (n : Inode) : n.freed.capExtents = n.freed :=
  if_neg (by decide : ¬ nvfsMaxExtents < (0 : UInt32).toNat)

section

variable (hg : Geometry ib g) (h0 : i ≠ 0) (hi : i < 4 * ib)
include hg h0 hi

/-- `inode_free` clears the marks of the inode's blocks one by one, then its
    record. -/
theorem inodeFree_spec (hdata : ∀ b ∈ (vol ib d).refs ((vol ib d).ino i), InData ib b) : wp 32768
      (fun d' => (∃ l, l ⊆ (vol ib d).refs ((vol ib d).ino i) ∧ vol ib d' = (vol ib d).clear l) ∨
        vol ib d' = ((vol ib d).clear ((vol ib d).refs ((vol ib d).ino i))).setIno i
          ((vol ib d).ino i).freed)
      (inodeFree i)
      (fun r g' d' => g' = g ∧ r = true ∧
        vol ib d' = ((vol ib d).clear ((vol ib d).refs ((vol ib d).ino i))).setIno i
          ((vol ib d).ino i).freed) g d := by
  generalize hn : (vol ib d).ino i = n at hdata ⊢
  have hblk : ∀ b ∈ extentBlocks ((vol ib d).extList n), b < 32768 := fun b hb => by
    have := (hdata b (mem_append_left _ hb)).2
    omega
  -- the last write, with all marks cleared
  have hlast : ∀ {d' : Disk}, vol ib d' = (vol ib d).clear ((vol ib d).refs n) →
      wp 32768
        (fun d' => (∃ l, l ⊆ (vol ib d).refs n ∧ vol ib d' = (vol ib d).clear l) ∨
          vol ib d' = ((vol ib d).clear ((vol ib d).refs n)).setIno i n.freed)
        (inodeWrite i n.freed)
        (fun r g' d' => g' = g ∧ r = true ∧
          vol ib d' = ((vol ib d).clear ((vol ib d).refs n)).setIno i n.freed) g d' := by
    intro d' hd'
    rw [wp_inodeWrite hg hi]
    have hvol : vol ib (d'.setIno i n.freed)
        = ((vol ib d).clear ((vol ib d).refs n)).setIno i n.freed := by
      rw [vol_setIno hi, hd', Inode.freed_capExtents]
    exact ⟨.inr hvol, rfl, rfl, hvol⟩
  unfold inodeFree
  rw [wp_bind, wp_getState, if_neg (by rw [hg.inodeCount]; omega),
    wp_bind, wp_inodeRead hg hi, hn]
  simp only
  rw [wp_bind, wp_readOnly (readOnly_extentLoadAll _),
    val_extentLoadAll hg fun b hb => hdata b (mem_append_right _ hb)]
  simp only
  refine (wp_bind).mpr (wp_mono ?_ ?_ (bitmapClear_spec hg hblk))
  · rintro d' ⟨l, hl, hd'⟩
    exact .inl ⟨l, fun b hb => mem_append_left _ (hl hb), hd'⟩
  · rintro _ g' (d' : Disk) ⟨rfl, hd'⟩
    by_cases hc : nvfsDirectExtents < n.extentCount.toNat
    · have hind : n.indBlks = [(n.ext nvfsDirectExtents).start.toNat] := if_pos hc
      have hlt := (hdata _ (mem_append_right _ (by rw [hind]; exact mem_singleton_self _))).2
      have hall : vol ib (d'.setBit (n.ext nvfsDirectExtents).start.toNat false)
          = (vol ib d).clear ((vol ib d).refs n) := by
        rw [vol_setBit (by omega), hd', ← Vol.clear_singleton, Vol.clear_clear, Vol.refs, hind]
        rfl
      rw [if_pos hc]
      simp only [wp_bind]
      rw [wp_bitmapSet hg (by omega)]
      exact ⟨.inl ⟨_, List.Subset.refl _, hall⟩, hlast hall⟩
    have hind : n.indBlks = [] := if_neg hc
    rw [if_neg hc]
    exact hlast (by rw [hd', Vol.refs, hind, append_nil]; rfl)

end

theorem Rewrites.free (hp : P (V.ino i) = true) :
    Rewrites P ib i V ((V.clear (V.refs (V.ino i))).setIno i (V.ino i).freed) := by
  have hnone : ((V.clear (V.refs (V.ino i))).setIno i (V.ino i).freed).holds P i = [] := by
    unfold Vol.holds
    rw [setIno_ino, if_pos rfl, refs_of_count_zero rfl, ite_self]
  refine ⟨⟨rfl, fun j hj => setIno_of_ne hj _, fun b hb hb' => ?_, fun b _ _ => rfl⟩,
    ?_, ?_, ?_, ?_⟩
  · have hout : b ∉ V.holds P i := hb'
    rw [holds_pos hp] at hout
    rw [setIno_bit, Vol.clear_bit_of_not_mem hout, hb]
  · simp [hnone]
  · simp [hnone]
  · simp [hnone]
  · simp [hnone]

/-! ## The shadow-paging update -/

/-- Inode `i` has been pointed at a fresh copy of the data, and some of its old
    blocks (`l`) have been given back. -/
def Replaced (V : Vol) (i : Nat) (data : Mem) (size : Nat) (V' : Vol) : Prop :=
  ∃ start n l, HoldsRun n start (blocksFor size) ∧ n.type = (V.ino i).type ∧
    n.size = UInt32.ofNat size ∧ start + blocksFor size ≤ 32726 ∧
    FreeRun V start (blocksFor size) ∧ l ⊆ V.refs (V.ino i) ∧
    V' = ((V.fill start (blocksFor size) (extentChunk data size)).setIno i n).clear l

theorem freeOld_spec (hg : Geometry ib g) {n : Inode}
    (hdata : ∀ b ∈ V.refs n, b < 32768) :
    wp 32768 (fun d' => ∃ l, l ⊆ V.refs n ∧ vol ib d' = (vol ib d).clear l)
      (freeOld (V.extList n) (oldIndBlk n))
      (fun _ g' d' => g' = g ∧ ∃ l, l ⊆ V.refs n ∧ vol ib d' = (vol ib d).clear l) g d := by
  have hblk : ∀ b ∈ extentBlocks (V.extList n), b < 32768 := fun b hb =>
    hdata b (mem_append_left _ hb)
  unfold freeOld
  refine (wp_bind).mpr (wp_mono ?_ ?_ (bitmapClear_spec hg hblk))
  · rintro d' ⟨l, hl, hd'⟩
    exact ⟨l, fun b hb => mem_append_left _ (hl hb), hd'⟩
  · rintro _ g' (d' : Disk) ⟨rfl, hd'⟩
    by_cases hind : oldIndBlk n ≠ 0
    · have hmem : oldIndBlk n ∈ n.indBlks := by
        unfold oldIndBlk at hind ⊢
        unfold Inode.indBlks
        by_cases hc : nvfsDirectExtents < n.extentCount.toNat
        · rw [if_pos hc, if_pos hc]
          exact mem_singleton_self _
        rw [if_neg hc] at hind
        exact absurd rfl hind
      have hlt := hdata _ (mem_append_right _ hmem)
      have hall : vol ib (d'.setBit (oldIndBlk n) false)
          = (vol ib d).clear (V.blocksOf n ++ [oldIndBlk n]) := by
        rw [vol_setBit hlt, hd', ← Vol.clear_singleton, Vol.clear_clear]
        rfl
      have hsub : V.blocksOf n ++ [oldIndBlk n] ⊆ V.refs n :=
        List.append_subset.mpr ⟨List.subset_append_left _ _,
          List.cons_subset.mpr ⟨mem_append_right _ hmem, List.nil_subset _⟩⟩
      rw [if_pos hind]
      simp only [wp_bind]
      rw [wp_bitmapSet hg hlt]
      exact ⟨⟨_, hsub, hall⟩, rfl, _, hsub, hall⟩
    rw [if_neg hind]
    exact ⟨rfl, V.blocksOf n, List.subset_append_left _ _, hd'⟩

/-- The update either changes nothing in use, or replaces the inode's blocks; so it is
    on the way, and once it has replaced them it succeeds. -/
theorem shadowWrite_spec (hg : Geometry ib g)
    (htable : ∀ b, b + 32 < ib → (vol ib d).bit b = true) (hi : i < 4 * ib)
    (hdata : ∀ b ∈ (vol ib d).refs ((vol ib d).ino i), InData ib b) (data : Mem)
    (size ticks : Nat) :
    wp 32768
      (fun d' => Frame ∅ ∅ (vol ib d) (vol ib d') ∨
        val 32768 (shadowWrite i ((vol ib d).ino i) data size ticks) g d = true ∧
          Replaced (vol ib d) i data size (vol ib d'))
      (shadowWrite i ((vol ib d).ino i) data size ticks)
      (fun r g' d' => g' = g ∧
        (r = false ∧ Frame ∅ ∅ (vol ib d) (vol ib d') ∧ ¬ HasRoom (vol ib d) size ∨
        r = true ∧ Replaced (vol ib d) i data size (vol ib d'))) g d := by
  unfold shadowWrite
  rw [wp_bind, wp_readOnly (readOnly_extentLoadAll _),
    val_bind (readOnly_extentLoadAll _),
    val_extentLoadAll hg fun b hb => hdata b (mem_append_right _ hb)]
  rw [wp_bind]
  refine wp_mono (fun _ h => Or.inl h) ?_
    (wp_run (extentWrite_spec hg htable _ data size))
  rintro r g' (d' : Disk) ⟨⟨rfl, hr⟩, hran⟩
  simp only
  rw [val_bind_of_run hran]
  cases r with
  | none => exact ⟨rfl, .inl ⟨rfl, hr.1, hr.2.2⟩⟩
  | some n' =>
    obtain ⟨htype, hsize, -, start, hrun, hend, hfree, hd'⟩ := hr
    -- the record stored, which differs from `n'` in its time stamp
    have hrun' : HoldsRun { n' with mtime := nowSec ticks } start (blocksFor size) :=
      ⟨hrun.count, fun V => hrun.blocks V⟩
    have hrep : ∀ {d'' : Disk} {l : List Nat}, l ⊆ (vol ib d).refs ((vol ib d).ino i) →
        vol ib d'' = (vol ib (d'.setIno i { n' with mtime := nowSec ticks })).clear l →
        Replaced (vol ib d) i data size (vol ib d'') := by
      intro d'' l hl hd''
      rw [vol_setIno hi, hrun'.capExtents, hd'] at hd''
      exact ⟨start, _, l, hrun', htype, hsize, hend, hfree, hl, hd''⟩
    have hval : ∀ {oldCache : List Extent} {indBlk : Nat}, val 32768 (do
        freeOld oldCache indBlk
        return true) g' (d'.setIno i { n' with mtime := nowSec ticks }) = true := by
      intro oldCache indBlk
      unfold val
      rw [DiskProg.run_bind]
      rfl
    rw [val_bind_of_run (run_inodeWrite hg hi), if_pos rfl]
    rw [wp_bind, wp_inodeWrite hg hi]
    refine ⟨?_, ?_⟩
    · exact .inr ⟨hval, hrep (List.nil_subset _) (Vol.clear_nil _).symm⟩
    · rw [if_pos rfl]
      have hlow : ∀ b ∈ (vol ib d).refs ((vol ib d).ino i), b < 32768 := by
        intro b hb
        have hfits := (hdata b hb).2
        omega
      rw [wp_bind]
      refine wp_mono ?_ ?_ (freeOld_spec hg hlow)
      · rintro d'' ⟨l, hl, hd''⟩
        exact .inr ⟨hval, hrep hl hd''⟩
      · rintro _ g'' d'' ⟨rfl, l, hl, hd''⟩
        exact ⟨rfl, .inr ⟨rfl, hrep hl hd''⟩⟩

/-- A replaced inode holds its new run and nothing else. -/
theorem Replaced.rewrites (hP : ByType P) {V' : Vol} {size : Nat}
    {data : Mem} (h : Owned P ib V) (hp : P (V.ino i) = true)
    (hr : Replaced V i data size V') : Rewrites P ib i V V' := by
  obtain ⟨start, n, l, hrun, htype, _, hend, hfree, hl, rfl⟩ := hr
  have hmarked : ∀ b ∈ V.refs (V.ino i), V.bit b = true := fun b hb =>
    h.marked i b (by rw [holds_pos hp]; exact hb)
  have hino : (((V.fill start (blocksFor size) (extentChunk data size)).setIno i n).clear l).ino i
      = n := by rw [Vol.clear_ino, setIno_ino, if_pos rfl]
  have hholds : (((V.fill start (blocksFor size) (extentChunk data size)).setIno i n).clear l).holds
      P i = range' start (blocksFor size) := by
    rw [holds_pos (by rw [hino, hP n _ htype, hp]), hino, hrun.refs]
  have hin : ∀ b, b ∈ range' start (blocksFor size) ↔
      start ≤ b ∧ b < start + blocksFor size := fun b => by rw [mem_range'_1]
  have hframe := Frame.fill hfree (extentChunk data size)
  refine ⟨⟨rfl, fun j hj => setIno_of_ne hj n, fun b hb hb' => ?_, fun b hb hb' => ?_⟩,
    ?_, ?_, ?_, ?_⟩
  · have hout : b ∉ V.holds P i := hb'
    rw [holds_pos hp] at hout
    rw [Vol.clear_bit_of_not_mem fun hm => hout (hl hm), setIno_bit,
      hframe.bit b hb (notMem_empty b)]
  · exact hframe.blk b hb (notMem_empty b)
  · intro b hb
    rw [hholds, hin] at hb
    exact ⟨h.lo_of_free (hfree b hb.1 hb.2), by omega⟩
  · intro b hb
    rw [hholds, hin] at hb
    have hnl : b ∉ l := fun hm => by
      have := hmarked b (hl hm)
      rw [hfree b hb.1 hb.2] at this
      cases this
    rw [Vol.clear_bit_of_not_mem hnl, setIno_bit, Vol.fill_bit, decide_eq_true hb,
      Bool.or_true]
  · intro b hb
    rw [hholds, hin] at hb
    exact .inl (hfree b hb.1 hb.2)
  · rw [hholds]
    exact nodup_range'

end Noverix.Nvfs
