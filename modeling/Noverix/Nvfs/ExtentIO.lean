/-
  What `extent_load_all`, `extent_read` and `extent_write` do to a volume.

  `extent_write` looks for one run of free blocks, writes and marks them one by
  one, and takes the marks back if the run leaves the disk.  Whatever happens,
  nothing that was in use is touched (`extentWrite_spec`): this is the shadow
  half of shadow paging.
-/

import Noverix.Nvfs.Extents

namespace Noverix.Nvfs

open Lib
open Lib.DiskProg (wp wp_bind wp_mono)

variable {ib : Nat} {g : Globals} {d : Disk}

/-! ## Loading and reading -/

section

variable (hg : Geometry ib g)
include hg

theorem val_readBlock {b : Nat} (hb : InData ib b) :
    val 32768 (readBlock b) g d = some ((vol ib d).blk b) := by
  unfold readBlock readSector
  simp only [val_bind_getState, DiskProg.val_readSec]
  rw [hg.blockSector (by have := hb.2; omega), answer_lt (by have := hb.2; omega), vol_blk,
    if_pos ⟨hb.1, hb.2⟩]

variable {i : Nat}

theorem val_inodeRead (hi : i < 4 * ib) :
    val 32768 (inodeRead i) g d = some ((vol ib d).ino i) :=
  wp_sound ((wp_inodeRead (C := fun _ => True) hg hi
    (Q := fun r _ _ => r = some ((vol ib d).ino i))).mpr rfl)

theorem val_inodeRead_ge (hi : 4 * ib ≤ i) : val 32768 (inodeRead i) g d = none :=
  wp_sound ((wp_inodeRead_ge (C := fun _ => True) hg hi
    (Q := fun r _ _ => r = none)).mpr rfl)

variable {n : Inode}

theorem inodeRead_eq_some (h : val 32768 (inodeRead i) g d = some n) :
    i < 4 * ib ∧ n = (vol ib d).ino i := by
  by_cases hi : i < 4 * ib
  · rw [val_inodeRead hg hi] at h
    exact ⟨hi, (some.inj h).symm⟩
  rw [val_inodeRead_ge hg (by omega)] at h
  cases h

omit hg in
theorem indirect_min (c : Nat) :
    min (min (c - nvfsDirectExtents) (extentCacheMax - min c nvfsDirectExtents)) nvfsIndirectEnts
      = min (c - nvfsDirectExtents) nvfsIndirectEnts := by
  simp only [nvfsDirectExtents, extentCacheMax, nvfsIndirectEnts, nvfsSectorSize, nvfsExtentSize]
  omega

theorem val_extentLoadAll (h : ∀ b ∈ n.indBlks, InData ib b) :
    val 32768 (extentLoadAll n) g d = some ((vol ib d).extList n) := by
  unfold extentLoadAll Vol.extList
  by_cases hc : n.extentCount.toNat ≤ nvfsDirectExtents
  · rw [if_pos hc, Nat.sub_eq_zero_of_le hc]
    simp
  have hind : InData ib (n.ext nvfsDirectExtents).start.toNat := h _ (by
    unfold Inode.indBlks
    rw [if_pos (by omega)]
    exact mem_singleton_self _)
  rw [if_neg hc]
  unfold indirectReadExtents
  rw [val_bind ((readOnly_readBlock _).bind fun r => by split <;> exact DiskProg.ReadOnly.pure _),
    val_bind (readOnly_readBlock _), val_readBlock hg hind]
  simp only [val_pure]
  rw [indirect_min]

theorem val_extentReadBlocks {remain : Nat} {bs : List Nat} (hbs : ∀ b ∈ bs, InData ib b)
    {buf : List UInt8} (hbuf : buf.length ≤ remain) : val 32768 (extentReadBlocks remain bs buf) g d
      = some ((buf ++ bs.flatMap fun b => ((vol ib d).blk b).bytes).take remain) := by
  induction bs generalizing buf with
  | nil =>
    unfold extentReadBlocks
    simp [take_of_length_le hbuf]
  | cons b bs ih =>
    unfold extentReadBlocks
    by_cases hlt : buf.length < remain
    · have hcopy : (range (min nvfsSectorSize (remain - buf.length))).map
          ((vol ib d).blk b).byte = (((vol ib d).blk b).bytes).take (remain - buf.length) := by
        unfold Sector.bytes
        rw [← map_take, take_range, Nat.min_comm]
      rw [if_pos hlt, val_bind (readOnly_readBlock _), val_readBlock hg (hbs b mem_cons_self)]
      simp only [hcopy]
      rw [ih (fun c hc => hbs c (mem_cons_of_mem _ hc)) (by
        rw [length_append, length_take]; omega)]
      rw [flatMap_cons, take_append_take_append hbuf]
    have heq : buf.length = remain := by omega
    rw [if_neg hlt, List.take_append_of_le_length (by omega), ← heq, List.take_length]
    rfl

theorem val_extentRead (h : ∀ b ∈ (vol ib d).refs n, InData ib b) (max : Nat) :
    val 32768 (extentRead n max) g d = some ((vol ib d).content n max) := by
  unfold extentRead
  rw [val_bind (readOnly_extentLoadAll _),
    val_extentLoadAll hg fun b hb => h b (mem_append_right _ hb)]
  exact val_extentReadBlocks hg (fun b hb => h b (mem_append_left _ hb)) (by simp)

end

/-! ## Writing -/

/-- The number of blocks `extent_write` takes for `size` bytes. -/
def blocksFor (size : Nat) : Nat := u32 (size + nvfsSectorSize - 1) / nvfsSectorSize

namespace Vol

/-- The volume with `k` blocks from `start` on marked and holding `f 0, f 1, ...`. -/
def fill (V : Vol) (start k : Nat) (f : Nat → Sector) : Vol :=
  { V with
    bit := fun b => V.bit b || decide (start ≤ b ∧ b < start + k)
    blk := fun b => if start ≤ b ∧ b < start + k then f (b - start) else V.blk b }

variable {V : Vol} {start k : Nat} {f : Nat → Sector}

@[simp] theorem fill_ino : (V.fill start k f).ino = V.ino := rfl

theorem fill_bit (b : Nat) :
    (V.fill start k f).bit b = (V.bit b || decide (start ≤ b ∧ b < start + k)) := rfl

theorem fill_blk (b : Nat) :
    (V.fill start k f).blk b = if start ≤ b ∧ b < start + k then f (b - start) else V.blk b := rfl

theorem fill_zero : V.fill start 0 f = V := by
  have hno : ∀ b, ¬ (start ≤ b ∧ b < start + 0) := fun b => by omega
  apply Vol.ext
  · rfl
  · funext b
    rw [fill_bit, decide_eq_false (hno b), Bool.or_false]
  · rfl
  · funext b
    rw [fill_blk, if_neg (hno b)]

theorem fill_succ :
    ((V.fill start k f).setBlk (start + k) (f k)).setBit (start + k) true
      = V.fill start (k + 1) f := by
  apply Vol.ext
  · rfl
  · funext b
    rw [setBit_bit, setBlk_bit, fill_bit, fill_bit]
    by_cases hb : b = start + k
    · rw [if_pos hb, decide_eq_true (by omega : start ≤ b ∧ b < start + (k + 1)), Bool.or_true]
    rw [if_neg hb]
    congr 1
    exact decide_eq_decide.mpr (by omega)
  · rfl
  · funext b
    rw [setBit_blk, setBlk_blk, fill_blk, fill_blk]
    by_cases hb : b = start + k
    · rw [if_pos hb, if_pos (by omega), hb, Nat.add_sub_cancel_left]
    rw [if_neg hb]
    by_cases hin : start ≤ b ∧ b < start + k
    · rw [if_pos hin, if_pos (by omega)]
    · rw [if_neg hin, if_neg (by omega)]

end Vol

/-- Every block of the run is free. -/
def FreeRun (V : Vol) (start k : Nat) : Prop := ∀ b, start ≤ b → b < start + k → V.bit b = false

/-- The data area has `k` free blocks in a row, and `k` is not zero. -/
def HasRun (V : Vol) (k : Nat) : Prop := 0 < k ∧ ∃ start, start + k ≤ 32726 ∧ FreeRun V start k

theorem Frame.setBlk {V : Vol} {b : Nat} (h : V.bit b = false) (s : Sector) :
    Frame ∅ ∅ V (V.setBlk b s) := by
  refine ⟨rfl, fun _ _ => rfl, fun c hc _ => hc, fun c hc _ => ?_⟩
  rw [setBlk_blk, if_neg]
  rintro rfl
  rw [hc] at h
  cases h

theorem Frame.fill {V : Vol} {start k : Nat} (h : FreeRun V start k) (f : Nat → Sector) :
    Frame ∅ ∅ V (V.fill start k f) := by
  refine ⟨rfl, fun _ _ => rfl, fun b hb _ => ?_, fun b hb _ => ?_⟩
  · rw [Vol.fill_bit, hb, Bool.true_or]
  · rw [Vol.fill_blk, if_neg]
    rintro ⟨h1, h2⟩
    rw [h b h1 h2] at hb
    cases hb

variable {V : Vol}

theorem Frame.fill_clear {start k : Nat} (h : FreeRun V start k) (f : Nat → Sector)
    {l : List Nat} (hl : ∀ b ∈ l, start ≤ b ∧ b < start + k) :
    Frame ∅ ∅ V ((V.fill start k f).clear l) := by
  have hf := Frame.fill h f
  refine ⟨rfl, fun _ _ => rfl, fun b hb hb' => ?_, fun b hb hb' => hf.blk b hb hb'⟩
  rw [Vol.clear_bit_of_not_mem, hf.bit b hb hb']
  intro hm
  obtain ⟨h1, h2⟩ := hl b hm
  rw [h b h1 h2] at hb
  cases hb

/-- The write loop of `extent_write`: it fills the run up to its end, or up to
    the end of the disk. -/
theorem extentWriteLoop_spec (hg : Geometry ib g) {data : Mem} {size start : Nat}
    (hlo : ib ≤ start + 32) (hstart : start < 32768) (n j : Nat)
    (hfree : FreeRun V start (min (j + n) (32768 - start)))
    (hd : vol ib d = V.fill start j (extentChunk data size)) (hj : j = 0 ∨ start + j ≤ 32726) :
    wp 32768 (fun d' => Frame ∅ ∅ V (vol ib d')) (extentWriteLoop data size start n j)
      (fun r g' d' => g' = g ∧ vol ib d' = V.fill start r (extentChunk data size) ∧
        (r = 0 ∨ start + r ≤ 32726) ∧ (r = j + n ∨ r < j + n ∧ 32726 ≤ start + r)) g d := by
  induction n generalizing j d with
  | zero => exact ⟨rfl, hd, hj, .inl rfl⟩
  | succ n ih =>
    unfold extentWriteLoop
    rw [wp_bind, u32_of_lt (by omega)]
    by_cases hb : start + j < 32726
    · have hrun : FreeRun V start j := fun b h1 h2 => hfree b h1 (by omega)
      have hblk : vol ib (d.setBlk (start + j) (extentChunk data size j))
          = (V.fill start j (extentChunk data size)).setBlk (start + j)
              (extentChunk data size j) := by
        rw [vol_setBlk (by omega) hb, hd]
      have hsucc : vol ib ((d.setBlk (start + j) (extentChunk data size j)).setBit
          (start + j) true) = V.fill start (j + 1) (extentChunk data size) := by
        rw [vol_setBit (by omega), hblk, Vol.fill_succ]
      have hnext : (V.fill start j (extentChunk data size)).bit (start + j) = false := by
        rw [Vol.fill_bit, hfree _ (by omega) (by omega), decide_eq_false (by omega)]
        rfl
      rw [wp_writeBlock hg hb]
      refine ⟨?_, ?_⟩
      · rw [hblk]
        exact (Frame.fill hrun _).trans (Frame.setBlk hnext _)
      · rw [if_pos rfl, wp_bind, wp_bitmapSet hg (by omega)]
        refine ⟨?_, ?_⟩
        · rw [hsucc]
          exact Frame.fill (fun b h1 h2 => hfree b h1 (by omega)) _
        · refine wp_mono (fun _ h => h) ?_
            (ih (j + 1) (fun b h1 h2 => hfree b h1 (by omega)) hsucc (by omega))
          rintro r g' d' ⟨h1, h2, h3, h4⟩
          exact ⟨h1, h2, h3, by omega⟩
    -- the run leaves the disk: `write_block` fails
    rw [wp_writeBlock_end hg (by omega) (by omega)]
    exact ⟨rfl, hd, hj, .inr ⟨by omega, by omega⟩⟩

/-- The only extent of the inode, if it has any, is the run of `k` blocks from
    `start` on. -/
structure HoldsRun (n : Inode) (start k : Nat) : Prop where
  count : n.extentCount.toNat ≤ 1
  blocks : ∀ V : Vol, V.blocksOf n = List.range' start k

namespace HoldsRun

variable {n : Inode} {start k : Nat}

theorem refs (h : HoldsRun n start k) (V : Vol) : V.refs n = range' start k := by
  have hind : n.indBlks = [] := if_neg (by have := h.count; simp only [nvfsDirectExtents]; omega)
  rw [Vol.refs, h.blocks, hind, append_nil]

theorem capExtents (h : HoldsRun n start k) : n.capExtents = n :=
  if_neg (by have := h.count; simp only [nvfsMaxExtents]; omega)

theorem of_empty (h : n.extentCount = 0) : HoldsRun n 0 0 := by
  refine ⟨by rw [h]; decide, fun V => ?_⟩
  unfold Vol.blocksOf Vol.extList extentBlocks
  simp [h]

theorem of_extent (hc : n.extentCount = 1)
    (he : n.ext 0 = ⟨UInt32.ofNat start, UInt32.ofNat k⟩) (h : start + k ≤ 2 ^ 31) :
    HoldsRun n start k := by
  refine ⟨by rw [hc]; decide, fun V => ?_⟩
  have hword : UInt32.size = 2 ^ 32 := rfl
  have hs : (UInt32.ofNat start).toNat = start := toNat_ofNat_of_lt' (by omega)
  have hk : (UInt32.ofNat k).toNat = k := toNat_ofNat_of_lt' (by omega)
  have hext : V.extList n = [⟨UInt32.ofNat start, UInt32.ofNat k⟩] := by
    unfold Vol.extList
    simp [hc, he]
  unfold Vol.blocksOf extentBlocks
  rw [hext, flatMap_singleton, hs, hk, List.range'_eq_map_range]
  refine map_congr_left fun j hj => ?_
  have := mem_range.mp hj
  exact u32_of_lt (by omega)

end HoldsRun

/-- There is room for `size` bytes: none are needed, or there is a run for them.  A free block
    is looked for even if `size` wraps around when it is rounded up to blocks. -/
def HasRoom (V : Vol) (size : Nat) : Prop := size = 0 ∨ HasRun V (max 1 (blocksFor size))

/-- The outcome of `extent_write`: it fails for want of room and leaves the marks
    as they were, or returns an inode that holds a run, free before, now filled with the data. -/
def ExtentWritten (V : Vol) (n : Inode) (data : Mem) (size : Nat) : Option Inode → Vol → Prop
  | none, V' => Frame ∅ ∅ V V' ∧ V'.bit = V.bit ∧ ¬ HasRoom V size
  | some n', V' => n'.type = n.type ∧ n'.size = UInt32.ofNat size ∧
      (size = 0 → n'.extentCount = 0) ∧ ∃ start, HoldsRun n' start (blocksFor size) ∧
        start + blocksFor size ≤ 32726 ∧ FreeRun V start (blocksFor size) ∧
        V' = V.fill start (blocksFor size) (extentChunk data size)

/-- `extent_write` ends in one of its outcomes, and at no point touches a block
    in use. -/
theorem extentWrite_spec (hg : Geometry ib g)
    (htable : ∀ b, b + 32 < ib → (vol ib d).bit b = true) (n : Inode) (data : Mem) (size : Nat) :
    wp 32768 (fun d' => Frame ∅ ∅ (vol ib d) (vol ib d')) (extentWrite n data size)
      (fun r g' d' => g' = g ∧ ExtentWritten (vol ib d) n data size r (vol ib d')) g d := by
  unfold extentWrite
  by_cases hsize : size = 0
  · subst hsize
    rw [if_pos rfl]
    refine ⟨rfl, rfl, rfl, fun _ => rfl, 0, HoldsRun.of_empty rfl, by decide, ?_, ?_⟩
    · intro b h1 h2
      have : blocksFor 0 = 0 := by decide
      omega
    · exact (Vol.fill_zero).symm
  have hneeded : u32 (size + nvfsSectorSize - 1) / nvfsSectorSize = blocksFor size := rfl
  rw [if_neg hsize, hneeded, wp_bind, wp_readOnly (readOnly_bitmapFind _)]
  -- a run that exists is found, at its place or before it
  have hfirst : HasRun (vol ib d) (max 1 (blocksFor size)) →
      ∃ start, start + blocksFor size ≤ 32726 ∧
        val 32768 (bitmapFind (blocksFor size)) g d = some start := by
    rintro ⟨-, b, hend, hrun⟩
    obtain ⟨start, hle, heq⟩ := bitmapFind_of_free hg
      (by omega : b + max 1 (blocksFor size) ≤ 32768)
      fun i hi => hrun (b + i) (by omega) (by omega)
    exact ⟨start, by omega, heq⟩
  cases hfind : val 32768 (bitmapFind (blocksFor size)) g d with
  | none =>
    refine ⟨rfl, Frame.refl _ _ _, rfl, fun hroom => ?_⟩
    obtain ⟨start, -, heq⟩ := hfirst (hroom.resolve_left hsize)
    rw [heq] at hfind
    cases hfind
  | some start =>
    have hlt := bitmapFind_lt hg hfind
    have hfree : FreeRun (vol ib d) start (min (0 + blocksFor size) (32768 - start)) := by
      intro b h1 h2
      have := bitmapFind_free hg hfind (j := b - start) (.inr (by omega)) (by omega)
      rwa [Nat.add_sub_cancel' h1] at this
    have hlo : ib ≤ start + 32 := by
      by_contra hlo
      have hused := htable start (by omega)
      rw [show start = start + 0 from rfl, bitmapFind_free hg hfind (Or.inl rfl) hlt] at hused
      cases hused
    refine (wp_bind).mpr (wp_mono (fun _ h => h) ?_
      (extentWriteLoop_spec hg hlo hlt (blocksFor size) 0 hfree Vol.fill_zero.symm
        (Or.inl rfl)))
    rintro r g' d' ⟨rfl, hd', hr, hend⟩
    have hrun : FreeRun (vol ib d) start r := fun b h1 h2 => hfree b h1 (by omega)
    by_cases hshort : r < blocksFor size
    · -- roll back: the marks set so far are exactly the run's
      have hmem : ∀ b, b ∈ (range r).map (fun k => u32 (start + k)) ↔
          start ≤ b ∧ b < start + r := by
        intro b
        simp only [mem_map, mem_range]
        constructor
        · rintro ⟨k, hk, rfl⟩
          rw [u32_of_lt (by omega)]
          omega
        · rintro ⟨h1, h2⟩
          exact ⟨b - start, by omega, by rw [u32_of_lt (by omega)]; omega⟩
      rw [if_pos hshort]
      refine (wp_bind).mpr (wp_mono ?_ ?_
        (bitmapClear_spec hg fun b hb => by have := (hmem b).mp hb; omega))
      · rintro d'' ⟨l, hl, hd''⟩
        rw [hd'', hd']
        exact Frame.fill_clear hrun _ fun b hb => (hmem b).mp (hl hb)
      · rintro _ g'' d'' ⟨rfl, hd''⟩
        rw [DiskProg.wp_pure, hd'', hd']
        refine ⟨rfl, Frame.fill_clear hrun _ fun b hb => (hmem b).mp hb, ?_, fun hroom => ?_⟩
        · funext b
          rw [Vol.clear_bit, Vol.fill_bit]
          by_cases hb : start ≤ b ∧ b < start + r
          · rw [hrun b hb.1 hb.2, decide_eq_false (not_not_intro ((hmem b).mpr hb)),
              Bool.and_false]
          rw [decide_eq_false hb, Bool.or_false, decide_eq_true (mt (hmem b).mp hb),
            Bool.and_true]
        · -- the run found is the first one, and it leaves the disk
          obtain ⟨start', hend', heq⟩ := hfirst (hroom.resolve_left hsize)
          obtain rfl := some.inj (hfind.symm.trans heq)
          omega
    have hfull : r = blocksFor size := by omega
    subst hfull
    rw [if_neg hshort]
    refine ⟨rfl, rfl, rfl, fun h0 => absurd h0 hsize, ?_⟩
    by_cases hk : blocksFor size = 0
    · -- a size close to `2 ^ 32` rounds up to no block at all
      refine ⟨0, ⟨le_rfl, fun V => ?_⟩, by omega, fun b h1 h2 => by omega, ?_⟩
      · unfold Vol.blocksOf Vol.extList extentBlocks Inode.ext
        simp [hk]
      · rw [hd', hk, Vol.fill_zero, Vol.fill_zero]
    · exact ⟨start, HoldsRun.of_extent rfl rfl (by omega), by omega, hrun, hd'⟩

end Noverix.Nvfs
