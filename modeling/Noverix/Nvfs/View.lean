/-
  The volume behind any layout.  `Volume` looks at disks with the numbers of
  mknvfs.py; here the numbers are those in the driver's variables, as long as
  the regions they describe follow one another (`Regular`).  `view g d` has the
  same four parts: the superblock, one bit for each block of the bitmap, one
  record for each inode of the table, one sector for each block that has a bit.

  The device may fail (`Lib.Faults`).  The rules below say what the driver's
  primitives do on it: each access is served or fails, a failed one changes
  nothing, and one that is served changes one part of the volume.
-/

import Noverix.Nvfs.RawView
import Noverix.Nvfs.Superblock

namespace Noverix.Nvfs

open Lib
open Lib.DiskProg (must must_bind)

variable {b i : Nat} {n : Inode} {d' : Disk} {v : Bool}

/-! ## Layouts -/

/-- The number of blocks that have a bit. -/
def bitmapBits (g : Globals) : Nat := g.sbBitmapSectors * 4096

/-- The sector behind the last block that has a bit. -/
def volumeEnd (g : Globals) : Nat := g.nvfsOffset + g.sbDataStart + bitmapBits g

/-- A volume is mounted, its regions follow one another, and the driver's arithmetic on its
    sector numbers and inode offsets does not wrap. -/
structure Regular (g : Globals) : Prop extends LayoutSound g where
  mounted : g.mounted = true
  sectors : volumeEnd g ≤ 2 ^ 31
  offsets : g.sbInodeCount * nvfsInodeSize ≤ 2 ^ 32

/-- The bitmap covers the disk: behind the blocks that have a bit, no access is served. -/
def Covers (D : Device) (g : Globals) : Prop := ∀ l, volumeEnd g ≤ l → ¬ D.ok l

/-- The sectors of the bitmap never fail. -/
def BitmapServed (D : Device) (g : Globals) : Prop :=
  ∀ s, s < g.sbBitmapSectors → ¬ D.bad (g.nvfsOffset + g.sbBitmapStart + s)

namespace Regular

variable {g : Globals}

section

variable (hg : Regular g)
include hg

theorem count_le : g.sbInodeCount ≤ 4 * g.sbInodeBlocks := by
  have hsectors := hg.sectors
  have hinodes := hg.inodeEnd
  unfold volumeEnd at hsectors
  exact (hg.toLayoutSound.fieldsFit (by omega) (by omega)).count

theorem count_lt : g.sbInodeCount < 2 ^ 31 := by
  have hoffsets := hg.offsets
  simp only [nvfsInodeSize] at hoffsets
  omega

theorem blockSector (hb : b < 2 ^ 31) :
    Nvfs.blockSector g b = g.nvfsOffset + g.sbDataStart + b := by
  have hsectors := hg.sectors
  unfold volumeEnd at hsectors
  unfold Nvfs.blockSector
  rw [u32_of_lt (by omega)]

theorem bitmapSector (hb : b < 2 ^ 32) :
    Nvfs.bitmapSector g b = g.nvfsOffset + g.sbBitmapStart + b / 4096 := by
  have hsectors := hg.sectors
  have hbitmap := hg.bitmapEnd
  have hinodes := hg.inodeEnd
  unfold volumeEnd at hsectors
  unfold Nvfs.bitmapSector
  simp only [bitsPerSec, nvfsSectorSize]
  rw [u32_of_lt (by omega)]

theorem inode (hi : i < g.sbInodeCount) :
    inodeSector g i = g.nvfsOffset + g.sbInodeStart + i / 4 ∧ inodeOffset i = i % 4 * 128 ∧
      g.sbInodeStart + i / 4 < g.sbDataStart := by
  have hsectors := hg.sectors
  have hoffsets := hg.offsets
  have hcount := hg.count_le
  have hinodes := hg.inodeEnd
  unfold volumeEnd at hsectors
  simp only [nvfsInodeSize] at hoffsets
  have hmul : u32 (i * nvfsInodeSize) = i * 128 := u32_of_lt (by simp only [nvfsInodeSize]; omega)
  unfold inodeSector inodeOffset
  rw [hmul]
  simp only [nvfsSectorSize]
  refine ⟨?_, by omega, by omega⟩
  rw [u32_of_lt (by omega)]
  omega

theorem bits_lt : bitmapBits g < 2 ^ 31 := by
  have hsectors := hg.sectors
  have hstart := hg.bitmapStart
  have hbitmap := hg.bitmapEnd
  have hinodes := hg.inodeEnd
  unfold volumeEnd at hsectors
  omega

end

end Regular

/-! ## The view -/

/-- The volume that the driver's variables describe on a disk. -/
def view (g : Globals) (d : Disk) : Vol where
  sb := d (g.nvfsOffset + 1)
  bit b :=
    if b < bitmapBits g then
      bitAt (d (g.nvfsOffset + g.sbBitmapStart + b / 4096)).byte (b % 4096)
    else false
  ino i :=
    if i < g.sbInodeCount then
      (Inode.load (d (g.nvfsOffset + g.sbInodeStart + i / 4)).byte (i % 4 * 128)).capExtents
    else Inode.blank
  blk b := if b < bitmapBits g then d (g.nvfsOffset + g.sbDataStart + b) else Sector.zero

section

variable {g : Globals} {d : Disk}

theorem view_bit (b : Nat) : (view g d).bit b =
    if b < bitmapBits g then
      bitAt (d (g.nvfsOffset + g.sbBitmapStart + b / 4096)).byte (b % 4096)
    else false := rfl

theorem view_ino (i : Nat) : (view g d).ino i =
    if i < g.sbInodeCount then
      (Inode.load (d (g.nvfsOffset + g.sbInodeStart + i / 4)).byte (i % 4 * 128)).capExtents
    else Inode.blank := rfl

theorem view_blk (b : Nat) : (view g d).blk b =
    if b < bitmapBits g then d (g.nvfsOffset + g.sbDataStart + b) else Sector.zero := rfl

theorem Regular.rawView_ino (hg : Regular g) : (rawView g d).ino = (view g d).ino := by
  funext i
  rw [Nvfs.rawView_ino, view_ino]
  by_cases hi : i < g.sbInodeCount
  · obtain ⟨hsec, hoff, -⟩ := hg.inode hi
    rw [if_pos hi, if_pos hi, hsec, hoff]
  · rw [if_neg hi, if_neg hi]

section

variable (hg : Regular g)
include hg

theorem Regular.rawView_blk (hb : b < bitmapBits g) : (rawView g d).blk b = (view g d).blk b := by
  have hbits := hg.bits_lt
  rw [view_blk, if_pos hb, ← hg.blockSector (by omega)]
  rfl

theorem Regular.rawView_extList (hind : ∀ b ∈ n.indBlks, b < bitmapBits g) :
    (rawView g d).extList n = (view g d).extList n :=
  extList_congr fun b hb => hg.rawView_blk (hind b hb)

theorem Regular.rawView_entries (hdata : ∀ b ∈ (view g d).refs n, b < bitmapBits g) :
    (rawView g d).refs n = (view g d).refs n ∧ (rawView g d).entries n = (view g d).entries n :=
  have hblk : ∀ b ∈ (view g d).refs n, (rawView g d).blk b = (view g d).blk b :=
    fun b hb => hg.rawView_blk (hdata b hb)
  ⟨refs_congr fun b hb => hblk b (mem_append_right _ hb), Vol.entries_congr hblk⟩

theorem Regular.rawView_tree
    (hdata : ∀ i, (view g d).tree.dir i → ∀ b ∈ (view g d).refs ((view g d).ino i), b < bitmapBits g) :
    (rawView g d).tree = (view g d).tree :=
  Vol.tree_congr hg.rawView_ino fun i hi => (hg.rawView_entries (hdata i hi)).2

end

theorem view_bit_lt (h : (view g d).bit b = true) : b < bitmapBits g := by
  rw [view_bit] at h
  by_contra hb
  rw [if_neg hb] at h
  cases h

theorem view_type_lt (h : ((view g d).ino i).type ≠ 0) : i < g.sbInodeCount := by
  rw [view_ino] at h
  by_contra hi
  rw [if_neg hi] at h
  exact h rfl

theorem view_bit_congr (h : b < bitmapBits g → d' (g.nvfsOffset + g.sbBitmapStart + b / 4096)
      = d (g.nvfsOffset + g.sbBitmapStart + b / 4096)) : (view g d').bit b = (view g d).bit b := by
  rw [view_bit, view_bit]
  by_cases hb : b < bitmapBits g
  · rw [if_pos hb, if_pos hb, h hb]
  · rw [if_neg hb, if_neg hb]

theorem view_ino_congr (h : i < g.sbInodeCount → d' (g.nvfsOffset + g.sbInodeStart + i / 4)
      = d (g.nvfsOffset + g.sbInodeStart + i / 4)) : (view g d').ino i = (view g d).ino i := by
  rw [view_ino, view_ino]
  by_cases hi : i < g.sbInodeCount
  · rw [if_pos hi, if_pos hi, h hi]
  · rw [if_neg hi, if_neg hi]

theorem view_blk_congr (h : b < bitmapBits g → d' (g.nvfsOffset + g.sbDataStart + b)
      = d (g.nvfsOffset + g.sbDataStart + b)) : (view g d').blk b = (view g d).blk b := by
  rw [view_blk, view_blk]
  by_cases hb : b < bitmapBits g
  · rw [if_pos hb, if_pos hb, h hb]
  · rw [if_neg hb, if_neg hb]

section

variable (hg : Regular g)
include hg

/-- `bitmap_set(b, v)`. -/
theorem view_setBit (hb : b < bitmapBits g) (v : Bool) :
    view g (update d (bitmapSector g b)
      (Sector.ofMem (putBit (d (bitmapSector g b)).byte (b % bitsPerSec) v)))
      = (view g d).setBit b v := by
  have hbits := hg.bits_lt
  have hstart := hg.bitmapStart
  have hbitmap := hg.bitmapEnd
  have hinodes := hg.inodeEnd
  rw [hg.bitmapSector (by omega)]
  have hsec : b / 4096 < g.sbBitmapSectors := by
    unfold bitmapBits at hb
    omega
  apply Vol.ext
  · exact update_of_ne (by omega) _ _
  · funext c
    rw [setBit_bit]
    by_cases hs : c / 4096 = b / 4096
    · have hc : c < bitmapBits g := by
        unfold bitmapBits
        omega
      rw [view_bit, view_bit, if_pos hc, if_pos hc, hs, update_self,
        bitAt_congr (byte_ofMem (by omega)), bitAt_putBit]
      simp only [bitsPerSec, nvfsSectorSize]
      by_cases hcb : c = b
      · rw [if_pos hcb, if_pos (by rw [hcb])]
      · rw [if_neg hcb, if_neg (by omega)]
    rw [if_neg (by rintro rfl; exact hs rfl)]
    exact view_bit_congr fun _ => update_of_ne (by omega) _ _
  · funext i
    exact view_ino_congr fun _ => update_of_ne (by omega) _ _
  · funext c
    exact view_blk_congr fun _ => update_of_ne (by omega) _ _

/-- `inode_write(i, n)`. -/
theorem view_setIno (hi : i < g.sbInodeCount) (n : Inode) :
    view g (update d (inodeSector g i)
      (Sector.ofMem (Inode.store (d (inodeSector g i)).byte (inodeOffset i) n)))
      = (view g d).setIno i n.capExtents := by
  obtain ⟨hsec, hoff, hdata⟩ := hg.inode hi
  have hstart := hg.bitmapStart
  have hbitmap := hg.bitmapEnd
  rw [hsec, hoff]
  apply Vol.ext
  · exact update_of_ne (by omega) _ _
  · funext b
    refine view_bit_congr fun hb => update_of_ne ?_ _ _
    unfold bitmapBits at hb
    omega
  · funext j
    rw [setIno_ino]
    by_cases hs : j < g.sbInodeCount ∧ j / 4 = i / 4
    · rw [view_ino, view_ino, if_pos hs.1, if_pos hs.1, hs.2, update_self,
        load_congr fun k _ hk => byte_ofMem (by omega)]
      by_cases hji : j = i
      · rw [if_pos hji, hji, load_store_same]
      · rw [if_neg hji, load_congr fun k h1 h2 => Inode.store_of_disjoint _ _ (by omega)]
    rw [if_neg (by rintro rfl; exact hs ⟨hi, rfl⟩)]
    refine view_ino_congr fun hj => update_of_ne ?_ _ _
    omega
  · funext b
    exact view_blk_congr fun _ => update_of_ne (by omega) _ _

theorem view_setBlk (hb : b < bitmapBits g) (s : Sector) :
    view g (update d (blockSector g b) s) = (view g d).setBlk b s := by
  have hbits := hg.bits_lt
  have hstart := hg.bitmapStart
  have hbitmap := hg.bitmapEnd
  have hinodes := hg.inodeEnd
  rw [hg.blockSector (by omega)]
  apply Vol.ext
  · exact update_of_ne (by omega) _ _
  · funext c
    refine view_bit_congr fun hc => update_of_ne ?_ _ _
    unfold bitmapBits at hc
    omega
  · funext i
    refine view_ino_congr fun hi => update_of_ne ?_ _ _
    have := (hg.inode hi).2.2
    omega
  · funext c
    rw [setBlk_blk]
    by_cases hcb : c = b
    · rw [if_pos hcb, view_blk, hcb, if_pos hb, update_self]
    rw [if_neg hcb]
    exact view_blk_congr fun _ => update_of_ne (by omega) _ _

end

end

/-! ## What the primitives do -/

section

variable {D : Device} {g : Globals} {d : Disk}

section

variable (hg : Regular g)
include hg

theorem must_readBlock (hb : b < bitmapBits g) {Q : Option Sector → Globals → Disk → Prop}
    (hbad : D.bad (blockSector g b) → Q none g d) (hok : Q (some ((view g d).blk b)) g d) :
    must D (readBlock b) Q g d := by
  refine must_readBlock_raw hbad ?_
  rw [hg.rawView_blk hb]
  exact hok

variable {Q : Bool → Globals → Disk → Prop}
  {s : Sector}

theorem must_writeBlock (hb : b < bitmapBits g)
    (hbad : D.bad (blockSector g b) → Q false g d)
    (hok : ∀ d', view g d' = (view g d).setBlk b s → D.ok (blockSector g b) → Q true g d') :
    must D (writeBlock b s) Q g d := by
  unfold writeBlock writeSector
  simp only [must_bind, must_getState, must_writeSec]
  exact ⟨hbad, hok _ (view_setBlk hg hb s)⟩

theorem must_writeBlock_end (hcover : Covers D g) (hb : bitmapBits g ≤ b) (hlt : b < 2 ^ 31)
    (hbad : Q false g d) :
    must D (writeBlock b s) Q g d := by
  have hend : volumeEnd g ≤ blockSector g b := by
    rw [hg.blockSector hlt]
    unfold volumeEnd
    omega
  unfold writeBlock writeSector
  simp only [must_bind, must_getState, must_writeSec]
  exact ⟨fun _ => hbad, fun h => absurd h (hcover _ hend)⟩

theorem must_bitmapTest (hb : b < bitmapBits g) {Q : Option Bool → Globals → Disk → Prop}
    (hbad : D.bad (bitmapSector g b) → Q none g d) (hok : Q (some ((view g d).bit b)) g d) :
    must D (bitmapTest b) Q g d := by
  have hbits := hg.bits_lt
  rw [view_bit, if_pos hb, ← hg.bitmapSector (by omega)] at hok
  unfold bitmapTest readSector
  simp only [must_bind, must_getState, must_readSec]
  exact ⟨hbad, fun _ => hok⟩

variable {s : Globals}

/-- `bitmap_set` looks at two of the variables only, so the others may have changed. -/
theorem must_bitmapSet_in (hoff : s.nvfsOffset = g.nvfsOffset)
    (hstart : s.sbBitmapStart = g.sbBitmapStart) (hb : b < bitmapBits g)
    (hbad : D.bad (bitmapSector g b) → Q false s d)
    (hok : ∀ d', view g d' = (view g d).setBit b v → Q true s d') :
    must D (bitmapSet b v) Q s d := by
  have hsec : bitmapSector s b = bitmapSector g b := by
    unfold bitmapSector
    rw [hoff, hstart]
  unfold bitmapSet readSector writeSector
  simp only [must_bind, must_getState, must_readSec]
  rw [hsec]
  exact ⟨hbad, fun _ => ⟨hbad, fun _ => hok _ (view_setBit hg hb v)⟩⟩

theorem must_bitmapSet (hb : b < bitmapBits g)
    (hbad : D.bad (bitmapSector g b) → Q false g d)
    (hok : ∀ d', view g d' = (view g d).setBit b v → Q true g d') :
    must D (bitmapSet b v) Q g d := must_bitmapSet_in hg rfl rfl hb hbad hok

theorem must_inodeRead {Q : Option Inode → Globals → Disk → Prop}
    (hbad : (i < g.sbInodeCount → D.bad (inodeSector g i)) → Q none g d)
    (hok : i < g.sbInodeCount → Q (some ((view g d).ino i)) g d) : must D (inodeRead i) Q g d := by
  refine must_inodeRead_raw hbad fun hi => ?_
  rw [hg.rawView_ino]
  exact hok hi

theorem must_inodeWrite
    (hbad : (i < g.sbInodeCount → D.bad (inodeSector g i)) → Q false g d)
    (hok : i < g.sbInodeCount → ∀ d', view g d' = (view g d).setIno i n.capExtents → Q true g d') :
    must D (inodeWrite i n) Q g d := by
  unfold inodeWrite readSector writeSector
  simp only [must_bind, must_getState]
  by_cases hi : g.sbInodeCount ≤ i
  · rw [if_pos hi]
    exact hbad fun h => absurd h (Nat.not_lt.mpr hi)
  rw [if_neg hi]
  simp only [must_bind, must_readSec]
  exact ⟨fun h => hbad fun _ => h, fun _ => ⟨fun h => hbad fun _ => h,
    fun _ => hok (not_le.mp hi) _ (view_setIno hg (not_le.mp hi) n)⟩⟩

end

end

end Noverix.Nvfs
