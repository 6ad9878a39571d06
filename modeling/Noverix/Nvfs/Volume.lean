/-
  The volume behind the sectors.  On a 32768-sector disk with the layout of
  mknvfs.py (superblock in sector 1, bitmap in sectors 2 to 9, inode table from
  sector 10 on, data blocks from sector 42 on) a disk is four independent
  parts, `vol ib d`: the superblock, one bit for each block, one record for
  each inode, one sector for each data block.  `ib` is the number of sectors
  of the inode table: 32 as formatted, more once it has grown into the data
  area, whose first `ib - 32` blocks then belong to the table.

  The driver's primitives act on one part each: `bitmap_set` is `Vol.setBit`,
  `inode_write` is `Vol.setIno`, `write_block` is `Vol.setBlk` (`vol_setBit`,
  `vol_setIno`, `vol_setBlk`), and they read what the volume holds.
-/

import Noverix.Nvfs.Directory

namespace Noverix.Nvfs

open Lib
open Lib.DiskProg (wp wp_bind wp_getState)

/-- What a disk holds, part by part. -/
@[ext] structure Vol where
  sb : Sector
  bit : Nat → Bool
  ino : Nat → Inode
  blk : Nat → Sector

namespace Vol

def setBit (V : Vol) (b : Nat) (v : Bool) : Vol := { V with bit := Function.update V.bit b v }

def setIno (V : Vol) (i : Nat) (ino : Inode) : Vol :=
  { V with ino := Function.update V.ino i ino }

def setBlk (V : Vol) (b : Nat) (s : Sector) : Vol := { V with blk := Function.update V.blk b s }

section

variable (V : Vol)
include V

@[simp] theorem setBit_ino (b : Nat) (v : Bool) : (V.setBit b v).ino = V.ino := rfl
@[simp] theorem setBit_blk (b : Nat) (v : Bool) : (V.setBit b v).blk = V.blk := rfl
@[simp] theorem setIno_bit (i : Nat) (n : Inode) : (V.setIno i n).bit = V.bit := rfl
@[simp] theorem setIno_blk (i : Nat) (n : Inode) : (V.setIno i n).blk = V.blk := rfl
@[simp] theorem setBlk_bit (b : Nat) (s : Sector) : (V.setBlk b s).bit = V.bit := rfl
@[simp] theorem setBlk_ino (b : Nat) (s : Sector) : (V.setBlk b s).ino = V.ino := rfl

theorem setBit_bit (b : Nat) (v : Bool) (c : Nat) :
    (V.setBit b v).bit c = if c = b then v else V.bit c := by
  simp [setBit, update_apply]

theorem setIno_ino (i : Nat) (n : Inode) (j : Nat) :
    (V.setIno i n).ino j = if j = i then n else V.ino j := by
  simp [setIno, update_apply]

end

theorem setIno_of_ne {V : Vol} {i j : Nat} (h : j ≠ i) (n : Inode) :
    (V.setIno i n).ino j = V.ino j := by rw [setIno_ino, if_neg h]

theorem setBlk_blk (V : Vol) (b : Nat) (s : Sector) (c : Nat) :
    (V.setBlk b s).blk c = if c = b then s else V.blk c := by
  simp [setBlk, update_apply]

end Vol

export Vol (setIno_blk setIno_bit setIno_of_ne setIno_ino setBlk_blk setBit_bit setBlk_bit)

/-! ## The three updates of a disk -/

/-- `bitmap_set(b, v)`. -/
def Disk.setBit (d : Disk) (b : Nat) (v : Bool) : Disk :=
  Function.update d (2 + b / 4096)
    (Sector.ofMem (putBit (d (2 + b / 4096)).byte (b % 4096) v))

/-- `inode_write(i, ino)`. -/
def Disk.setIno (d : Disk) (i : Nat) (ino : Inode) : Disk :=
  Function.update d (10 + i / 4)
    (Sector.ofMem (Inode.store (d (10 + i / 4)).byte (i % 4 * 128) ino))

/-- `write_block(b, s)`. -/
def Disk.setBlk (d : Disk) (b : Nat) (s : Sector) : Disk := Function.update d (42 + b) s

/-- An inode number outside the table reads as this record. -/
def Inode.blank : Inode := freshInode 0 0

/-- The volume on a disk whose inode table has `ib` sectors. -/
def vol (ib : Nat) (d : Disk) : Vol where
  sb := d 1
  bit b := if b < 32768 then bitAt (d (2 + b / 4096)).byte (b % 4096) else false
  ino i :=
    if i < 4 * ib then (Inode.load (d (10 + i / 4)).byte (i % 4 * 128)).capExtents
    else Inode.blank
  blk b := if ib ≤ b + 32 ∧ b < 32726 then d (42 + b) else Sector.zero

theorem vol_bit (ib : Nat) (d : Disk) (b : Nat) : (vol ib d).bit b =
    if b < 32768 then bitAt (d (2 + b / 4096)).byte (b % 4096) else false := rfl

theorem vol_ino (ib : Nat) (d : Disk) (i : Nat) : (vol ib d).ino i =
    if i < 4 * ib then (Inode.load (d (10 + i / 4)).byte (i % 4 * 128)).capExtents
    else Inode.blank := rfl

theorem vol_blk (ib : Nat) (d : Disk) (b : Nat) : (vol ib d).blk b =
    if ib ≤ b + 32 ∧ b < 32726 then d (42 + b) else Sector.zero := rfl

/-- The variables of a driver that has mounted such a volume. -/
structure Geometry (ib : Nat) (g : Globals) : Prop where
  mounted : g.mounted = true
  offset : g.nvfsOffset = 0
  bitmapStart : g.sbBitmapStart = 2
  bitmapSectors : g.sbBitmapSectors = 8
  inodeStart : g.sbInodeStart = 10
  dataStart : g.sbDataStart = 42
  inodeBlocks : g.sbInodeBlocks = ib
  inodeCount : g.sbInodeCount = 4 * ib
  lo : 32 ≤ ib
  hi : ib ≤ 32758

section

variable {ib : Nat} {d : Disk}
  {b : Nat}

theorem vol_setBit (hb : b < 32768) (v : Bool) :
    vol ib (d.setBit b v) = (vol ib d).setBit b v := by
  have hother : ∀ s ≠ 2 + b / 4096, d.setBit b v s = d s :=
    fun s hs => update_of_ne hs _ _
  apply Vol.ext
  · exact hother 1 (by omega)
  · funext c
    rw [setBit_bit, vol_bit, vol_bit]
    by_cases hc : c < 32768
    · rw [if_pos hc, if_pos hc]
      by_cases hs : c / 4096 = b / 4096
      · have hself : d.setBit b v (2 + c / 4096) =
            Sector.ofMem (putBit (d (2 + b / 4096)).byte (b % 4096) v) := by
          rw [hs]
          exact update_self ..
        rw [hself, bitAt_congr (byte_ofMem (by omega)), bitAt_putBit, hs]
        by_cases hcb : c = b
        · subst hcb
          simp
        · rw [if_neg (by omega), if_neg hcb]
      · rw [hother _ (by omega), if_neg (by rintro rfl; exact hs rfl)]
    · rw [if_neg hc, if_neg (by omega), if_neg hc]
  · funext i
    rw [Vol.setBit_ino, vol_ino, vol_ino]
    by_cases hi : i < 4 * ib
    · rw [if_pos hi, if_pos hi, hother _ (by omega)]
    · rw [if_neg hi, if_neg hi]
  · funext c
    rw [Vol.setBit_blk, vol_blk, vol_blk]
    by_cases hc : ib ≤ c + 32 ∧ c < 32726
    · rw [if_pos hc, if_pos hc, hother _ (by omega)]
    · rw [if_neg hc, if_neg hc]

theorem vol_setIno {i : Nat} (hi : i < 4 * ib) (ino : Inode) :
    vol ib (d.setIno i ino) = (vol ib d).setIno i ino.capExtents := by
  have hother : ∀ s ≠ 10 + i / 4, d.setIno i ino s = d s :=
    fun s hs => update_of_ne hs _ _
  apply Vol.ext
  · exact hother 1 (by omega)
  · funext b
    rw [Vol.setIno_bit, vol_bit, vol_bit]
    by_cases hb : b < 32768
    · rw [if_pos hb, if_pos hb, hother _ (by omega)]
    · rw [if_neg hb, if_neg hb]
  · funext j
    rw [setIno_ino, vol_ino, vol_ino]
    by_cases hj : j < 4 * ib
    · rw [if_pos hj, if_pos hj]
      by_cases hs : j / 4 = i / 4
      · have hself : d.setIno i ino (10 + j / 4) =
            Sector.ofMem (Inode.store (d (10 + i / 4)).byte (i % 4 * 128) ino) := by
          rw [hs]
          exact update_self ..
        rw [hself, load_congr fun k _ hk => byte_ofMem (by omega)]
        by_cases hji : j = i
        · subst hji
          rw [if_pos rfl, load_store_same]
        rw [if_neg hji, hs,
          load_congr fun k h1 h2 => Inode.store_of_disjoint _ _ (by omega)]
      · rw [hother _ (by omega), if_neg (by rintro rfl; exact hs rfl)]
    · rw [if_neg hj, if_neg (by omega), if_neg hj]
  · funext b
    rw [Vol.setIno_blk, vol_blk, vol_blk]
    by_cases hb : ib ≤ b + 32 ∧ b < 32726
    · rw [if_pos hb, if_pos hb, hother _ (by omega)]
    · rw [if_neg hb, if_neg hb]

theorem vol_setBlk (hb : ib ≤ b + 32) (hb' : b < 32726) (s : Sector) :
    vol ib (d.setBlk b s) = (vol ib d).setBlk b s := by
  have hother : ∀ t ≠ 42 + b, d.setBlk b s t = d t :=
    fun t ht => update_of_ne ht _ _
  apply Vol.ext
  · exact hother 1 (by omega)
  · funext c
    rw [setBlk_bit, vol_bit, vol_bit]
    by_cases hc : c < 32768
    · rw [if_pos hc, if_pos hc, hother _ (by omega)]
    · rw [if_neg hc, if_neg hc]
  · funext i
    rw [Vol.setBlk_ino, vol_ino, vol_ino]
    by_cases hi : i < 4 * ib
    · rw [if_pos hi, if_pos hi, hother _ (by omega)]
    · rw [if_neg hi, if_neg hi]
  · funext c
    rw [setBlk_blk, vol_blk, vol_blk]
    by_cases hcb : c = b
    · subst hcb
      rw [if_pos rfl, if_pos ⟨hb, hb'⟩]
      exact update_self ..
    rw [if_neg hcb]
    by_cases hc : ib ≤ c + 32 ∧ c < 32726
    · rw [if_pos hc, if_pos hc, hother _ (by omega)]
    · rw [if_neg hc, if_neg hc]

end

/-! ## What the primitives do -/

section

variable {ib : Nat} {g : Globals} {d : Disk} {C : Disk → Prop}

theorem Geometry.blockSector (hg : Geometry ib g) {b : Nat} (hb : b < 2 ^ 32 - 42) :
    blockSector g b = 42 + b := by
  unfold Nvfs.blockSector
  rw [hg.offset, hg.dataStart, u32_of_lt (by omega), Nat.zero_add]

theorem Geometry.bitmapSector (hg : Geometry ib g) {b : Nat} (hb : b < 2 ^ 32) :
    bitmapSector g b = 2 + b / 4096 := by
  unfold Nvfs.bitmapSector
  simp only [bitsPerSec, nvfsSectorSize]
  rw [hg.offset, hg.bitmapStart, u32_of_lt (by omega), Nat.zero_add]

theorem Geometry.inodeSector (hg : Geometry ib g) {i : Nat} (hi : i < 4 * ib) :
    inodeSector g i = 10 + i / 4 := by
  have hhi := hg.hi
  have hmul : u32 (i * nvfsInodeSize) = i * 128 := u32_of_lt (by
    simp only [nvfsInodeSize]; omega)
  unfold Nvfs.inodeSector
  rw [hg.offset, hg.inodeStart, hmul]
  simp only [nvfsSectorSize]
  rw [u32_of_lt (by omega)]
  omega

theorem Geometry.inodeOffset (hg : Geometry ib g) {i : Nat} (hi : i < 4 * ib) :
    inodeOffset i = i % 4 * 128 := by
  have hhi := hg.hi
  unfold Nvfs.inodeOffset
  rw [u32_of_lt (by simp only [nvfsInodeSize]; omega)]
  simp only [nvfsInodeSize, nvfsSectorSize]
  omega

theorem answer_lt {n l : Nat} (h : l < n) : answer n d l = some (d l) := if_pos h

section

variable (hg : Geometry ib g)
include hg

variable {b : Nat}

theorem wp_readBlock (hlo : ib ≤ b + 32) (hb : b < 32726)
    {Q : Option Sector → Globals → Disk → Prop} :
    wp 32768 C (readBlock b) Q g d ↔ Q (some ((vol ib d).blk b)) g d := by
  unfold readBlock readSector
  simp only [wp_bind, wp_getState, wp_readSec]
  rw [hg.blockSector (by omega), answer_lt (by omega), vol_blk, if_pos ⟨hlo, hb⟩]

variable {Q : Bool → Globals → Disk → Prop}
  {s : Sector}

theorem wp_writeBlock (hb : b < 32726) :
    wp 32768 C (writeBlock b s) Q g d ↔ C (d.setBlk b s) ∧ Q true g (d.setBlk b s) := by
  unfold writeBlock writeSector
  simp only [wp_bind, wp_getState, wp_writeSec]
  rw [hg.blockSector (by omega), if_pos (by omega)]
  rfl

theorem wp_writeBlock_end (hb : 32726 ≤ b) (hb' : b < 2 ^ 31)
    : wp 32768 C (writeBlock b s) Q g d ↔ Q false g d := by
  unfold writeBlock writeSector
  simp only [wp_bind, wp_getState, wp_writeSec]
  rw [hg.blockSector (by omega), if_neg (by omega)]

theorem wp_bitmapSet (hb : b < 32768) {v : Bool} :
    wp 32768 C (bitmapSet b v) Q g d ↔ C (d.setBit b v) ∧ Q true g (d.setBit b v) := by
  unfold bitmapSet readSector writeSector
  simp only [wp_bind, wp_getState, wp_readSec]
  rw [hg.bitmapSector (by omega), answer_lt (by omega)]
  simp only [wp_writeSec]
  rw [if_pos (by omega)]
  rfl

variable {i : Nat} {Q : Option Inode → Globals → Disk → Prop}

theorem wp_inodeRead (hi : i < 4 * ib) :
    wp 32768 C (inodeRead i) Q g d ↔ Q (some ((vol ib d).ino i)) g d := by
  have hhi := hg.hi
  unfold inodeRead readSector
  simp only [wp_bind, wp_getState]
  rw [if_neg (by rw [hg.inodeCount]; omega)]
  simp only [wp_bind, wp_readSec]
  rw [hg.inodeSector hi, hg.inodeOffset hi, answer_lt (by omega), vol_ino, if_pos hi]
  rfl

theorem wp_inodeRead_ge (hi : 4 * ib ≤ i) :
    wp 32768 C (inodeRead i) Q g d ↔ Q none g d := by
  unfold inodeRead setErrno
  simp only [wp_bind, wp_getState]
  rw [if_pos (by rw [hg.inodeCount]; omega)]
  rfl

variable {ino : Inode}

theorem wp_inodeWrite (hi : i < 4 * ib) {Q : Bool → Globals → Disk → Prop} :
    wp 32768 C (inodeWrite i ino) Q g d ↔ C (d.setIno i ino) ∧ Q true g (d.setIno i ino) := by
  have hhi := hg.hi
  unfold inodeWrite readSector writeSector
  simp only [wp_bind, wp_getState]
  rw [if_neg (by rw [hg.inodeCount]; omega)]
  simp only [wp_bind, wp_readSec]
  rw [hg.inodeSector hi, hg.inodeOffset hi, answer_lt (by omega)]
  simp only [wp_writeSec]
  rw [if_pos (by omega)]
  rfl

theorem run_inodeWrite (hi : i < 4 * ib) :
    DiskProg.run 32768 (inodeWrite i ino) g d = (true, g, d.setIno i ino) := by
  have h : wp 32768 (fun _ => True) (inodeWrite i ino)
      (fun r g' d' => r = true ∧ g' = g ∧ d' = d.setIno i ino) g d :=
    (wp_inodeWrite hg hi).mpr ⟨trivial, rfl, rfl, rfl⟩
  obtain ⟨h1, h2, h3⟩ := wp_sound h
  exact Prod.ext h1 (Prod.ext h2 h3)

end

@[simp] theorem wp_setErrno {e : NvfsErr} {Q : Unit → Globals → Disk → Prop} :
    wp 32768 C (setErrno e) Q g d ↔ Q () g d := .rfl

end

end Noverix.Nvfs
