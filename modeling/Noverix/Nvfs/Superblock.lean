/-
  What the checks of `nvfs_mount` say about a superblock.  The driver adds the
  fields in 32-bit arithmetic and never compares the number of inodes with the
  size of the inode table, so a superblock that passes describes regions that
  follow one another, with every inode inside the table, exactly when the two
  sums do not wrap and the table has room for the inodes (`mount_sound_iff`).
-/

import Noverix.Nvfs.Mount

namespace Noverix.Nvfs

open Lib

variable {drives : Drives} {probes : List (Nat × Nat × Nat)} {g : Globals} {b c : Nat}

/-! ## What `nvfs_mount` accepts -/

/-- A layout that the probing loop takes was read from a superblock with the signature,
    and passed the checks. -/
theorem mountLoop_accepts (h : (mountLoop drives g probes).1 = true) :
    ∃ g0 buf, hasMagic buf = true ∧ layoutOk (loadSuperblock g0 buf) = true ∧
      (mountLoop drives g probes).2
        = { loadSuperblock g0 buf with nvfsCwd := nvfsRootInode, mounted := true } := by
  induction probes generalizing g with
  | nil => cases h
  | cons p probes ih =>
    obtain ⟨ch, dr, offset⟩ := p
    unfold mountLoop at h ⊢
    cases hdrive : drives ch dr with
    | none =>
      rw [hdrive] at h
      exact ih h
    | some drive =>
      rw [hdrive] at h
      simp only at h ⊢
      cases hbuf : answer drive.sectors drive.data (offset + 1) with
      | none =>
        rw [hbuf] at h
        exact ih h
      | some buf =>
        rw [hbuf] at h
        simp only at h ⊢
        by_cases hm : hasMagic buf = true
        · rw [if_pos hm] at h ⊢
          by_cases hok : layoutOk (loadSuperblock
              { g with nvfsCh := ch, nvfsDr := dr, nvfsOffset := offset } buf) = true
          · rw [if_pos hok]
            exact ⟨_, buf, hm, hok, rfl⟩
          rw [if_neg hok] at h ⊢
          exact ih h
        rw [if_neg hm] at h ⊢
        exact ih h

theorem layoutOk_of_mountLoop (h : (mountLoop drives g probes).1 = true) :
    layoutOk (mountLoop drives g probes).2 = true := by
  obtain ⟨g0, buf, -, hok, heq⟩ := mountLoop_accepts h
  rw [heq]
  exact hok

/-! ## The layout it describes -/

/-- The sector of the volume that `inode_read` and `inode_write` use for inode `i`. -/
def tableSector (g : Globals) (i : Nat) : Nat :=
  g.sbInodeStart + u32 (i * nvfsInodeSize) / nvfsSectorSize

/-- The regions of the volume follow one another, and every inode lies in the table: by the
    numbers, and where the driver goes for it. -/
structure LayoutSound (g : Globals) : Prop where
  bitmapStart : 2 ≤ g.sbBitmapStart
  bitmapEnd : g.sbBitmapStart + g.sbBitmapSectors ≤ g.sbInodeStart
  inodeEnd : g.sbInodeStart + g.sbInodeBlocks ≤ g.sbDataStart
  inodes : ∀ i, i < g.sbInodeCount →
    g.sbInodeStart + i * nvfsInodeSize / nvfsSectorSize < g.sbInodeStart + g.sbInodeBlocks
  used : ∀ i, i < g.sbInodeCount →
    g.sbInodeStart ≤ tableSector g i ∧ tableSector g i < g.sbInodeStart + g.sbInodeBlocks

/-- The sums that `nvfs_mount` computes do not wrap, and the table has room for the inodes. -/
structure FieldsFit (g : Globals) : Prop where
  bitmap : g.sbBitmapStart + g.sbBitmapSectors < 2 ^ 32
  table : g.sbInodeStart + g.sbInodeBlocks < 2 ^ 32
  count : g.sbInodeCount ≤ 4 * g.sbInodeBlocks

theorem LayoutSound.fieldsFit (h : LayoutSound g) (hstart : g.sbInodeStart < 2 ^ 32)
    (hdata : g.sbDataStart < 2 ^ 32) : FieldsFit g := by
  refine ⟨?_, ?_, ?_⟩
  · have := h.bitmapEnd
    omega
  · have := h.inodeEnd
    omega
  · -- the first inode behind the table would be number `4 * sbInodeBlocks`
    by_contra hcount
    have hbehind := h.inodes (4 * g.sbInodeBlocks) (by omega)
    simp only [nvfsInodeSize, nvfsSectorSize] at hbehind
    omega

theorem FieldsFit.layoutSound (h : FieldsFit g) (hok : layoutOk g = true) :
    LayoutSound g := by
  obtain ⟨hbitmap, htable, hcount⟩ := h
  unfold layoutOk at hok
  simp only [Bool.and_eq_true, decide_eq_true_eq] at hok
  obtain ⟨⟨⟨⟨⟨hstart, -⟩, -⟩, -⟩, hbend⟩, hiend⟩ := hok
  rw [u32_of_lt hbitmap] at hbend
  rw [u32_of_lt htable] at hiend
  refine ⟨hstart, hbend, hiend, ?_, ?_⟩
  · intro i hi
    simp only [nvfsInodeSize, nvfsSectorSize]
    omega
  · intro i hi
    -- wrapping only makes the offset of an inode smaller
    have hwrap : u32 (i * nvfsInodeSize) ≤ i * nvfsInodeSize := Nat.mod_le _ _
    unfold tableSector
    simp only [nvfsInodeSize, nvfsSectorSize] at hwrap ⊢
    omega

/-- A superblock that `nvfs_mount` accepts, on whatever drive it is found, describes a sound
    layout exactly when its sums do not wrap and its inodes fit in its table. -/
theorem mount_sound_iff (drives : Drives) (g : Globals) (h : (nvfsMount drives g).1 = true) :
    LayoutSound (nvfsMount drives g).2 ↔ FieldsFit (nvfsMount drives g).2 := by
  obtain ⟨g₀, buf, -, hok, heq⟩ := mountLoop_accepts h
  have heq' : (nvfsMount drives g).2
      = { loadSuperblock g₀ buf with nvfsCwd := nvfsRootInode, mounted := true } := heq
  rw [heq']
  constructor
  · intro hsound
    exact hsound.fieldsFit (load32_lt _ _) (load32_lt _ _)
  · intro hfit
    exact hfit.layoutSound hok

/-! ## Two superblocks -/

/-- A superblock with the given numbers of bitmap sectors and inodes, else as mknvfs.py
    writes it. -/
def superblockWith (bitmapSectors inodeCount : Nat) : Sector :=
  let m := store32 (fun i => [78, 86, 70, 83].getD i 0) 16 2
  let m := store32 m 20 bitmapSectors
  let m := store32 m 24 10
  let m := store32 m 28 inodeCount
  let m := store32 m 32 42
  Sector.ofMem (store32 m 36 32)

/-- The only drive has the superblock in each of its two sectors. -/
def driveWith (bitmapSectors inodeCount : Nat) : Drives := fun ch dr =>
  if ch = 0 ∧ dr = 0 then some ⟨2, fun _ => superblockWith bitmapSectors inodeCount⟩ else none

/-- A bitmap of `2 ^ 32 - 1` sectors wraps round to sector 1 and is accepted; so is a table
    of 32 sectors said to hold a million inodes. -/
theorem mount_accepts_unsound :
    (nvfsMount (driveWith 0xFFFFFFFF 128) bootGlobals).1 = true ∧
      ¬ LayoutSound (nvfsMount (driveWith 0xFFFFFFFF 128) bootGlobals).2 ∧
      (nvfsMount (driveWith 8 1000000) bootGlobals).1 = true ∧
      ¬ LayoutSound (nvfsMount (driveWith 8 1000000) bootGlobals).2 := by
  refine ⟨by decide +kernel, ?_, by decide +kernel, ?_⟩
  · intro h
    exact absurd h.bitmapEnd (by decide +kernel)
  · intro h
    exact absurd (h.inodes 128 (by decide +kernel)) (by decide +kernel)

/-- The superblock of mknvfs.py describes a sound layout. -/
theorem mount_sound_iff_formatted :
    (nvfsMount (driveWith 8 128) bootGlobals).1 = true ∧
      LayoutSound (nvfsMount (driveWith 8 128) bootGlobals).2 := by
  have hok : (nvfsMount (driveWith 8 128) bootGlobals).1 = true := by decide +kernel
  refine ⟨hok, (mount_sound_iff _ _ hok).mpr ?_⟩
  exact ⟨by decide +kernel, by decide +kernel, by decide +kernel⟩

end Noverix.Nvfs
