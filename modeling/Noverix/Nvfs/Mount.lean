/-
  `nvfs_mount`: probe the four ATA positions at the offsets 0 and 2880 for an
  NVFS superblock whose layout passes the driver's checks.  Mounting only reads,
  so it is a function of the drives and of the variables it overwrites as it
  goes (they keep the last values tried when no volume is found).
-/

import Noverix.Nvfs.Driver

namespace Noverix.Nvfs

open Lib

/-- The static variables at boot. -/
def bootGlobals : Globals := ⟨false, 0, 0, 0, 0, 0, 0, 0, 0, 0, 0⟩

/-- A drive of `sectors` sectors that answers in range. -/
structure Drive where
  sectors : Nat
  data : Disk

/-- The drives attached, by channel and position (`ata_drive_exists`). -/
abbrev Drives := Nat → Nat → Option Drive

/-- The positions `nvfs_mount` tries, in order: channel, drive, offset. -/
def mountProbes : List (Nat × Nat × Nat) :=
  [(0, 0, 0), (0, 0, 2880), (0, 1, 0), (0, 1, 2880),
   (1, 0, 0), (1, 0, 2880), (1, 1, 0), (1, 1, 2880)]

/-- The signature `NVFS`. -/
def hasMagic (buf : Sector) : Bool :=
  buf.byte 0 == 78 && buf.byte 1 == 86 && buf.byte 2 == 70 && buf.byte 3 == 83

/-- Take the layout fields from a superblock. -/
def loadSuperblock (g : Globals) (buf : Sector) : Globals :=
  let count := load32 buf.byte 28
  let blocks := load32 buf.byte 36
  { g with
    sbBitmapStart := load32 buf.byte 16
    sbBitmapSectors := load32 buf.byte 20
    sbInodeStart := load32 buf.byte 24
    sbInodeCount := count
    sbDataStart := load32 buf.byte 32
    sbInodeBlocks := if blocks = 0 then count / inodesPerSec else blocks }

/-- The layout checks of `nvfs_mount` (all of them passed). -/
def layoutOk (g : Globals) : Bool :=
  2 ≤ g.sbBitmapStart && g.sbBitmapSectors != 0 && g.sbInodeBlocks != 0
    && g.sbInodeCount != 0
    && u32 (g.sbBitmapStart + g.sbBitmapSectors) ≤ g.sbInodeStart
    && u32 (g.sbInodeStart + g.sbInodeBlocks) ≤ g.sbDataStart

/-- The probing loop. -/
def mountLoop (drives : Drives) (g : Globals) : List (Nat × Nat × Nat) → Bool × Globals
  | [] => (false, g)
  | (ch, dr, offset) :: rest =>
    match drives ch dr with
    | none => mountLoop drives g rest
    | some drive =>
      let g := { g with nvfsCh := ch, nvfsDr := dr, nvfsOffset := offset }
      match DiskProg.answer drive.sectors drive.data (offset + 1) with
      | none => mountLoop drives g rest
      | some buf =>
        if hasMagic buf then
          let g := loadSuperblock g buf
          if layoutOk g then
            (true, { g with nvfsCwd := nvfsRootInode, mounted := true })
          else
            mountLoop drives g rest
        else
          mountLoop drives g rest

/-- `nvfs_mount()`: whether it returned 0, and the static variables after it. -/
def nvfsMount (drives : Drives) (g : Globals) : Bool × Globals :=
  mountLoop drives g mountProbes

end Noverix.Nvfs
