/-
  The lower half of kernel/drivers/nvfs.c: sector access, the block bitmap, the
  inode table with its growth, indirect blocks, inode allocation, and extent
  reads and writes.

  Functions are programs over the disk (`Lib.DiskProg`) that keep the driver's
  static variables (`Globals`) as their state; storing to `nvfs_errno`, which
  no function of the driver reads back, is a reported event.  A C function
  that returns `-1` on failure returns `none` (or `false` when it carries no
  other value).  Arithmetic on `unsigned` wraps (`u32`); a value handed back
  through `int` is a failure to its callers once it is negative (`asInt`).
-/

import Noverix.Lib.Bits
import Noverix.Lib.DiskProg
import Noverix.Nvfs.Layout

namespace Noverix.Nvfs

open Lib
open Lib.DiskProg (readSec writeSec getState setState report)

/-- The static variables of nvfs.c. -/
structure Globals where
  mounted : Bool
  nvfsCh : Nat
  nvfsDr : Nat
  nvfsCwd : Nat
  sbDataStart : Nat
  sbInodeStart : Nat
  sbInodeCount : Nat
  sbInodeBlocks : Nat
  sbBitmapStart : Nat
  sbBitmapSectors : Nat
  nvfsOffset : Nat
deriving DecidableEq, Repr

/-- What the driver reports: a store to `nvfs_errno`, or an entry that
    `nvfs_list` prints (tagged `[DIR]` or not, with its name, size and type). -/
inductive Event where
  | errno (e : NvfsErr)
  | entry (dirTag : Bool) (name : List UInt8) (size : UInt32) (type : UInt8)

/-- A disk: the contents of its sectors. -/
abbrev Disk := Nat → Sector

/-- A driver function. -/
abbrev NvfsM (α : Type) := DiskProg Globals Sector Event α

/-- `nvfs_errno = e`. -/
def setErrno (e : NvfsErr) : NvfsM Unit := report (.errno e)

/-! ## Sector access -/

def readSector (lba : Nat) : NvfsM (Option Sector) := readSec lba

def writeSector (lba : Nat) (buf : Sector) : NvfsM Bool := writeSec lba buf

/-- The sector of data block `block`. -/
def blockSector (g : Globals) (block : Nat) : Nat := u32 (g.nvfsOffset + g.sbDataStart + block)

def readBlock (block : Nat) : NvfsM (Option Sector) := do
  let g ← getState
  readSector (blockSector g block)

def writeBlock (block : Nat) (buf : Sector) : NvfsM Bool := do
  let g ← getState
  writeSector (blockSector g block) buf

/-! ## Block bitmap -/

/-- `NVFS_SECTOR_SIZE * 8`. -/
abbrev bitsPerSec : Nat := nvfsSectorSize * 8

/-- The bitmap sector that holds the bit of `block`. -/
def bitmapSector (g : Globals) (block : Nat) : Nat :=
  u32 (g.nvfsOffset + g.sbBitmapStart + block / bitsPerSec)

def bitmapTest (block : Nat) : NvfsM (Option Bool) := do
  let g ← getState
  match ← readSector (bitmapSector g block) with
  | none => return none
  | some buf => return some (bitAt buf.byte (block % bitsPerSec))

def bitmapSet (block : Nat) (used : Bool) : NvfsM Bool := do
  let g ← getState
  match ← readSector (bitmapSector g block) with
  | none => return false
  | some buf =>
    writeSector (bitmapSector g block)
      (Sector.ofMem (putBit buf.byte (block % bitsPerSec) used))

/-- The inner loop of `bitmap_find`: the next `k` blocks from `start + j` on
    are free. -/
def bitmapRun (start j : Nat) : Nat → NvfsM Bool
  | 0 => return true
  | k + 1 => do
    match ← bitmapTest (u32 (start + j)) with
    | some false => bitmapRun start (j + 1) k
    | _ => return false

/-- The middle loop of `bitmap_find`: the bits `bs` of one bitmap sector whose
    first bit is number `base`.  `none` when no run of `count` starts there. -/
def bitmapScan (buf : Sector) (base totalBits count : Nat) : List Nat → NvfsM (Option Nat)
  | [] => return none
  | b :: bs => do
    if base + b < totalBits then
      if bitAt buf.byte b then
        bitmapScan buf base totalBits count bs
      else if count = 1 then
        return some (base + b)
      else if ← bitmapRun (base + b) 1 (count - 1) then
        return some (base + b)
      else
        bitmapScan buf base totalBits count bs
    else
      return none

/-- The outer loop of `bitmap_find`, over the bitmap sectors. -/
def bitmapSectors (totalBits count : Nat) : List Nat → NvfsM (Option Nat)
  | [] => return none
  | s :: ss => do
    let g ← getState
    match ← readSector (u32 (g.nvfsOffset + g.sbBitmapStart + s)) with
    | none => return none
    | some buf =>
      match ← bitmapScan buf (u32 (s * bitsPerSec)) totalBits count
          (List.range bitsPerSec) with
      | some start => return asInt start
      | none => bitmapSectors totalBits count ss

def bitmapFind (count : Nat) : NvfsM (Option Nat) := do
  let g ← getState
  bitmapSectors (u32 (g.sbBitmapSectors * bitsPerSec)) count (List.range g.sbBitmapSectors)

/-- `for each block: bitmap_set(block, 0)`, results ignored. -/
def bitmapClear : List Nat → NvfsM Unit
  | [] => return ()
  | b :: bs => do
    let _ ← bitmapSet b false
    bitmapClear bs

/-! ## Inode table -/

/-- The sector that holds inode `inum`. -/
def inodeSector (g : Globals) (inum : Nat) : Nat :=
  u32 (g.nvfsOffset + g.sbInodeStart + u32 (inum * nvfsInodeSize) / nvfsSectorSize)

/-- The offset of inode `inum` in its sector. -/
def inodeOffset (inum : Nat) : Nat := u32 (inum * nvfsInodeSize) % nvfsSectorSize

def inodeRead (inum : Nat) : NvfsM (Option Inode) := do
  let g ← getState
  if g.sbInodeCount ≤ inum then
    setErrno .io
    return none
  else
    match ← readSector (inodeSector g inum) with
    | none => return none
    | some buf => return some (Inode.load buf.byte (inodeOffset inum)).capExtents

def inodeWrite (inum : Nat) (inode : Inode) : NvfsM Bool := do
  let g ← getState
  if g.sbInodeCount ≤ inum then
    setErrno .io
    return false
  else
    match ← readSector (inodeSector g inum) with
    | none => return false
    | some buf =>
      writeSector (inodeSector g inum)
        (Sector.ofMem (Inode.store buf.byte (inodeOffset inum) inode))

/-- Store one word of the superblock. -/
def sbWriteField (offset val : Nat) : NvfsM Bool := do
  let g ← getState
  match ← readSector (u32 (g.nvfsOffset + 1)) with
  | none => return false
  | some buf => writeSector (u32 (g.nvfsOffset + 1)) (Sector.ofMem (store32 buf.byte offset val))

/-- `NVFS_SECTOR_SIZE / NVFS_INODE_SIZE`. -/
abbrev inodesPerSec : Nat := nvfsSectorSize / nvfsInodeSize

def expandInodeTable : NvfsM Bool := do
  match ← bitmapFind 1 with
  | none => return false
  | some blk =>
    let _ ← bitmapSet blk true
    if ← writeBlock blk Sector.zero then
      let g ← getState
      if ← sbWriteField 36 (u32 (g.sbInodeBlocks + 1)) then
        let blocks := u32 (g.sbInodeBlocks + 1)
        let count := u32 (blocks * inodesPerSec)
        setState { g with sbInodeBlocks := blocks, sbInodeCount := count }
        if ← sbWriteField 28 count then
          return true
        else
          -- both variables step back to their values before the call
          setState { g with sbInodeCount := u32 (g.sbInodeBlocks * inodesPerSec) }
          let _ ← bitmapSet blk false
          return false
      else
        let _ ← bitmapSet blk false
        return false
    else
      let _ ← bitmapSet blk false
      return false

/-! ## Indirect blocks -/

/-- The first `max` extents of the indirect block, at most 64. -/
def indirectReadExtents (lba max : Nat) : NvfsM (Option (List Extent)) := do
  match ← readBlock lba with
  | none => return none
  | some buf =>
    return some ((List.range (min max nvfsIndirectEnts)).map
      fun i => loadExtent buf.byte (i * nvfsExtentSize))

/-- Write the first `count` extents of `exts`, at most 64, over a zeroed block. -/
def indirectWriteExtents (lba : Nat) (exts : Nat → Extent) (count : Nat) : NvfsM Bool :=
  writeBlock lba
    (Sector.ofMem (storeExtents Sector.zero.byte 0 exts (min count nvfsIndirectEnts)))

def indirectAlloc : NvfsM (Option Nat) := do
  match ← bitmapFind 1 with
  | none => return none
  | some blk =>
    if ← writeBlock blk Sector.zero then
      let _ ← bitmapSet blk true
      return some blk
    else
      return none

/-- All extents of an inode, direct and indirect; the callers' array holds
    `EXTENT_CACHE_MAX` of them. -/
def extentLoadAll (inode : Inode) : NvfsM (Option (List Extent)) := do
  let direct := min inode.extentCount.toNat nvfsDirectExtents
  let out := (List.range direct).map inode.ext
  if inode.extentCount.toNat ≤ nvfsDirectExtents then
    return some out
  else
    let indirectCount :=
      min (inode.extentCount.toNat - nvfsDirectExtents) (extentCacheMax - direct)
    match ← indirectReadExtents (inode.ext nvfsDirectExtents).start.toNat indirectCount with
    | none => return none
    | some exts => return some (out ++ exts)

/-- The block numbers the loops over extents visit, in order:
    `cache[i].start + j` for `j < cache[i].count`. -/
def extentBlocks (cache : List Extent) : List Nat :=
  cache.flatMap fun e => (List.range e.count.toNat).map fun j => u32 (e.start.toNat + j)

/-! ## Inode allocation -/

/-- `now_sec()` when the timer shows `ticks`. -/
def nowSec (ticks : Nat) : UInt32 := UInt32.ofNat (ticks / 100)

/-- The three bytes `inode_set_ctime` stores. -/
def ctimeOf (t : UInt32) : UInt8 × UInt8 × UInt8 :=
  (UInt8.ofNat t.toNat, UInt8.ofNat (t.toNat / 2 ^ 8), UInt8.ofNat (t.toNat / 2 ^ 16))

/-- The record `inode_alloc` writes into the slot it takes. -/
def freshInode (type : UInt8) (t : UInt32) : Inode where
  size := 0
  type := type
  ctime := ctimeOf t
  extentCount := 0
  extents := fun _ => Extent.zero
  mtime := t

/-- One search loop of `inode_alloc` over the inode numbers given; `exhausted`
    is what follows the loop when it finds no free inode. -/
def inodeAllocLoop (type : UInt8) (ticks : Nat) (exhausted : NvfsM (Option Nat)) :
    List Nat → NvfsM (Option Nat)
  | [] => exhausted
  | i :: is => do
    match ← inodeRead i with
    | none => inodeAllocLoop type ticks exhausted is
    | some inode =>
      if inode.type = 0 then
        if ← inodeWrite i (freshInode type (nowSec ticks)) then
          return asInt i
        else
          setErrno .io
          return none
      else
        inodeAllocLoop type ticks exhausted is

/-- The part of `inode_alloc` after its first loop: grow the table by one
    sector and search the new slots. -/
def inodeAllocGrow (type : UInt8) (ticks : Nat) : NvfsM (Option Nat) := do
  if ← expandInodeTable then
    let g ← getState
    let first := u32 (g.sbInodeCount + 2 ^ 32 - inodesPerSec)
    inodeAllocLoop type ticks
      (do setErrno .noInode; return none)
      (List.range' first (g.sbInodeCount - first))
  else
    setErrno .noInode
    return none

def inodeAlloc (type : UInt8) (ticks : Nat) : NvfsM (Option Nat) := do
  let g ← getState
  inodeAllocLoop type ticks (inodeAllocGrow type ticks) (List.range' 1 (g.sbInodeCount - 1))

def inodeFree (inum : Nat) : NvfsM Bool := do
  let g ← getState
  if inum = 0 ∨ g.sbInodeCount ≤ inum then
    return false
  else
    match ← inodeRead inum with
    | none => return false
    | some inode =>
      match ← extentLoadAll inode with
      | none => return false
      | some cache =>
        bitmapClear (extentBlocks cache)
        if nvfsDirectExtents < inode.extentCount.toNat then
          let _ ← bitmapSet (inode.ext nvfsDirectExtents).start.toNat false
        inodeWrite inum { inode with type := 0, size := 0, extentCount := 0 }

/-! ## Extent reads and writes -/

/-- The copy loop of `extent_read`: append the blocks to `buf` until `remain`
    bytes are there. -/
def extentReadBlocks (remain : Nat) : List Nat → List UInt8 → NvfsM (Option (List UInt8))
  | [], buf => return some buf
  | b :: bs, buf => do
    if buf.length < remain then
      match ← readBlock b with
      | none => return none
      | some tmp =>
        let copy := min nvfsSectorSize (remain - buf.length)
        extentReadBlocks remain bs (buf ++ (List.range copy).map tmp.byte)
    else
      return some buf

/-- The bytes `extent_read` copies to the caller's buffer; their number is its
    return value. -/
def extentRead (inode : Inode) (max : Nat) : NvfsM (Option (List UInt8)) := do
  match ← extentLoadAll inode with
  | none => return none
  | some cache => extentReadBlocks (min inode.size.toNat max) (extentBlocks cache) []

/-- The buffer `extent_write` fills for its `j`-th block.  `remain` is never
    decreased, so every block but a lone short one takes 512 bytes from `data`,
    the last one also those past `size`. -/
def extentChunk (data : Mem) (size j : Nat) : Sector :=
  let copy := min nvfsSectorSize size
  Sector.ofMem fun k => if k < copy then data (j * copy + k) else 0

/-- The write loop of `extent_write` over `n` more blocks from the `j`-th on;
    returns the `j` it stops at. -/
def extentWriteLoop (data : Mem) (size start : Nat) : Nat → Nat → NvfsM Nat
  | 0, j => return j
  | n + 1, j => do
    if ← writeBlock (u32 (start + j)) (extentChunk data size j) then
      let _ ← bitmapSet (u32 (start + j)) true
      extentWriteLoop data size start n (j + 1)
    else
      return j

/-- `extent_write` on the caller's in-memory inode, which it returns updated. -/
def extentWrite (inode : Inode) (data : Mem) (size : Nat) : NvfsM (Option Inode) := do
  let needed := u32 (size + nvfsSectorSize - 1) / nvfsSectorSize
  if size = 0 then
    return some { inode with size := 0, extentCount := 0 }
  else
    match ← bitmapFind needed with
    | none => return none
    | some start =>
      let j ← extentWriteLoop data size start needed 0
      if j < needed then
        bitmapClear ((List.range j).map fun k => u32 (start + k))
        return none
      else
        return some { inode with
          size := UInt32.ofNat size
          extentCount := 1
          extents := fun i =>
            if i.val = 0 then ⟨UInt32.ofNat start, UInt32.ofNat needed⟩ else Extent.zero }

end Noverix.Nvfs
