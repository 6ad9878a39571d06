/-
  tools/mknvfs.py: the disk image that `create` writes for a list of files.

  A Python `bytearray` is its length and its bytes; slice assignment keeps
  Python's meaning, so data written past the end lengthens the image.
  Exceptions (an index or a struct field out of range, a name that is not
  ASCII) are `none`: no image is written.  `str.upper` is a parameter, since
  it is defined on all of Unicode.
-/

import Noverix.Lib.Bits
import Noverix.Nvfs.Layout

namespace Noverix.Nvfs.Format

open Lib

abbrev diskSectors : Nat := 32768
abbrev bitmapSectorCount : Nat := 8
abbrev inodeCount : Nat := 128
abbrev inodeSectors : Nat := (inodeCount * nvfsInodeSize + nvfsSectorSize - 1) / nvfsSectorSize
abbrev superblockSector : Nat := 1
abbrev bitmapStart : Nat := 2
abbrev inodeStart : Nat := bitmapStart + bitmapSectorCount
abbrev dataStart : Nat := inodeStart + inodeSectors
abbrev dataBlocks : Nat := diskSectors - dataStart

/-! ## Byte arrays -/

/-- A Python `bytearray`. -/
structure PyBytes where
  size : Nat
  get : Mem

namespace PyBytes

/-- `bytearray(n)`. -/
def zeros (n : Nat) : PyBytes := ⟨n, fun _ => 0⟩

def ofList (l : List UInt8) : PyBytes := ⟨l.length, fun i => l.getD i 0⟩

/-- `s[a:b] = t`. -/
def assign (s : PyBytes) (a b : Nat) (t : PyBytes) : PyBytes :=
  let lo := min a s.size
  let hi := max lo (min b s.size)
  { size := lo + t.size + (s.size - hi)
    get := fun i =>
      if i < lo then s.get i
      else if i < lo + t.size then t.get (i - lo)
      else s.get (i - (lo + t.size) + hi) }

/-- `s[b // 8] |= 1 << (b % 8)`; `none` is the `IndexError`. -/
def markBit (s : PyBytes) (b : Nat) : Option PyBytes :=
  if b / 8 < s.size then some { s with get := putBit s.get b true } else none

/-- `markBit` for `n` blocks from `b` on. -/
def markBits (s : PyBytes) (b : Nat) : Nat → Option PyBytes
  | 0 => some s
  | n + 1 => do
    let s ← s.markBit b
    s.markBits (b + 1) n

end PyBytes

/-! ## Packed records -/

/-- `struct.pack("<I", v)`. -/
def le32 (v : Nat) : List UInt8 := [wordByte v 0, wordByte v 1, wordByte v 2, wordByte v 3]

/-- The superblock, `struct.pack("<4sIIIIIIIIIB475x", ...)`. -/
def superblock : List UInt8 :=
  [78, 86, 70, 83] ++ le32 1 ++ le32 diskSectors ++ le32 1 ++ le32 bitmapStart
    ++ le32 bitmapSectorCount ++ le32 inodeStart ++ le32 inodeCount ++ le32 dataStart
    ++ le32 inodeSectors ++ [0] ++ List.replicate 475 0

/-- An inode, `struct.pack("<IB3sI112sI", size, type, 0, count, extents, 0)`. -/
def packInode (size : Nat) (type : UInt8) (extentCount : Nat) (extents : List UInt8) :
    List UInt8 :=
  le32 size ++ [type] ++ [0, 0, 0] ++ le32 extentCount ++ extents ++ le32 0

/-- The 112 bytes of an extent array that holds one extent, or none. -/
def packExtents (start count : Nat) : List UInt8 :=
  if 0 < count then le32 start ++ le32 count ++ List.replicate 104 0
  else List.replicate 112 0

/-- `name.encode("ascii")`. -/
def encodeAscii (name : List Char) : Option (List UInt8) :=
  if name.all (·.toNat < 128) then some (name.map fun c => UInt8.ofNat c.toNat) else none

/-! ## The image -/

/-- The arrays `create` fills while it packs files. -/
structure PackState where
  nextFreeBlock : Nat
  bitmap : PyBytes
  inodes : PyBytes
  rootEntries : PyBytes
  disk : PyBytes

/-- Pack one file: the body of the loop of `create`. -/
def packFile (upper : List Char → List Char) (st : PackState) (idx : Nat)
    (file : List Char × List UInt8) : Option PackState := do
  let inum := idx + 1
  let name ← encodeAscii ((upper file.1).take 27)
  -- `struct.pack_into` refuses an entry past the end of the root sector
  if idx * nvfsDirentSize + nvfsDirentSize ≤ st.rootEntries.size then
    let entry := PyBytes.ofList (name ++ List.replicate (28 - name.length) 0 ++ le32 inum)
    let numBlocks := (file.2.length + nvfsSectorSize - 1) / nvfsSectorSize
    let start := st.nextFreeBlock
    let bitmap ← st.bitmap.markBits start numBlocks
    let offset := (dataStart + start) * nvfsSectorSize
    let record := packInode file.2.length nvfsTypeFile (if 0 < numBlocks then 1 else 0)
      (packExtents start numBlocks)
    some {
      nextFreeBlock := start + numBlocks
      bitmap := bitmap
      inodes := st.inodes.assign (inum * nvfsInodeSize) ((inum + 1) * nvfsInodeSize)
        (PyBytes.ofList record)
      rootEntries := st.rootEntries.assign (idx * nvfsDirentSize)
        (idx * nvfsDirentSize + nvfsDirentSize) entry
      disk := st.disk.assign offset (offset + file.2.length) (PyBytes.ofList file.2) }
  else
    none

/-- The packing loop of `create`. -/
def packFiles (upper : List Char → List Char) :
    Nat → List (List Char × List UInt8) → PackState → Option PackState
  | _, [], st => some st
  | idx, file :: files, st =>
    if inodeCount - 1 ≤ idx then some st
    else do
      let st ← packFile upper st idx file
      packFiles upper (idx + 1) files st

/-- The zeroed disk with its superblock. -/
def blankDisk : PyBytes :=
  (PyBytes.zeros (diskSectors * nvfsSectorSize)).assign (superblockSector * nvfsSectorSize)
    (superblockSector * nvfsSectorSize + superblock.length) (PyBytes.ofList superblock)

/-- Write the bitmap and the inode table into the disk. -/
def finish (disk bitmap inodes : PyBytes) : PyBytes :=
  (disk.assign (bitmapStart * nvfsSectorSize)
      ((bitmapStart + bitmapSectorCount) * nvfsSectorSize) bitmap).assign
    (inodeStart * nvfsSectorSize) ((inodeStart + inodeSectors) * nvfsSectorSize) inodes

/-- `inodes_bytes[0:INODE_SIZE] = root_inode`. -/
def putRoot (inodes : PyBytes) (record : List UInt8) : PyBytes :=
  inodes.assign 0 nvfsInodeSize (PyBytes.ofList record)

/-- The image `create` writes for the files of its source directory, in the
    order it packs them. -/
def create (upper : List Char → List Char) (files : List (List Char × List UInt8)) :
    Option PyBytes :=
  let bitmap := PyBytes.zeros (bitmapSectorCount * nvfsSectorSize)
  let inodes := PyBytes.zeros (inodeSectors * nvfsSectorSize)
  if files = [] then
    some (finish blankDisk bitmap
      (putRoot inodes (packInode 0 nvfsTypeDir 0 (List.replicate 112 0))))
  else do
    let bitmap ← bitmap.markBit 0
    let st ← packFiles upper 0 files
      ⟨1, bitmap, inodes, PyBytes.zeros nvfsSectorSize, blankDisk⟩
    let disk := st.disk.assign (dataStart * nvfsSectorSize) ((dataStart + 1) * nvfsSectorSize)
      st.rootEntries
    some (finish disk st.bitmap
      (putRoot st.inodes (packInode 512 nvfsTypeDir 1 (packExtents 0 1))))

/-- The sectors of an image. -/
def imageDisk (img : PyBytes) : Nat → Sector := fun lba =>
  Sector.ofMem fun k => img.get (lba * nvfsSectorSize + k)

end Noverix.Nvfs.Format
