/-
  The directory half of kernel/drivers/nvfs.c: lookup, insertion and removal
  of entries, the emptiness test, the search for a parent, and path resolution.

  A directory is a file of 32-byte entries: a name of at most 27 characters,
  NUL-terminated in a 28-byte field, and an inode number, zero in a free slot.
  Names and paths are C strings, given as their bytes before the NUL.
-/

import Noverix.Nvfs.Driver

namespace Noverix.Nvfs

open Lib
open Lib.DiskProg (getState)

/-! ## Entries of a sector -/

/-- `NVFS_SECTOR_SIZE / NVFS_DIRENT_SIZE`. -/
abbrev direntsPerSec : Nat := nvfsSectorSize / nvfsDirentSize

/-- `de->inode` of entry `e`. -/
def slotInode (tmp : Sector) (e : Nat) : Nat := load32 tmp.byte (e * nvfsDirentSize + 28)

/-- The name of entry `e`, a C string. -/
def slotName (tmp : Sector) (e : Nat) : List UInt8 :=
  ((List.range 28).map fun k => tmp.byte (e * nvfsDirentSize + k)).takeWhile (· != 0)

/-- The comparison of entry `e` with `name`: the first `name_len` characters
    agree and the entry's name ends there. -/
def slotMatch (tmp : Sector) (e : Nat) (name : List UInt8) : Bool :=
  let nameLen := min name.length nvfsMaxName
  (List.range nameLen).all (fun k => tmp.byte (e * nvfsDirentSize + k) == name.getD k 0)
    && tmp.byte (e * nvfsDirentSize + nameLen) == 0

/-- The first used entry that matches `name`. -/
def findSlot (tmp : Sector) (name : List UInt8) : Option Nat :=
  (List.range direntsPerSec).find? fun e => slotInode tmp e != 0 && slotMatch tmp e name

/-- The first free entry. -/
def freeSlot (tmp : Sector) : Option Nat :=
  (List.range direntsPerSec).find? fun e => slotInode tmp e == 0

/-- The 32 bytes of a new entry (`nd` in `dir_add`). -/
def direntBytes (name : List UInt8) (child : Nat) : Mem :=
  store32 (fun k => if k < min name.length nvfsMaxName then name.getD k 0 else 0) 28 child

/-- `tmp` with the 32 bytes `nd` at entry `e`. -/
def putSlot (tmp : Sector) (e : Nat) (nd : Mem) : Sector :=
  Sector.ofMem fun i =>
    if e * nvfsDirentSize ≤ i ∧ i < e * nvfsDirentSize + 32 then nd (i - e * nvfsDirentSize)
    else tmp.byte i

/-- `tmp` with `de->inode = 0` at entry `e`. -/
def clearSlot (tmp : Sector) (e : Nat) : Sector :=
  Sector.ofMem (store32 tmp.byte (e * nvfsDirentSize + 28) 0)

/-! ## Lookup -/

/-- The search loop of `dir_find` over the directory's blocks. -/
def dirFindBlocks (name : List UInt8) : List Nat → NvfsM (Option Nat)
  | [] => do
    setErrno .notFound
    return none
  | b :: bs => do
    match ← readBlock b with
    | none =>
      setErrno .io
      return none
    | some tmp =>
      match findSlot tmp name with
      | some e => return asInt (slotInode tmp e)
      | none => dirFindBlocks name bs

def dirFind (dirInode : Nat) (name : List UInt8) : NvfsM (Option Nat) := do
  match ← inodeRead dirInode with
  | none =>
    setErrno .io
    return none
  | some inode =>
    if inode.type ≠ nvfsTypeDir then
      setErrno .notDir
      return none
    else
      match ← extentLoadAll inode with
      | none =>
        setErrno .io
        return none
      | some cache => dirFindBlocks name (extentBlocks cache)

/-! ## Insertion -/

/-- `dir_add_extent` on the caller's in-memory inode, which it returns updated. -/
def dirAddExtent (inode : Inode) (block : Nat) : NvfsM (Option Inode) := do
  let ei := inode.extentCount.toNat
  if ei < nvfsDirectExtents then
    return some { inode.setExt ei ⟨UInt32.ofNat block, 1⟩ with
      extentCount := UInt32.ofNat (ei + 1)
      size := inode.size + UInt32.ofNat nvfsSectorSize }
  else if ei = nvfsDirectExtents then
    -- first indirect extent: the entries of `ibuf` past it are not written
    match ← indirectAlloc with
    | none =>
      setErrno .noSpace
      return none
    | some ind =>
      if ← indirectWriteExtents ind (fun _ => ⟨UInt32.ofNat block, 1⟩) 1 then
        return some { inode.setExt nvfsDirectExtents
            ⟨UInt32.ofNat ind, nvfsIndirectMarker⟩ with
          extentCount := UInt32.ofNat (nvfsDirectExtents + 1)
          size := inode.size + UInt32.ofNat nvfsSectorSize }
      else
        setErrno .io
        let _ ← bitmapSet ind false
        return none
  else
    let ind := (inode.ext nvfsDirectExtents).start.toNat
    let indirectCount := ei - nvfsDirectExtents
    match ← indirectReadExtents ind nvfsIndirectEnts with
    | none =>
      setErrno .io
      return none
    | some ibuf =>
      if nvfsIndirectEnts ≤ indirectCount then
        setErrno .noSpace
        return none
      else
        let ibuf' := fun i =>
          if i = indirectCount then ⟨UInt32.ofNat block, 1⟩ else ibuf.getD i Extent.zero
        if ← indirectWriteExtents ind ibuf' (indirectCount + 1) then
          return some { inode with
            extentCount := UInt32.ofNat (nvfsDirectExtents + (indirectCount + 1))
            size := inode.size + UInt32.ofNat nvfsSectorSize }
        else
          setErrno .io
          return none

/-- The loop of `dir_add` over the directory's blocks: take the first free
    slot, or go on with `full` when there is none. -/
def dirAddBlocks (dirInode : Nat) (inode : Inode) (nd : Mem) (ticks : Nat)
    (full : NvfsM Bool) : List Nat → NvfsM Bool
  | [] => full
  | b :: bs => do
    match ← readBlock b with
    | none =>
      setErrno .io
      return false
    | some tmp =>
      match freeSlot tmp with
      | some e =>
        if ← writeBlock b (putSlot tmp e nd) then
          inodeWrite dirInode { inode with mtime := nowSec ticks }
        else
          setErrno .io
          return false
      | none => dirAddBlocks dirInode inode nd ticks full bs

/-- The end of `dir_add`, reached when no slot is free: give the directory one
    more block, with the new entry in its first slot. -/
def dirAddGrow (dirInode : Nat) (inode : Inode) (nd : Mem) (ticks : Nat) : NvfsM Bool := do
  match ← bitmapFind 1 with
  | none =>
    setErrno .noSpace
    return false
  | some newBlock =>
    let _ ← bitmapSet newBlock true
    if ← writeBlock newBlock (putSlot Sector.zero 0 nd) then
      match ← dirAddExtent inode newBlock with
      | none =>
        let _ ← bitmapSet newBlock false
        return false
      | some inode' =>
        if ← inodeWrite dirInode { inode' with mtime := nowSec ticks } then
          return true
        else
          setErrno .io
          return false
    else
      setErrno .io
      return false

def dirAdd (dirInode : Nat) (name : List UInt8) (child ticks : Nat) : NvfsM Bool := do
  match ← inodeRead dirInode with
  | none =>
    setErrno .io
    return false
  | some inode =>
    if inode.type ≠ nvfsTypeDir then
      setErrno .notDir
      return false
    else
      match ← dirFind dirInode name with
      | some _ =>
        setErrno .exists
        return false
      | none =>
        let nd := direntBytes name child
        match ← extentLoadAll inode with
        | none =>
          setErrno .io
          return false
        | some cache =>
          dirAddBlocks dirInode inode nd ticks (dirAddGrow dirInode inode nd ticks)
            (extentBlocks cache)

/-! ## Removal -/

/-- The search loop of `dir_remove`. -/
def dirRemoveBlocks (dirInode : Nat) (inode : Inode) (name : List UInt8) (ticks : Nat) :
    List Nat → NvfsM Bool
  | [] => do
    setErrno .notFound
    return false
  | b :: bs => do
    match ← readBlock b with
    | none =>
      setErrno .io
      return false
    | some tmp =>
      match findSlot tmp name with
      | some e =>
        if ← writeBlock b (clearSlot tmp e) then
          inodeWrite dirInode { inode with mtime := nowSec ticks }
        else
          setErrno .io
          return false
      | none => dirRemoveBlocks dirInode inode name ticks bs

def dirRemove (dirInode : Nat) (name : List UInt8) (ticks : Nat) : NvfsM Bool := do
  match ← inodeRead dirInode with
  | none =>
    setErrno .io
    return false
  | some inode =>
    if inode.type ≠ nvfsTypeDir then
      setErrno .notDir
      return false
    else
      match ← extentLoadAll inode with
      | none =>
        setErrno .io
        return false
      | some cache => dirRemoveBlocks dirInode inode name ticks (extentBlocks cache)

/-! ## Emptiness and parents -/

/-- Whether some block holds an entry that `p` accepts; unreadable blocks are
    passed over. -/
def anySlot (p : Nat → Bool) : List Nat → NvfsM Bool
  | [] => return false
  | b :: bs => do
    match ← readBlock b with
    | none => anySlot p bs
    | some tmp =>
      if (List.range direntsPerSec).any fun e => p (slotInode tmp e) then return true
      else anySlot p bs

def dirEmpty (dirInode : Nat) : NvfsM Bool := do
  match ← inodeRead dirInode with
  | none => return false
  | some inode =>
    match ← extentLoadAll inode with
    | none => return false
    | some cache => return !(← anySlot (· != 0) (extentBlocks cache))

/-- The loop of `find_parent` over the inode numbers given. -/
def findParentLoop (inum : Nat) : List Nat → NvfsM (Option Nat)
  | [] => return none
  | i :: is => do
    match ← inodeRead i with
    | none => findParentLoop inum is
    | some inode =>
      if inode.type ≠ nvfsTypeDir then
        findParentLoop inum is
      else
        match ← extentLoadAll inode with
        | none => findParentLoop inum is
        | some cache =>
          if ← anySlot (· == inum) (extentBlocks cache) then return asInt i
          else findParentLoop inum is

def findParent (inum : Nat) : NvfsM (Option Nat) := do
  if inum = nvfsRootInode then
    return none
  else
    let g ← getState
    findParentLoop inum (List.range g.sbInodeCount)

/-! ## Path resolution -/

/-- The characters `'/'` and `'.'`. -/
abbrev slash : UInt8 := 47
abbrev dot : UInt8 := 46

/-- `to_upper` on one character. -/
def upperByte (c : UInt8) : UInt8 := if 97 ≤ c ∧ c ≤ 122 then c - 32 else c

def toUpper (s : List UInt8) : List UInt8 := s.map upperByte

/-- Walk one path component down from `cur`. -/
def resolveComponent (cur : Nat) (comp : List UInt8) : NvfsM (Option Nat) := do
  if comp = [dot, dot] then
    match ← findParent cur with
    | none =>
      setErrno .path
      return none
    | some p => return some p
  else if comp = [dot] then
    return some cur
  else
    match ← dirFind cur (toUpper comp) with
    | none =>
      setErrno .notFound
      return none
    | some inum =>
      match ← inodeRead inum with
      | none =>
        setErrno .io
        return none
      | some inode =>
        if inode.type ≠ nvfsTypeDir then
          setErrno .notDir
          return none
        else
          return some inum

/-- The last component: the parent directory and the upper-cased name, which
    is empty when the component names the directory itself. -/
def resolveLast (cur : Nat) (name : List UInt8) : NvfsM (Option (Nat × List UInt8)) := do
  if name = [dot, dot] then
    match ← findParent cur with
    | none =>
      setErrno .path
      return none
    | some p => return some (p, [])
  else if name = [dot] then
    return some (cur, [])
  else
    return some (cur, toUpper name)

/-- The component loop of `resolve_path`: `seg` is the component read so far.
    Every slash ends a component (an empty one is skipped); what follows the
    last slash is the name. -/
def resolveLoop (cur : Nat) (seg : List UInt8) :
    List UInt8 → NvfsM (Option (Nat × List UInt8))
  | [] => resolveLast cur seg
  | c :: cs => do
    if c = slash then
      if seg = [] then
        resolveLoop cur [] cs
      else
        match ← resolveComponent cur seg with
        | none => return none
        | some next => resolveLoop next [] cs
    else
      resolveLoop cur (seg ++ [c]) cs

/-- The characters of `path` that `resolve_path` copies to its buffer. -/
def pathBuf (path : List UInt8) : List UInt8 := (path.takeWhile (· != 0)).take 255

def resolvePath (path : List UInt8) : NvfsM (Option (Nat × List UInt8)) := do
  let g ← getState
  match pathBuf path with
  | [] => return some (g.nvfsCwd, [])
  | c :: cs =>
    if c = slash then resolveLoop nvfsRootInode [] cs
    else resolveLoop g.nvfsCwd [] (c :: cs)

end Noverix.Nvfs
