/-
  The public calls of kernel/drivers/nvfs.c.  Each runs under `nvfs_lock`, so a
  call is one sequential program.  What a call takes from its surroundings is
  its `Env`: the readings of the tick counter, the contents of the inode it
  leaves uninitialised on its stack, and the buffer `malloc` gives it.
-/

import Noverix.Nvfs.Directory

namespace Noverix.Nvfs

open Lib
open Lib.DiskProg (getState setState report)

/-- The surroundings of a call. -/
structure Env where
  /-- `get_ticks()` at the `k`-th use of `now_sec()` in the call. -/
  ticks : Nat → Nat
  /-- The uninitialised `inode.extents` of the call's local inode. -/
  stack : Fin nvfsMaxExtents → Extent
  /-- The result of `malloc(4096)`: the bytes found in the buffer, or `NULL`. -/
  heap : Option Mem

/-- The prologue of the calls that take a name: mounted, resolvable, and a last
    component left over. -/
def resolveNamed (path : List UInt8) : NvfsM (Option (Nat × List UInt8)) := do
  let g ← getState
  if g.mounted then
    match ← resolvePath path with
    | none => return none
    | some (parent, name) =>
      if name = [] then
        setErrno .path
        return none
      else
        return some (parent, name)
  else
    setErrno .noMount
    return none

/-- The prologue of the calls on an existing name: find it and read its inode.
    `fail` is what the call returns when that is not possible. -/
def onExisting {α : Type} (fail : α) (path : List UInt8)
    (k : Nat → List UInt8 → Nat → Inode → NvfsM α) : NvfsM α := do
  match ← resolveNamed path with
  | none => return fail
  | some (parent, name) =>
    match ← dirFind parent name with
    | none => return fail
    | some inum =>
      match ← inodeRead inum with
      | none =>
        setErrno .io
        return fail
      | some inode => k parent name inum inode

/-- The bytes copied to the caller's buffer, whose number is returned. -/
def nvfsRead (path : List UInt8) (max : Nat) : NvfsM (Option (List UInt8)) :=
  onExisting none path fun _ _ _ inode => do
    if inode.type ≠ nvfsTypeFile then
      setErrno .notFile
      return none
    else
      extentRead inode max

/-- Free the blocks an inode had before it was given new ones. -/
def freeOld (cache : List Extent) (oldIndBlk : Nat) : NvfsM Unit := do
  bitmapClear (extentBlocks cache)
  if oldIndBlk ≠ 0 then
    let _ ← bitmapSet oldIndBlk false

/-- `old_ind_blk`: the indirect block of an inode, zero when it has none. -/
def oldIndBlk (inode : Inode) : Nat :=
  if nvfsDirectExtents < inode.extentCount.toNat then
    (inode.ext nvfsDirectExtents).start.toNat
  else 0

/-- The shadow-paging update shared by `nvfs_write` and `nvfs_append`: write
    the new blocks, persist the inode, free the old blocks. -/
def shadowWrite (inum : Nat) (inode : Inode) (data : Mem) (size ticks : Nat) : NvfsM Bool := do
  match ← extentLoadAll inode with
  | none =>
    setErrno .io
    return false
  | some oldCache =>
    match ← extentWrite inode data size with
    | none =>
      setErrno .noSpace
      return false
    | some inode' =>
      if ← inodeWrite inum { inode' with mtime := nowSec ticks } then
        freeOld oldCache (oldIndBlk inode)
        return true
      else
        setErrno .io
        return false

/-- The last step of `nvfs_mkdir` and of a file-creating `nvfs_write`: enter the
    new inode in its directory, or free it. -/
def enterNew (parent : Nat) (name : List UInt8) (inum ticks : Nat) : NvfsM Bool := do
  if ← dirAdd parent name inum ticks then
    return true
  else
    let _ ← inodeFree inum
    return false

/-- The branch of `nvfs_write` for a name that does not exist yet. -/
def createFile (env : Env) (parent : Nat) (name : List UInt8) (data : Mem) (size : Nat) :
    NvfsM Bool := do
  match ← inodeAlloc nvfsTypeFile (env.ticks 0) with
  | none => return false
  | some inum =>
    let t := nowSec (env.ticks 1)
    let inode : Inode :=
      { size := 0, type := nvfsTypeFile, ctime := ctimeOf t, extentCount := 0,
        extents := env.stack, mtime := t }
    match ← extentWrite inode data size with
    | none =>
      let _ ← inodeFree inum
      setErrno .noSpace
      return false
    | some inode' =>
      if ← inodeWrite inum inode' then
        enterNew parent name inum (env.ticks 2)
      else
        -- the inode on disk still has no extents: free those in memory
        match ← extentLoadAll inode' with
        | none => pure ()
        | some cache => bitmapClear (extentBlocks cache)
        if nvfsDirectExtents < inode'.extentCount.toNat then
          let _ ← bitmapSet (inode'.ext nvfsDirectExtents).start.toNat false
        let _ ← inodeFree inum
        setErrno .io
        return false

/-- `nvfs_write(path, data, size)`; `data` is the memory at the caller's
    pointer. -/
def nvfsWrite (env : Env) (path : List UInt8) (data : Mem) (size : Nat) : NvfsM Bool := do
  match ← resolveNamed path with
  | none => return false
  | some (parent, name) =>
    match ← dirFind parent name with
    | some inum =>
      match ← inodeRead inum with
      | none =>
        setErrno .io
        return false
      | some inode => shadowWrite inum inode data size (env.ticks 0)
    | none => createFile env parent name data size

/-- The 4096-byte buffer `nvfs_append` builds: the file's first bytes, then the
    new ones, over what `malloc` left there. -/
def appendBuf (heap : Mem) (content : List UInt8) (old add : Nat) (data : Mem) : Mem := fun k =>
  if old ≤ k ∧ k < old + add then data (k - old)
  else if h : k < content.length then content.get ⟨k, h⟩
  else heap k

def nvfsAppend (env : Env) (path : List UInt8) (data : Mem) (size : Nat) : NvfsM Bool :=
  onExisting false path fun _ _ inum inode => do
    if inode.type ≠ nvfsTypeFile then
      setErrno .notFile
      return false
    else
      match env.heap with
      | none =>
        setErrno .io
        return false
      | some heap =>
        let old := min inode.size.toNat 4096
        let add := min size (4096 - old)
        match ← extentRead inode old with
        | none =>
          setErrno .io
          return false
        | some content =>
          shadowWrite inum inode (appendBuf heap content old add data) (old + add)
            (env.ticks 0)

/-- The last two steps of `nvfs_delete` and `nvfs_rmdir`. -/
def freeAndUnlink (parent : Nat) (name : List UInt8) (inum ticks : Nat) : NvfsM Bool := do
  if ← inodeFree inum then
    if ← dirRemove parent name ticks then
      return true
    else
      setErrno .io
      return false
  else
    setErrno .io
    return false

def nvfsDelete (env : Env) (path : List UInt8) : NvfsM Bool :=
  onExisting false path fun parent name inum inode => do
    if inode.type ≠ nvfsTypeFile then
      setErrno .notFile
      return false
    else
      freeAndUnlink parent name inum (env.ticks 0)

/-- `nvfs_mkdir` after its path is resolved. -/
def createDir (env : Env) (parent : Nat) (name : List UInt8) : NvfsM Bool := do
  match ← inodeAlloc nvfsTypeDir (env.ticks 0) with
  | none => return false
  | some inum =>
    let t := nowSec (env.ticks 1)
    let inode : Inode :=
      { size := 0, type := nvfsTypeDir, ctime := ctimeOf t, extentCount := 0,
        extents := env.stack, mtime := t }
    if ← inodeWrite inum inode then
      enterNew parent name inum (env.ticks 2)
    else
      let _ ← inodeFree inum
      setErrno .io
      return false

def nvfsMkdir (env : Env) (path : List UInt8) : NvfsM Bool := do
  match ← resolveNamed path with
  | none => return false
  | some (parent, name) => createDir env parent name

def nvfsRmdir (env : Env) (path : List UInt8) : NvfsM Bool :=
  onExisting false path fun parent name inum inode => do
    if inode.type ≠ nvfsTypeDir then
      setErrno .notDir
      return false
    else if ← dirEmpty inum then
      freeAndUnlink parent name inum (env.ticks 0)
    else
      setErrno .dirBusy
      return false

/-- Change the current directory; returns the inode stored in `*out_inode`.
    `NULL` and the empty path both name the root. -/
def nvfsChdir (path : List UInt8) : NvfsM (Option Nat) := do
  let g ← getState
  if g.mounted then
    if path.takeWhile (· != 0) = [] then
      setState { g with nvfsCwd := nvfsRootInode }
      return some nvfsRootInode
    else
      match ← resolvePath path with
      | none => return none
      | some (parent, name) =>
        if name = [] then
          setState { g with nvfsCwd := parent }
          return some parent
        else
          match ← dirFind parent name with
          | none => return none
          | some inum =>
            match ← inodeRead inum with
            | none =>
              setErrno .io
              return none
            | some inode =>
              if inode.type ≠ nvfsTypeDir then
                setErrno .notDir
                return none
              else
                setState { g with nvfsCwd := inum }
                return some inum
  else
    setErrno .noMount
    return none

/-! ## Path strings -/

/-- The name copied from the first entry for inode `cur` in a sector. -/
def nameOfInode (tmp : Sector) (cur : Nat) : Option (List UInt8) :=
  ((List.range direntsPerSec).find? fun e => slotInode tmp e == cur).map fun e =>
    (slotName tmp e).take nvfsMaxName

/-- The search of `nvfs_path_string` over the parent's blocks; unreadable ones are passed over. -/
def findNameBlocks (cur : Nat) : List Nat → NvfsM (Option (List UInt8))
  | [] => return none
  | b :: bs => do
    match ← readBlock b with
    | none => findNameBlocks cur bs
    | some tmp =>
      match nameOfInode tmp cur with
      | some name => return some name
      | none => findNameBlocks cur bs

def findName (parent cur : Nat) : NvfsM (Option (List UInt8)) := do
  match ← inodeRead parent with
  | none => return none
  | some pinode =>
    match ← extentLoadAll pinode with
    | none => return none
    | some cache => findNameBlocks cur (extentBlocks cache)

/-- The components that fit `components[16]`. -/
abbrev maxComponents : Nat := 16

/-- The loop that climbs to the root; `names` are the components found, the topmost first.  A
    round that finds no name fills no component, so nothing but the disk bounds the rounds:
    `none` if there are more than given. -/
def climb : Nat → Nat → List (List UInt8) → NvfsM (Option (List (List UInt8)))
  | 0, _, _ => return none
  | rounds + 1, cur, names => do
    if cur ≠ nvfsRootInode ∧ names.length < maxComponents then
      match ← findParent cur with
      | none => return some names
      | some parent =>
        match ← findName parent cur with
        | none => climb rounds parent names
        | some name => climb rounds parent (name :: names)
    else
      return some names

/-- Copy a component while there is room; `out` is the text so far. -/
def putName (limit : Int) (out : List UInt8) : List UInt8 → List UInt8
  | [] => out
  | c :: cs => if (out.length : Int) < limit then putName limit (out ++ [c]) cs else out

/-- The loop over the components, with a slash between two of them. -/
def putNames (limit : Int) (out : List UInt8) : List (List UInt8) → List UInt8
  | [] => out
  | name :: names =>
    if (out.length : Int) < limit then
      let out := putName limit out name
      if names ≠ [] ∧ (out.length : Int) < limit then
        putNames limit (out ++ [slash]) names
      else
        putNames limit out names
    else
      out

/-- `(int)size - 1`.  For `size = 2^31` the subtraction overflows; the value taken here is the
    one it would have. -/
def textLimit (size : UInt32) : Int :=
  (if size.toNat < 2 ^ 31 then (size.toNat : Int) else size.toNat - 2 ^ 32) - 1

/-- The text written to `buf` before its zero, or `none` if the call fails; nothing at all if
    the rounds are used up. -/
def nvfsPathString (rounds inum : Nat) (size : UInt32) :
    NvfsM (Option (Option (List UInt8))) := do
  if size < 2 then
    return some none
  else if inum = nvfsRootInode then
    return some (some [slash])
  else
    match ← climb rounds inum [] with
    | none => return none
    | some names => return some (some (putNames (textLimit size) [slash] names))

/-! ## Listing -/

/-- The entry loop of `nvfs_list` on one sector.  The size and type printed for
    an entry whose inode cannot be read are those of the uninitialised `ci`. -/
def listSlots (ci : Inode) (tmp : Sector) : List Nat → NvfsM Unit
  | [] => return ()
  | e :: es => do
    if slotInode tmp e = 0 then
      listSlots ci tmp es
    else
      match ← inodeRead (slotInode tmp e) with
      | none =>
        report (.entry false (slotName tmp e) ci.size ci.type)
        listSlots ci tmp es
      | some inode =>
        report (.entry (inode.type = nvfsTypeDir) (slotName tmp e) inode.size inode.type)
        listSlots ci tmp es

def listBlocks (ci : Inode) : List Nat → NvfsM Bool
  | [] => return true
  | b :: bs => do
    match ← readBlock b with
    | none => return false
    | some tmp =>
      listSlots ci tmp (List.range direntsPerSec)
      listBlocks ci bs

/-- The directory `nvfs_list` prints. -/
def listTarget (path : List UInt8) : NvfsM (Option Nat) := do
  let g ← getState
  if path.takeWhile (· != 0) = [] then
    return some g.nvfsCwd
  else
    match ← resolvePath path with
    | none => return none
    | some (parent, name) =>
      if name = [] then
        return some parent
      else
        match ← dirFind parent name with
        | none => return none
        | some inum =>
          match ← inodeRead inum with
          | none => return none
          | some inode =>
            if inode.type ≠ nvfsTypeDir then return none else return some inum

def nvfsList (ci : Inode) (path : List UInt8) : NvfsM Bool := do
  let g ← getState
  if g.mounted then
    match ← listTarget path with
    | none => return false
    | some dirInode =>
      match ← inodeRead dirInode with
      | none => return false
      | some inode =>
        match ← extentLoadAll inode with
        | none => return false
        | some cache => listBlocks ci (extentBlocks cache)
  else
    setErrno .noMount
    return false

end Noverix.Nvfs
