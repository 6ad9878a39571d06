/-
  The calls that take blocks, with notes of what their callers never learn:
  which marks in the bitmap were stored, and at which of its exits a call gave
  up.  Each program below is the one of `Driver`, `Directory` or `Api` of the
  same name, with a note here and there; without the notes it is that program
  (`nvfsWriteNoted_erase` and so on), so what the notes say is said about the
  driver.
-/

import Noverix.Lib.Faults
import Noverix.Nvfs.ExtentIO

namespace Noverix.Nvfs

open Lib
open Lib.DiskProg (getState)

/-- What is noted. -/
inductive Note where
  /-- `bitmap_set(b, 1)`, for a block that an inode is given, returned success or not. -/
  | marked (b : Nat) (ok : Bool)
  /-- `expand_inode_table` returned success. -/
  | tableGrew
  /-- The call is about inode `i`, which has or gets its entry in directory `parent`. -/
  | target (parent i : Nat)
  /-- `k` new blocks are written, but `inode_write` of the inode they are for failed. -/
  | unsaved (k : Nat)
  /-- `dir_add` wrote the entry to a free slot, but `inode_write` of the directory failed. -/
  | entryUnsaved
  /-- `dir_add` marked a new block, but `write_block` failed on it. -/
  | blockUnwritten
  /-- `dir_add` gave the directory a new block, but `inode_write` of the directory failed. -/
  | blockUnsaved
  /-- `inode_free` could not read the inode, which had been given `k` blocks. -/
  | unread (k : Nat)
deriving DecidableEq

/-- A driver function that takes notes. -/
abbrev NotedM (α : Type) := Noted Globals Sector Event Note α

/-! ## Inodes and extents -/

/-- The search loop of `inode_alloc`. -/
def inodeAllocLoopNoted (type : UInt8) (ticks : Nat) (exhausted : NotedM (Option Nat)) :
    List Nat → NotedM (Option Nat)
  | [] => exhausted
  | i :: is => do
    match ← lift (inodeRead i) with
    | none => inodeAllocLoopNoted type ticks exhausted is
    | some inode =>
      if inode.type = 0 then
        if ← lift (inodeWrite i (freshInode type (nowSec ticks))) then
          return asInt i
        else
          lift (setErrno .io)
          return none
      else
        inodeAllocLoopNoted type ticks exhausted is

/-- The second search of `inode_alloc`, over the slots of the sector the table has got. -/
def inodeAllocRetry (type : UInt8) (ticks : Nat) : NvfsM (Option Nat) := do
  let g ← getState
  let first := u32 (g.sbInodeCount + 2 ^ 32 - inodesPerSec)
  inodeAllocLoop type ticks
    (do setErrno .noInode; return none)
    (List.range' first (g.sbInodeCount - first))

def inodeAllocGrowNoted (type : UInt8) (ticks : Nat) : NotedM (Option Nat) := do
  if ← lift expandInodeTable then
    note .tableGrew
    lift (inodeAllocRetry type ticks)
  else
    lift (setErrno .noInode)
    return none

def inodeAllocNoted (type : UInt8) (ticks : Nat) : NotedM (Option Nat) := do
  let g ← lift getState
  inodeAllocLoopNoted type ticks (inodeAllocGrowNoted type ticks)
    (List.range' 1 (g.sbInodeCount - 1))

/-- `inode_free` of an inode that has been given `k` blocks. -/
def inodeFreeNoted (inum k : Nat) : NotedM Bool := do
  let g ← lift getState
  if inum = 0 ∨ g.sbInodeCount ≤ inum then
    return false
  else
    match ← lift (inodeRead inum) with
    | none =>
      note (.unread k)
      return false
    | some inode =>
      match ← lift (extentLoadAll inode) with
      | none =>
        note (.unread k)
        return false
      | some cache =>
        lift (bitmapClear (extentBlocks cache))
        if nvfsDirectExtents < inode.extentCount.toNat then
          let _ ← lift (bitmapSet (inode.ext nvfsDirectExtents).start.toNat false)
        lift (inodeWrite inum { inode with type := 0, size := 0, extentCount := 0 })

def extentWriteLoopNoted (data : Mem) (size start : Nat) : Nat → Nat → NotedM Nat
  | 0, j => return j
  | n + 1, j => do
    if ← lift (writeBlock (u32 (start + j)) (extentChunk data size j)) then
      let ok ← lift (bitmapSet (u32 (start + j)) true)
      note (.marked (u32 (start + j)) ok)
      extentWriteLoopNoted data size start n (j + 1)
    else
      return j

def extentWriteNoted (inode : Inode) (data : Mem) (size : Nat) : NotedM (Option Inode) := do
  let needed := u32 (size + nvfsSectorSize - 1) / nvfsSectorSize
  if size = 0 then
    return some { inode with size := 0, extentCount := 0 }
  else
    match ← lift (bitmapFind needed) with
    | none => return none
    | some start =>
      let j ← extentWriteLoopNoted data size start needed 0
      if j < needed then
        lift (bitmapClear ((List.range j).map fun k => u32 (start + k)))
        return none
      else
        return some { inode with
          size := UInt32.ofNat size
          extentCount := 1
          extents := fun i =>
            if i.val = 0 then ⟨UInt32.ofNat start, UInt32.ofNat needed⟩ else Extent.zero }

/-! ## Directories -/

def indirectAllocNoted : NotedM (Option Nat) := do
  match ← lift (bitmapFind 1) with
  | none => return none
  | some blk =>
    if ← lift (writeBlock blk Sector.zero) then
      let ok ← lift (bitmapSet blk true)
      note (.marked blk ok)
      return some blk
    else
      return none

def dirAddExtentNoted (inode : Inode) (block : Nat) : NotedM (Option Inode) := do
  let ei := inode.extentCount.toNat
  if ei = nvfsDirectExtents then
    match ← indirectAllocNoted with
    | none =>
      lift (setErrno .noSpace)
      return none
    | some ind =>
      if ← lift (indirectWriteExtents ind (fun _ => ⟨UInt32.ofNat block, 1⟩) 1) then
        return some { inode.setExt nvfsDirectExtents
            ⟨UInt32.ofNat ind, nvfsIndirectMarker⟩ with
          extentCount := UInt32.ofNat (nvfsDirectExtents + 1)
          size := inode.size + UInt32.ofNat nvfsSectorSize }
      else
        lift (setErrno .io)
        let _ ← lift (bitmapSet ind false)
        return none
  else
    lift (dirAddExtent inode block)

/-- The mark of a directory's new block.  A fifteenth block is out of reach of `inode_read`, so
    nobody misses its mark. -/
def noteMark (inode : Inode) (newBlock : Nat) (ok : Bool) : NotedM Unit :=
  if ok = true ∨ inode.extentCount.toNat ≤ nvfsDirectExtents then note (.marked newBlock ok)
  else pure ()

/-- The part of `dir_add` after the new block was marked. -/
def dirAddFillNoted (dirInode : Nat) (inode : Inode) (nd : Mem) (ticks newBlock : Nat) :
    NotedM Bool := do
  if ← lift (writeBlock newBlock (putSlot Sector.zero 0 nd)) then
    match ← dirAddExtentNoted inode newBlock with
    | none =>
      let _ ← lift (bitmapSet newBlock false)
      return false
    | some inode' =>
      if ← lift (inodeWrite dirInode { inode' with mtime := nowSec ticks }) then
        return true
      else
        note .blockUnsaved
        lift (setErrno .io)
        return false
  else
    note .blockUnwritten
    lift (setErrno .io)
    return false

def dirAddGrowNoted (dirInode : Nat) (inode : Inode) (nd : Mem) (ticks : Nat) : NotedM Bool := do
  match ← lift (bitmapFind 1) with
  | none =>
    lift (setErrno .noSpace)
    return false
  | some newBlock =>
    let ok ← lift (bitmapSet newBlock true)
    noteMark inode newBlock ok
    dirAddFillNoted dirInode inode nd ticks newBlock

def dirAddBlocksNoted (dirInode : Nat) (inode : Inode) (nd : Mem) (ticks : Nat)
    (full : NotedM Bool) : List Nat → NotedM Bool
  | [] => full
  | b :: bs => do
    match ← lift (readBlock b) with
    | none =>
      lift (setErrno .io)
      return false
    | some tmp =>
      match freeSlot tmp with
      | some e =>
        if ← lift (writeBlock b (putSlot tmp e nd)) then
          if ← lift (inodeWrite dirInode { inode with mtime := nowSec ticks }) then
            return true
          else
            note .entryUnsaved
            return false
        else
          lift (setErrno .io)
          return false
      | none => dirAddBlocksNoted dirInode inode nd ticks full bs

def dirAddNoted (dirInode : Nat) (name : List UInt8) (child ticks : Nat) : NotedM Bool := do
  match ← lift (inodeRead dirInode) with
  | none =>
    lift (setErrno .io)
    return false
  | some inode =>
    if inode.type ≠ nvfsTypeDir then
      lift (setErrno .notDir)
      return false
    else
      match ← lift (dirFind dirInode name) with
      | some _ =>
        lift (setErrno .exists)
        return false
      | none =>
        let nd := direntBytes name child
        match ← lift (extentLoadAll inode) with
        | none =>
          lift (setErrno .io)
          return false
        | some cache =>
          dirAddBlocksNoted dirInode inode nd ticks
            (dirAddGrowNoted dirInode inode nd ticks) (extentBlocks cache)

/-! ## Calls -/

def shadowWriteNoted (inum : Nat) (inode : Inode) (data : Mem) (size ticks : Nat) :
    NotedM Bool := do
  match ← lift (extentLoadAll inode) with
  | none =>
    lift (setErrno .io)
    return false
  | some oldCache =>
    match ← extentWriteNoted inode data size with
    | none =>
      lift (setErrno .noSpace)
      return false
    | some inode' =>
      if ← lift (inodeWrite inum { inode' with mtime := nowSec ticks }) then
        lift (freeOld oldCache (oldIndBlk inode))
        return true
      else
        note (.unsaved (blocksFor size))
        lift (setErrno .io)
        return false

/-- The new inode has been given `k` blocks. -/
def enterNewNoted (parent : Nat) (name : List UInt8) (inum ticks k : Nat) : NotedM Bool := do
  if ← dirAddNoted parent name inum ticks then
    return true
  else
    let _ ← inodeFreeNoted inum k
    return false

def createFileNoted (env : Env) (parent : Nat) (name : List UInt8) (data : Mem) (size : Nat) :
    NotedM Bool := do
  match ← inodeAllocNoted nvfsTypeFile (env.ticks 0) with
  | none => return false
  | some inum =>
    note (.target parent inum)
    let t := nowSec (env.ticks 1)
    let inode : Inode :=
      { size := 0, type := nvfsTypeFile, ctime := ctimeOf t, extentCount := 0,
        extents := env.stack, mtime := t }
    match ← extentWriteNoted inode data size with
    | none =>
      let _ ← inodeFreeNoted inum 0
      lift (setErrno .noSpace)
      return false
    | some inode' =>
      if ← lift (inodeWrite inum inode') then
        enterNewNoted parent name inum (env.ticks 2) (blocksFor size)
      else
        match ← lift (extentLoadAll inode') with
        | none => pure ()
        | some cache => lift (bitmapClear (extentBlocks cache))
        if nvfsDirectExtents < inode'.extentCount.toNat then
          let _ ← lift (bitmapSet (inode'.ext nvfsDirectExtents).start.toNat false)
        let _ ← inodeFreeNoted inum 0
        lift (setErrno .io)
        return false

def nvfsWriteNoted (env : Env) (path : List UInt8) (data : Mem) (size : Nat) : NotedM Bool := do
  match ← lift (resolveNamed path) with
  | none => return false
  | some (parent, name) =>
    match ← lift (dirFind parent name) with
    | some inum =>
      note (.target parent inum)
      match ← lift (inodeRead inum) with
      | none =>
        lift (setErrno .io)
        return false
      | some inode => shadowWriteNoted inum inode data size (env.ticks 0)
    | none => createFileNoted env parent name data size

def nvfsAppendNoted (env : Env) (path : List UInt8) (data : Mem) (size : Nat) : NotedM Bool := do
  match ← lift (resolveNamed path) with
  | none => return false
  | some (parent, name) =>
    match ← lift (dirFind parent name) with
    | none => return false
    | some inum =>
      note (.target parent inum)
      match ← lift (inodeRead inum) with
      | none =>
        lift (setErrno .io)
        return false
      | some inode =>
        if inode.type ≠ nvfsTypeFile then
          lift (setErrno .notFile)
          return false
        else
          match env.heap with
          | none =>
            lift (setErrno .io)
            return false
          | some heap =>
            let old := min inode.size.toNat 4096
            let add := min size (4096 - old)
            match ← lift (extentRead inode old) with
            | none =>
              lift (setErrno .io)
              return false
            | some content =>
              shadowWriteNoted inum inode (appendBuf heap content old add data)
                (old + add) (env.ticks 0)

def createDirNoted (env : Env) (parent : Nat) (name : List UInt8) : NotedM Bool := do
  match ← inodeAllocNoted nvfsTypeDir (env.ticks 0) with
  | none => return false
  | some inum =>
    note (.target parent inum)
    let t := nowSec (env.ticks 1)
    let inode : Inode :=
      { size := 0, type := nvfsTypeDir, ctime := ctimeOf t, extentCount := 0,
        extents := env.stack, mtime := t }
    if ← lift (inodeWrite inum inode) then
      enterNewNoted parent name inum (env.ticks 2) 0
    else
      let _ ← inodeFreeNoted inum 0
      lift (setErrno .io)
      return false

def nvfsMkdirNoted (env : Env) (path : List UInt8) : NotedM Bool := do
  match ← lift (resolveNamed path) with
  | none => return false
  | some (parent, name) => createDirNoted env parent name

/-! ## Without the notes -/

section

theorem inodeAllocLoopNoted_erase (type : UInt8) (ticks : Nat) (ex : NotedM (Option Nat))
    (is : List Nat) : (inodeAllocLoopNoted type ticks ex is).erase
      = inodeAllocLoop type ticks ex.erase is := by
  induction is with
  | nil => rfl
  | cons i is ih =>
    unfold inodeAllocLoopNoted inodeAllocLoop
    refine erase_option ih fun n => ?_
    by_cases h : n.type = 0
    · simp only [h, if_true]
      refine erase_lifted fun b => ?_
      cases b
      · exact erase_lifted fun _ => rfl
      · rfl
    simp only [h, if_false]
    exact ih

theorem inodeAllocNoted_erase (type : UInt8) (ticks : Nat) :
    (inodeAllocNoted type ticks).erase = inodeAlloc type ticks := by
  have hgrow : (inodeAllocGrowNoted type ticks).erase = inodeAllocGrow type ticks := by
    unfold inodeAllocGrowNoted inodeAllocGrow
    refine erase_lifted fun b => ?_
    cases b
    · exact erase_lifted fun _ => rfl
    · exact (erase_note_bind _ _).trans (erase_lift _)
  unfold inodeAllocNoted inodeAlloc
  refine erase_lifted fun g => ?_
  rw [inodeAllocLoopNoted_erase, hgrow]

theorem inodeFreeNoted_erase (inum k : Nat) : (inodeFreeNoted inum k).erase = inodeFree inum := by
  unfold inodeFreeNoted inodeFree
  refine erase_lifted fun g => ?_
  by_cases h : inum = 0 ∨ g.sbInodeCount ≤ inum
  · rw [if_pos h, if_pos h]
    rfl
  rw [if_neg h, if_neg h]
  refine erase_option (erase_note_bind _ _) fun n => ?_
  refine erase_option (erase_note_bind _ _) fun cache => ?_
  refine erase_lifted fun _ => ?_
  by_cases h : nvfsDirectExtents < n.extentCount.toNat
  · simp only [h, if_true]
    exact erase_lifted fun _ => erase_lift _
  simp only [h, if_false]
  exact erase_lift _

theorem extentWriteLoopNoted_erase (data : Mem) (size start n j : Nat) :
    (extentWriteLoopNoted data size start n j).erase = extentWriteLoop data size start n j := by
  induction n generalizing j with
  | zero => rfl
  | succ n ih =>
    unfold extentWriteLoopNoted extentWriteLoop
    refine erase_lifted fun b => ?_
    cases b
    · rfl
    · exact erase_lifted fun _ => (erase_note_bind _ _).trans (ih _)

theorem extentWriteNoted_erase (inode : Inode) (data : Mem) (size : Nat) :
    (extentWriteNoted inode data size).erase = extentWrite inode data size := by
  unfold extentWriteNoted extentWrite
  by_cases h : size = 0
  · simp only [h, if_true]
    rfl
  simp only [h, if_false]
  refine erase_option rfl fun start => ?_
  refine erase_bind_eq (extentWriteLoopNoted_erase _ _ _ _ _) fun j => ?_
  by_cases hj : j < u32 (size + nvfsSectorSize - 1) / nvfsSectorSize
  · simp only [hj, if_true]
    exact erase_lifted fun _ => rfl
  simp only [hj, if_false]
  rfl

theorem dirAddExtentNoted_erase (inode : Inode) (block : Nat) :
    (dirAddExtentNoted inode block).erase = dirAddExtent inode block := by
  have halloc : indirectAllocNoted.erase = indirectAlloc := by
    unfold indirectAllocNoted indirectAlloc
    refine erase_option rfl fun blk => ?_
    refine erase_lifted fun b => ?_
    cases b
    · rfl
    · exact erase_lifted fun _ => erase_note_bind _ _
  unfold dirAddExtentNoted
  by_cases h : inode.extentCount.toNat = nvfsDirectExtents
  · have hlt : ¬ inode.extentCount.toNat < nvfsDirectExtents := by omega
    unfold dirAddExtent
    simp only [h, if_true, Nat.lt_irrefl, if_false]
    refine erase_bind_eq halloc fun r => ?_
    cases r with
    | none => exact erase_lifted fun _ => rfl
    | some ind =>
      refine erase_lifted fun b => ?_
      cases b
      · exact erase_lifted fun _ => erase_lifted fun _ => rfl
      · rfl
  simp only [h, if_false]
  exact erase_lift _

theorem noteMark_bind {α : Type} (inode : Inode) (newBlock : Nat) (ok : Bool)
    (f : Unit → NotedM α) : (noteMark inode newBlock ok >>= f).erase = (f ()).erase := by
  unfold noteMark
  split
  · exact erase_note_bind _ _
  · exact erase_bind_eq (k := fun a => (f a).erase) rfl fun _ => rfl

theorem dirAddGrowNoted_erase (dirInode : Nat) (inode : Inode) (nd : Mem) (ticks : Nat) :
    (dirAddGrowNoted dirInode inode nd ticks).erase = dirAddGrow dirInode inode nd ticks := by
  unfold dirAddGrowNoted dirAddGrow
  refine erase_option (erase_lifted fun _ => rfl) fun newBlock => ?_
  refine erase_lifted fun ok => (noteMark_bind _ _ _ _).trans ?_
  unfold dirAddFillNoted
  refine erase_lifted fun b => ?_
  cases b with
  | false => exact (erase_note_bind _ _).trans (erase_lifted fun _ => rfl)
  | true =>
    refine erase_bind_eq (dirAddExtentNoted_erase _ _) fun r => ?_
    cases r with
    | none => exact erase_lifted fun _ => rfl
    | some inode' =>
      refine erase_lifted fun b => ?_
      cases b with
      | false =>
        exact (erase_note_bind _ _).trans (erase_lifted fun _ => rfl)
      | true => rfl

theorem dirAddBlocksNoted_erase (dirInode : Nat) (inode : Inode) (nd : Mem) (ticks : Nat)
    (full : NotedM Bool) (bs : List Nat) :
    (dirAddBlocksNoted dirInode inode nd ticks full bs).erase
      = dirAddBlocks dirInode inode nd ticks full.erase bs := by
  induction bs with
  | nil => rfl
  | cons b bs ih =>
    unfold dirAddBlocksNoted dirAddBlocks
    refine erase_option (erase_lifted fun _ => rfl) fun tmp => ?_
    cases hslot : freeSlot tmp with
    | none =>
      simp only [hslot]
      exact ih
    | some e =>
      simp only [hslot]
      refine erase_lifted fun b => ?_
      cases b with
      | false => exact erase_lifted fun _ => rfl
      | true =>
        -- the result of the last write is passed on
        refine Eq.trans (erase_bind_eq (k := pure) (erase_lift _) fun b => ?_)
          (DiskProg.bind_ret _)
        cases b with
        | false => exact erase_note_bind _ _
        | true => rfl

theorem dirAddNoted_erase (dirInode : Nat) (name : List UInt8) (child ticks : Nat) :
    (dirAddNoted dirInode name child ticks).erase = dirAdd dirInode name child ticks := by
  unfold dirAddNoted dirAdd
  refine erase_option (erase_lifted fun _ => rfl) fun inode => ?_
  by_cases h : inode.type = nvfsTypeDir
  case neg =>
    simp only [ne_eq, h, not_false_eq_true, if_true]
    exact erase_lifted fun _ => rfl
  case pos =>
    simp only [ne_eq, h, not_true_eq_false, if_false]
    refine erase_lifted fun r => ?_
    cases r with
    | some _ => exact erase_lifted fun _ => rfl
    | none =>
      refine erase_option (erase_lifted fun _ => rfl) fun cache => ?_
      refine (dirAddBlocksNoted_erase _ _ _ _ _ _).trans ?_
      rw [dirAddGrowNoted_erase]

theorem shadowWriteNoted_erase (inum : Nat) (inode : Inode) (data : Mem) (size ticks : Nat) :
    (shadowWriteNoted inum inode data size ticks).erase
      = shadowWrite inum inode data size ticks := by
  unfold shadowWriteNoted shadowWrite
  refine erase_option (erase_lifted fun _ => rfl) fun cache => ?_
  refine erase_bind_eq (extentWriteNoted_erase _ _ _) fun r => ?_
  cases r with
  | none => exact erase_lifted fun _ => rfl
  | some inode' =>
    refine erase_lifted fun b => ?_
    cases b with
    | false =>
      exact (erase_note_bind _ _).trans (erase_lifted fun _ => rfl)
    | true => exact erase_lifted fun _ => rfl

theorem enterNewNoted_erase (parent : Nat) (name : List UInt8) (inum ticks k : Nat) :
    (enterNewNoted parent name inum ticks k).erase = enterNew parent name inum ticks := by
  unfold enterNewNoted enterNew
  refine erase_bind_eq (dirAddNoted_erase _ _ _ _) fun b => ?_
  cases b with
  | false => exact erase_bind_eq (inodeFreeNoted_erase _ _) fun _ => rfl
  | true => rfl

theorem undoNoted_erase (inum : Nat) (c : Prop) [Decidable c] (b : Nat) :
    (do
      if c then
        let _ ← lift (bitmapSet b false)
      let _ ← inodeFreeNoted inum 0
      lift (setErrno .io)
      return false : NotedM Bool).erase
    = (do
      if c then
        let _ ← bitmapSet b false
      let _ ← inodeFree inum
      setErrno .io
      return false : NvfsM Bool) := by
  have hfree : (do
      let _ ← inodeFreeNoted inum 0
      lift (setErrno .io)
      return false : NotedM Bool).erase
      = (do
        let _ ← inodeFree inum
        setErrno .io
        return false : NvfsM Bool) :=
    erase_bind_eq (inodeFreeNoted_erase _ _) fun _ => erase_lifted fun _ => rfl
  by_cases hc : c
  · simp only [hc, if_true]
    exact erase_lifted fun _ => hfree
  simp only [hc, if_false]
  exact hfree

theorem createFileNoted_erase (env : Env) (parent : Nat) (name : List UInt8) (data : Mem)
    (size : Nat) : (createFileNoted env parent name data size).erase
      = createFile env parent name data size := by
  unfold createFileNoted createFile
  refine erase_bind_eq (inodeAllocNoted_erase _ _) fun r => ?_
  cases r with
  | none => rfl
  | some inum =>
    refine (erase_note_bind _ _).trans ?_
    refine erase_bind_eq (extentWriteNoted_erase _ _ _) fun r => ?_
    cases r with
    | none =>
      exact erase_bind_eq (inodeFreeNoted_erase _ _) fun _ =>
        erase_lifted fun _ => rfl
    | some inode' =>
      refine erase_lifted fun b => ?_
      cases b with
      | true => exact enterNewNoted_erase _ _ _ _ _
      | false =>
        refine erase_option (undoNoted_erase _ _ _) fun cache => ?_
        exact erase_lifted fun _ => undoNoted_erase _ _ _

section

variable (env : Env) (path : List UInt8)
include env path

theorem nvfsWriteNoted_erase (data : Mem) (size : Nat) :
    (nvfsWriteNoted env path data size).erase = nvfsWrite env path data size := by
  unfold nvfsWriteNoted nvfsWrite
  refine erase_option rfl fun r => ?_
  refine erase_lifted fun r' => ?_
  cases r' with
  | none => exact createFileNoted_erase _ _ _ _ _
  | some inum =>
    refine (erase_note_bind _ _).trans (erase_lifted fun r => ?_)
    cases r with
    | none => exact erase_lifted fun _ => rfl
    | some inode => exact shadowWriteNoted_erase _ _ _ _ _

theorem nvfsAppendNoted_erase (data : Mem) (size : Nat) :
    (nvfsAppendNoted env path data size).erase = nvfsAppend env path data size := by
  unfold nvfsAppendNoted nvfsAppend onExisting
  refine erase_option rfl fun r => ?_
  refine erase_lifted fun r' => ?_
  cases r' with
  | none => rfl
  | some inum =>
    refine (erase_note_bind _ _).trans (erase_lifted fun r => ?_)
    cases r with
    | none => exact erase_lifted fun _ => rfl
    | some inode =>
      by_cases h : inode.type = nvfsTypeFile
      case neg =>
        simp only [ne_eq, h, not_false_eq_true, if_true]
        exact erase_lifted fun _ => rfl
      case pos =>
        simp only [ne_eq, h, not_true_eq_false, if_false]
        cases env.heap with
        | none => exact erase_lifted fun _ => rfl
        | some heap =>
          refine erase_option (erase_lifted fun _ => rfl) fun content => ?_
          exact shadowWriteNoted_erase _ _ _ _ _

theorem nvfsMkdirNoted_erase : (nvfsMkdirNoted env path).erase = nvfsMkdir env path := by
  unfold nvfsMkdirNoted nvfsMkdir
  refine erase_option rfl fun r => ?_
  obtain ⟨parent, name⟩ := r
  unfold createDirNoted createDir
  refine erase_bind_eq (inodeAllocNoted_erase _ _) fun r => ?_
  cases r with
  | none => rfl
  | some inum =>
    refine (erase_note_bind _ _).trans (erase_lifted fun b => ?_)
    cases b with
    | true => exact enterNewNoted_erase _ _ _ _ _
    | false =>
      exact erase_bind_eq (inodeFreeNoted_erase _ _) fun _ =>
        erase_lifted fun _ => rfl

end

end

end Noverix.Nvfs
