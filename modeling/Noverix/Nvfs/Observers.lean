/-
  The functions of the driver that only look: lookups, path resolution, reads
  and listings write no sector and leave the driver's variables alone, on any
  disk and whatever they find there.
-/

import Noverix.Nvfs.Api

namespace Noverix.Nvfs

open Lib
open Lib.DiskProg (ReadOnly)

theorem readOnly_setErrno (e : NvfsErr) : ReadOnly (setErrno e) := ReadOnly.report _

variable {α : Type}

theorem readOnly_fail (e : NvfsErr) (a : α) :
    ReadOnly (do setErrno e; return a : NvfsM α) :=
  (readOnly_setErrno e).bind fun _ => ReadOnly.pure a

theorem readOnly_readBlock (b : Nat) : ReadOnly (readBlock b) :=
  ReadOnly.getState.bind fun _ => ReadOnly.readSec _

/-! ## Bitmap and inodes -/

theorem readOnly_bitmapTest (b : Nat) : ReadOnly (bitmapTest b) := by
  refine ReadOnly.getState.bind fun g => (ReadOnly.readSec _).bind fun r => ?_
  split <;> exact .pure _

theorem readOnly_bitmapRun (start j k : Nat) : ReadOnly (bitmapRun start j k) := by
  induction k generalizing j with
  | zero => exact .pure _
  | succ k ih =>
    refine (readOnly_bitmapTest _).bind fun r => ?_
    split
    · exact ih _
    · exact .pure _

theorem readOnly_bitmapScan (buf : Sector) (base total count : Nat) (bs : List Nat) :
    ReadOnly (bitmapScan buf base total count bs) := by
  induction bs with
  | nil => exact .pure _
  | cons b bs ih =>
    unfold bitmapScan
    split
    · split
      · exact ih
      split
      · exact .pure _
      refine (readOnly_bitmapRun _ _ _).bind fun r => ?_
      split
      · exact .pure _
      · exact ih
    · exact .pure _

theorem readOnly_bitmapFind (count : Nat) : ReadOnly (bitmapFind count) := by
  have hloop : ∀ total ss, ReadOnly (bitmapSectors total count ss) := by
    intro total ss
    induction ss with
    | nil => exact .pure _
    | cons s ss ih =>
      unfold bitmapSectors
      -- the list of bit numbers stays folded: evaluating it is of no use
      generalize range bitsPerSec = bs
      refine ReadOnly.getState.bind fun g => (ReadOnly.readSec _).bind fun r => ?_
      split
      · exact .pure _
      refine (readOnly_bitmapScan _ _ _ _ _).bind fun r => ?_
      split
      · exact .pure _
      · exact ih
  exact ReadOnly.getState.bind fun g => hloop _ _

theorem readOnly_inodeRead (i : Nat) : ReadOnly (inodeRead i) := by
  refine ReadOnly.getState.bind fun g => ?_
  split
  · exact readOnly_fail _ _
  refine (ReadOnly.readSec _).bind fun r => ?_
  split <;> exact .pure _

/-! ## Extents -/

theorem readOnly_extentLoadAll (ino : Inode) : ReadOnly (extentLoadAll ino) := by
  unfold extentLoadAll
  split
  · exact .pure _
  refine ReadOnly.bind ?_ fun r => by split <;> exact .pure _
  refine (readOnly_readBlock _).bind fun r => ?_
  split <;> exact .pure _

theorem readOnly_extentRead (ino : Inode) (max : Nat) : ReadOnly (extentRead ino max) := by
  have hloop : ∀ remain bs buf, ReadOnly (extentReadBlocks remain bs buf) := by
    intro remain bs
    induction bs with
    | nil => exact fun buf => ReadOnly.pure _
    | cons b bs ih =>
      intro buf
      unfold extentReadBlocks
      split
      · refine (readOnly_readBlock _).bind fun r => ?_
        split
        · exact .pure _
        · exact ih _
      · exact .pure _
  refine (readOnly_extentLoadAll _).bind fun r => ?_
  split
  · exact .pure _
  · exact hloop _ _ _

/-! ## Directories -/

theorem readOnly_dirFind (dir : Nat) (name : List UInt8) : ReadOnly (dirFind dir name) := by
  have hloop : ∀ bs, ReadOnly (dirFindBlocks name bs) := by
    intro bs
    induction bs with
    | nil => exact readOnly_fail _ _
    | cons b bs ih =>
      refine (readOnly_readBlock _).bind fun r => ?_
      split
      · exact readOnly_fail _ _
      split
      · exact .pure _
      · exact ih
  refine (readOnly_inodeRead _).bind fun r => ?_
  split
  · exact readOnly_fail _ _
  split
  · exact readOnly_fail _ _
  refine (readOnly_extentLoadAll _).bind fun r => ?_
  split
  · exact readOnly_fail _ _
  · exact hloop _

theorem readOnly_anySlot (p : Nat → Bool) (bs : List Nat) : ReadOnly (anySlot p bs) := by
  induction bs with
  | nil => exact .pure _
  | cons b bs ih =>
    refine (readOnly_readBlock _).bind fun r => ?_
    split
    · exact ih
    split
    · exact .pure _
    · exact ih

theorem readOnly_dirEmpty (dir : Nat) : ReadOnly (dirEmpty dir) := by
  refine (readOnly_inodeRead _).bind fun r => ?_
  split
  · exact .pure _
  refine (readOnly_extentLoadAll _).bind fun r => ?_
  split
  · exact .pure _
  · exact (readOnly_anySlot _ _).bind fun r => ReadOnly.pure _

theorem readOnly_findParent (inum : Nat) : ReadOnly (findParent inum) := by
  have hloop : ∀ is, ReadOnly (findParentLoop inum is) := by
    intro is
    induction is with
    | nil => exact .pure _
    | cons i is ih =>
      refine (readOnly_inodeRead _).bind fun r => ?_
      split
      · exact ih
      split
      · exact ih
      refine (readOnly_extentLoadAll _).bind fun r => ?_
      split
      · exact ih
      refine (readOnly_anySlot _ _).bind fun r => ?_
      split
      · exact .pure _
      · exact ih
  unfold findParent
  split
  · exact .pure _
  · exact ReadOnly.getState.bind fun g => hloop _

/-! ## Paths -/

theorem readOnly_resolveComponent (cur : Nat) (comp : List UInt8) :
    ReadOnly (resolveComponent cur comp) := by
  unfold resolveComponent
  split
  · refine (readOnly_findParent _).bind fun r => ?_
    split
    · exact readOnly_fail _ _
    · exact .pure _
  split
  · exact .pure _
  refine (readOnly_dirFind _ _).bind fun r => ?_
  split
  · exact readOnly_fail _ _
  refine (readOnly_inodeRead _).bind fun r => ?_
  split
  · exact readOnly_fail _ _
  split
  · exact readOnly_fail _ _
  · exact .pure _

theorem readOnly_resolveLoop (cur : Nat) (seg cs : List UInt8) :
    ReadOnly (resolveLoop cur seg cs) := by
  induction cs generalizing cur seg with
  | nil =>
    unfold resolveLoop resolveLast
    split
    · refine (readOnly_findParent _).bind fun r => ?_
      split
      · exact readOnly_fail _ _
      · exact .pure _
    · split <;> exact .pure _
  | cons c cs ih =>
    unfold resolveLoop
    split
    · split
      · exact ih _ _
      refine (readOnly_resolveComponent _ _).bind fun r => ?_
      split
      · exact .pure _
      · exact ih _ _
    · exact ih _ _

theorem readOnly_resolvePath (path : List UInt8) : ReadOnly (resolvePath path) := by
  refine ReadOnly.getState.bind fun g => ?_
  split
  · exact .pure _
  · split <;> exact readOnly_resolveLoop _ _ _

theorem readOnly_resolveNamed (path : List UInt8) : ReadOnly (resolveNamed path) := by
  refine ReadOnly.getState.bind fun g => ?_
  split
  · refine (readOnly_resolvePath _).bind fun r => ?_
    split
    · exact .pure _
    split
    · exact readOnly_fail _ _
    · exact .pure _
  · exact readOnly_fail _ _

/-! ## Public calls -/

theorem readOnly_onExisting {fail : α} {path : List UInt8}
    {k : Nat → List UInt8 → Nat → Inode → NvfsM α}
    (hk : ∀ parent name inum inode, ReadOnly (k parent name inum inode)) :
    ReadOnly (onExisting fail path k) := by
  refine (readOnly_resolveNamed _).bind fun r => ?_
  split
  · exact .pure _
  refine (readOnly_dirFind _ _).bind fun r => ?_
  split
  · exact .pure _
  refine (readOnly_inodeRead _).bind fun r => ?_
  split
  · exact readOnly_fail _ _
  · exact hk _ _ _ _

theorem readOnly_nvfsRead (path : List UInt8) (max : Nat) : ReadOnly (nvfsRead path max) := by
  refine readOnly_onExisting fun _ _ _ inode => ?_
  split
  · exact readOnly_fail _ _
  · exact readOnly_extentRead _ _

theorem readOnly_nvfsList (ci : Inode) (path : List UInt8) : ReadOnly (nvfsList ci path) := by
  have hslots : ∀ tmp es, ReadOnly (listSlots ci tmp es) := by
    intro tmp es
    induction es with
    | nil => exact .pure _
    | cons e es ih =>
      unfold listSlots
      split
      · exact ih
      refine (readOnly_inodeRead _).bind fun r => ?_
      split <;> exact (ReadOnly.report _).bind fun _ => ih
  have hblocks : ∀ bs, ReadOnly (listBlocks ci bs) := by
    intro bs
    induction bs with
    | nil => exact .pure _
    | cons b bs ih =>
      refine (readOnly_readBlock _).bind fun r => ?_
      split
      · exact .pure _
      · exact (hslots _ _).bind fun _ => ih
  have htarget : ReadOnly (listTarget path) := by
    refine ReadOnly.getState.bind fun g => ?_
    split
    · exact .pure _
    refine (readOnly_resolvePath _).bind fun r => ?_
    split
    · exact .pure _
    split
    · exact .pure _
    refine (readOnly_dirFind _ _).bind fun r => ?_
    split
    · exact .pure _
    refine (readOnly_inodeRead _).bind fun r => ?_
    split
    · exact .pure _
    · split <;> exact .pure _
  refine ReadOnly.getState.bind fun g => ?_
  split
  · refine htarget.bind fun r => ?_
    split
    · exact .pure _
    refine (readOnly_inodeRead _).bind fun r => ?_
    split
    · exact .pure _
    refine (readOnly_extentLoadAll _).bind fun r => ?_
    split
    · exact .pure _
    · exact hblocks _
  · exact readOnly_fail _ _

end Noverix.Nvfs
