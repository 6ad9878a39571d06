/-
  The size that `nvfs_write` records, against the blocks it records it with.

  `extent_write` computes the number of blocks by adding 511 to the size in 32
  bits.  For the last 511 sizes the sum wraps, and a file is recorded with its
  size and no blocks.  The programs below note the record that `nvfs_write` has
  stored for the file; without the notes they are the programs of `Api`.
-/

import Noverix.Lib.Faults
import Noverix.Nvfs.ReadBack

namespace Noverix.Nvfs

open Lib
open Lib.DiskProg (must exec wp must_bind must_of_forall must_mono)

/-- A driver function that notes the inodes it has stored, with their numbers. -/
abbrev SavedM (α : Type) := Noted Globals Sector Event (Nat × Inode) α

/-- `inode_write` of a file's record, noted if it succeeds. -/
def saveInode (inum : Nat) (inode : Inode) : SavedM Bool := do
  if ← lift (inodeWrite inum inode) then
    note (inum, inode)
    return true
  else
    return false

def shadowWriteSaved (inum : Nat) (inode : Inode) (data : Mem) (size ticks : Nat) :
    SavedM Bool := do
  match ← lift (extentLoadAll inode) with
  | none =>
    lift (setErrno .io)
    return false
  | some oldCache =>
    match ← lift (extentWrite inode data size) with
    | none =>
      lift (setErrno .noSpace)
      return false
    | some inode' =>
      if ← saveInode inum { inode' with mtime := nowSec ticks } then
        lift (freeOld oldCache (oldIndBlk inode))
        return true
      else
        lift (setErrno .io)
        return false

/-- What `nvfs_write` does when the record of a new file cannot be stored. -/
def giveUpFile (inum : Nat) (inode : Inode) : NvfsM Bool := do
  match ← extentLoadAll inode with
  | none => pure ()
  | some cache => bitmapClear (extentBlocks cache)
  if nvfsDirectExtents < inode.extentCount.toNat then
    let _ ← bitmapSet (inode.ext nvfsDirectExtents).start.toNat false
  let _ ← inodeFree inum
  setErrno .io
  return false

def createFileSaved (env : Env) (parent : Nat) (name : List UInt8) (data : Mem) (size : Nat) :
    SavedM Bool := do
  match ← lift (inodeAlloc nvfsTypeFile (env.ticks 0)) with
  | none => return false
  | some inum =>
    let t := nowSec (env.ticks 1)
    let inode : Inode :=
      { size := 0, type := nvfsTypeFile, ctime := ctimeOf t, extentCount := 0,
        extents := env.stack, mtime := t }
    match ← lift (extentWrite inode data size) with
    | none =>
      let _ ← lift (inodeFree inum)
      lift (setErrno .noSpace)
      return false
    | some inode' =>
      if ← saveInode inum inode' then
        lift (enterNew parent name inum (env.ticks 2))
      else
        lift (giveUpFile inum inode')

def nvfsWriteSaved (env : Env) (path : List UInt8) (data : Mem) (size : Nat) : SavedM Bool := do
  match ← lift (resolveNamed path) with
  | none => return false
  | some (parent, name) =>
    match ← lift (dirFind parent name) with
    | some inum =>
      match ← lift (inodeRead inum) with
      | none =>
        lift (setErrno .io)
        return false
      | some inode => shadowWriteSaved inum inode data size (env.ticks 0)
    | none => createFileSaved env parent name data size

/-! ## Without the notes -/

section

theorem saveInode_erase (inum : Nat) (inode : Inode) :
    (saveInode inum inode).erase = inodeWrite inum inode := by
  have hpure : inodeWrite inum inode = (inodeWrite inum inode).bind .ret :=
    (DiskProg.bind_ret _).symm
  rw [hpure]
  unfold saveInode
  refine erase_lifted fun b => ?_
  cases b with
  | false => rfl
  | true => exact erase_note_bind _ _

theorem shadowWriteSaved_erase (inum : Nat) (inode : Inode) (data : Mem) (size ticks : Nat) :
    (shadowWriteSaved inum inode data size ticks).erase
      = shadowWrite inum inode data size ticks := by
  unfold shadowWriteSaved shadowWrite
  refine erase_option (erase_lifted fun _ => rfl) fun cache => ?_
  refine erase_lifted fun r => ?_
  cases r with
  | none => exact erase_lifted fun _ => rfl
  | some inode' =>
    refine erase_bind_eq (saveInode_erase _ _) fun b => ?_
    cases b with
    | false => exact erase_lifted fun _ => rfl
    | true => exact erase_lifted fun _ => rfl

theorem createFileSaved_erase (env : Env) (parent : Nat) (name : List UInt8) (data : Mem)
    (size : Nat) : (createFileSaved env parent name data size).erase
      = createFile env parent name data size := by
  unfold createFileSaved createFile
  refine erase_option rfl fun inum => ?_
  refine erase_lifted fun r => ?_
  cases r with
  | none =>
    refine erase_lifted fun _ => ?_
    exact erase_lifted fun _ => rfl
  | some inode' =>
    refine erase_bind_eq (saveInode_erase _ _) fun b => ?_
    cases b with
    | true => exact erase_lift _
    | false => exact erase_lift _

theorem nvfsWriteSaved_erase (env : Env) (path : List UInt8) (data : Mem) (size : Nat) :
    (nvfsWriteSaved env path data size).erase = nvfsWrite env path data size := by
  unfold nvfsWriteSaved nvfsWrite
  refine erase_option rfl fun r => ?_
  refine erase_option (createFileSaved_erase _ _ _ _ _) fun inum => ?_
  refine erase_option (erase_lifted fun _ => rfl) fun inode => ?_
  exact shadowWriteSaved_erase _ _ _ _ _

end

/-! ## What is recorded -/

/-- The blocks that the direct extents of an inode hold. -/
def Inode.blocksHeld (n : Inode) : Nat :=
  ((List.range n.extentCount.toNat).map fun k => (n.ext k).count.toNat).sum

/-- The inode has the size `size`, and the blocks that `extent_write` computes for it. -/
structure Recorded (size : Nat) (n : Inode) : Prop where
  length : n.size = UInt32.ofNat size
  direct : n.extentCount.toNat ≤ 1
  blocks : n.blocksHeld = blocksFor size

section

variable {D : Device} {g : Globals} {d : Disk}

theorem Recorded.stamp {size : Nat} {n : Inode} (h : Recorded size n) (t : UInt32) :
    Recorded size { n with mtime := t } := ⟨h.length, h.direct, h.blocks⟩

/-- `extent_write` returns an inode with the size asked for and the blocks it computed, wherever
    these are. -/
theorem must_extentWrite_recorded (n : Inode) (data : Mem) (size : Nat) :
    must D (extentWrite n data size) (fun r _ _ => ∀ n', r = some n' → Recorded size n') g d := by
  have hneeded : blocksFor size < 2 ^ 32 := by
    show (size + 512 - 1) % 2 ^ 32 / 512 < 2 ^ 32
    omega
  unfold extentWrite
  split
  · next hzero =>
    rintro _ ⟨⟩
    rw [hzero]
    have hnone : blocksFor 0 = 0 := by decide
    exact ⟨rfl, Nat.zero_le 1, hnone.symm⟩
  rw [must_bind]
  refine must_of_forall fun r g d => ?_
  cases r with
  | none => exact fun n' h => by cases h
  | some start =>
    simp only
    rw [must_bind]
    refine must_of_forall fun j g d => ?_
    split
    · rw [must_bind]
      exact must_of_forall fun _ _ _ n' h => by cases h
    rintro _ ⟨⟩
    refine ⟨rfl, le_rfl, ?_⟩
    show (UInt32.ofNat (blocksFor size)).toNat + 0 = blocksFor size
    rw [Nat.add_zero, toNat_ofNat_of_lt' hneeded]

theorem must_saveInode (inum : Nat) (inode : Inode) :
    (saveInode inum inode).must D
      (fun r m _ _ => r = true ∧ m = [(inum, inode)] ∨ r = false ∧ m = []) g d := by
  unfold saveInode
  rw [must_lifted]
  refine must_of_forall fun b g d => ?_
  cases b with
  | false => exact .inr ⟨rfl, rfl⟩
  | true => exact .inl ⟨rfl, rfl⟩

/-- What a call that returns success has stored. -/
def SavedOne (size : Nat) (r : Bool) (m : List (Nat × Inode)) : Prop :=
  r = true → ∃ inum n, m = [(inum, n)] ∧ Recorded size n

theorem must_shadowWriteSaved (inum : Nat) (inode : Inode) (data : Mem) (size ticks : Nat) :
    (shadowWriteSaved inum inode data size ticks).must D
    (fun r m _ _ => SavedOne size r m) g d := by
  unfold shadowWriteSaved
  rw [must_lifted]
  refine must_of_forall fun r g d => ?_
  cases r with
  | none => exact fun h => by cases h
  | some cache =>
    simp only
    rw [must_lifted]
    refine must_mono (fun r g d hr => ?_) (must_extentWrite_recorded inode data size)
    cases r with
    | none => exact fun h => by cases h
    | some inode' =>
      simp only
      rw [Noted.must_bind]
      refine Noted.must_mono (fun b m g d hb => ?_) (must_saveInode _ _)
      rcases hb with ⟨rfl, rfl⟩ | ⟨rfl, rfl⟩
      · rw [if_pos rfl, must_lifted]
        refine must_of_forall fun _ g d _ => ?_
        exact ⟨inum, _, rfl, (hr inode' rfl).stamp _⟩
      · exact fun h => by cases h

theorem must_giveUpFile (inum : Nat) (inode : Inode) :
    must D (giveUpFile inum inode) (fun r _ _ => r = false) g d := by
  have hend : ∀ g d, must D (do
      let _ ← inodeFree inum
      setErrno .io
      return false : NvfsM Bool) (fun r _ _ => r = false) g d := by
    intro g d
    rw [must_bind]
    exact must_of_forall fun _ _ _ => rfl
  have hind : ∀ g d, must D (do
      if nvfsDirectExtents < inode.extentCount.toNat then
        let _ ← bitmapSet (inode.ext nvfsDirectExtents).start.toNat false
      let _ ← inodeFree inum
      setErrno .io
      return false : NvfsM Bool) (fun r _ _ => r = false) g d := by
    intro g d
    split
    · rw [must_bind]
      exact must_of_forall fun _ g d => hend g d
    · exact hend g d
  unfold giveUpFile
  rw [must_bind]
  refine must_of_forall fun r g d => ?_
  cases r with
  | none => exact hind g d
  | some cache =>
    rw [must_bind]
    exact must_of_forall fun _ g d => hind g d

theorem must_createFileSaved (env : Env) (parent : Nat) (name : List UInt8) (data : Mem)
    (size : Nat) : (createFileSaved env parent name data size).must D
      (fun r m _ _ => SavedOne size r m) g d := by
  unfold createFileSaved
  rw [must_lifted]
  refine must_of_forall fun r g d => ?_
  cases r with
  | none => exact fun h => by cases h
  | some inum =>
    simp only
    rw [must_lifted]
    refine must_mono (fun r g d hr => ?_) (must_extentWrite_recorded _ data size)
    cases r with
    | none =>
      simp only [must_lifted]
      refine must_of_forall fun _ g d => ?_
      exact fun h => by cases h
    | some inode' =>
      simp only
      rw [Noted.must_bind]
      refine Noted.must_mono (fun b m g d hb => ?_) (must_saveInode _ _)
      rcases hb with ⟨rfl, rfl⟩ | ⟨rfl, rfl⟩
      · rw [if_pos rfl, must_lift]
        exact must_of_forall fun _ _ _ _ => ⟨inum, inode', rfl, hr inode' rfl⟩
      rw [if_neg Bool.false_ne_true, must_lift]
      refine must_mono (fun r _ _ hr htrue => ?_) (must_giveUpFile inum inode')
      exact absurd (hr.symm.trans htrue) Bool.false_ne_true

theorem must_nvfsWriteSaved (env : Env) (path : List UInt8) (data : Mem) (size : Nat) :
    (nvfsWriteSaved env path data size).must D (fun r m _ _ => SavedOne size r m) g d := by
  unfold nvfsWriteSaved
  rw [must_lifted]
  refine must_of_forall fun r g d => ?_
  cases r with
  | none => exact fun h => by cases h
  | some r =>
    simp only
    rw [must_lifted]
    refine must_of_forall fun r g d => ?_
    cases r with
    | none => exact must_createFileSaved env _ _ data size
    | some inum =>
      simp only
      rw [must_lifted]
      refine must_of_forall fun r g d => ?_
      cases r with
      | none => exact fun h => by cases h
      | some inode => exact must_shadowWriteSaved inum inode data size _

theorem inodeWrite_stored (fl : Faults) (g : Globals) (d : Disk) (inum : Nat) (n : Inode)
    (h : (exec fl (inodeWrite inum n) g d).1 = true) :
    Inode.load ((exec fl (inodeWrite inum n) g d).2.2 (inodeSector g inum)).byte
      (inodeOffset inum) = n := by
  have hoff : inodeOffset inum + 128 ≤ 512 := by
    show u32 (inum * 128) % 512 + 128 ≤ 512
    unfold u32
    omega
  have hmust : must fl.device (inodeWrite inum n) (fun r g' d' => r = true →
      Inode.load (d' (inodeSector g inum)).byte (inodeOffset inum) = n) g d := by
    unfold inodeWrite
    rw [must_bind, must_getState]
    split
    · exact fun h => by cases h
    unfold readSector writeSector
    rw [must_bind, must_readSec]
    refine ⟨fun _ h => (by cases h), fun _ => ?_⟩
    simp only
    rw [must_writeSec]
    refine ⟨fun _ h => (by cases h), fun _ _ => ?_⟩
    rw [update_self, load_congr fun k _ hk => byte_ofMem (by omega),
      load_store_same]
  exact must_sound fl.device_fits hmust h

end

/-- The blocks computed are enough for the size exactly if the sum does not wrap. -/
theorem blocksFor_covers_iff {size : Nat} (h : size < 2 ^ 32) :
    (size + 511) / 512 ≤ blocksFor size ↔ size ≤ 2 ^ 32 - 512 := by
  show (size + 511) / 512 ≤ (size + 512 - 1) % 2 ^ 32 / 512 ↔ _
  omega

/-- For every state of the driver and its disk, every pattern of sector failures and every size:
    a call of `nvfs_write` that returns success has stored one record for the file (what
    `inode_write` stores is what reads back), with the size and with at least as many blocks as
    the size needs exactly if the size is at most `2 ^ 32 - 512`. -/
theorem write_size_backed_iff (env : Env) (path : List UInt8) (data : Mem) (size : UInt32)
    (fl : Faults) (g : Globals) (d : Disk)
    (hok : (exec fl (nvfsWrite env path data size.toNat) g d).1 = true) :
    (nvfsWriteSaved env path data size.toNat).erase = nvfsWrite env path data size.toNat ∧
    (∀ inum n fl g d, (exec fl (inodeWrite inum n) g d).1 = true →
      Inode.load ((exec fl (inodeWrite inum n) g d).2.2 (inodeSector g inum)).byte
        (inodeOffset inum) = n) ∧
    ∃ inum n, (exec fl (nvfsWriteSaved env path data size.toNat).prog g d).1.2 = [(inum, n)] ∧
      n.size = size ∧ n.extentCount.toNat ≤ nvfsDirectExtents ∧
      ((size.toNat + 511) / 512 ≤ n.blocksHeld ↔ size.toNat ≤ 2 ^ 32 - 512) := by
  refine ⟨nvfsWriteSaved_erase env path data size.toNat,
    fun inum n fl g d => inodeWrite_stored fl g d inum n, ?_⟩
  have hsaved := must_sound fl.device_fits
    (must_nvfsWriteSaved (D := fl.device) (g := g) (d := d) env path data size.toNat)
  rw [← nvfsWriteSaved_erase, exec_erase] at hok
  obtain ⟨inum, n, hm, hlength, hdirect, hblocks⟩ := hsaved hok
  refine ⟨inum, n, hm, ?_, Nat.le_trans hdirect (by decide), ?_⟩
  · rw [hlength, UInt32.ofNat_toNat]
  · rw [hblocks]
    exact blocksFor_covers_iff size.toNat_lt

/-- Five bytes have their block. -/
theorem write_size_backed_iff_fiveBytes : ∃ inum n,
    (exec (Faults.none 32768) (nvfsWriteSaved idle pathA.bytes fiveBytes (5 : UInt32).toNat).prog
      emptyState.g emptyState.d).1.2 = [(inum, n)] ∧ n.size = 5 ∧ 1 ≤ n.blocksHeld := by
  have hok : (exec (Faults.none 32768) (nvfsWrite idle pathA.bytes fiveBytes (5 : UInt32).toNat)
      emptyState.g emptyState.d).1 = true := by
    have hsucc := oneFile_succeeds
    rw [Succeeds, Op.prog, val] at hsucc
    rw [exec_none, hsucc]
  obtain ⟨-, -, inum, n, hm, hsize, -, hiff⟩ := write_size_backed_iff idle pathA.bytes fiveBytes 5
    (Faults.none 32768) emptyState.g emptyState.d hok
  exact ⟨inum, n, hm, hsize, hiff.mpr (by decide)⟩

/-! ## A file of four gigabytes -/

theorem saved_of_succeeds {s : State} {env : Env} {p : Path} {data : Mem} {size : UInt32}
    (h : Succeeds (.write env p data size) s) : ∃ inum n,
    (exec (Faults.none 32768) (nvfsWriteSaved env p.bytes data size.toNat).prog s.g s.d).1.2
      = [(inum, n)] ∧ Recorded size.toNat n := by
  have hsaved := must_sound (Faults.none 32768).device_fits
    (must_nvfsWriteSaved (g := s.g) (d := s.d) env p.bytes data size.toNat)
  rw [Succeeds, Op.prog, val, ← exec_none, ← nvfsWriteSaved_erase, exec_erase] at h
  exact hsaved h

/-- Writing `0xFFFFFFFF` bytes to a new file returns success, and records them with no block. -/
theorem write_records_no_blocks :
    Succeeds (.write idle pathA fiveBytes 0xFFFFFFFF) emptyState ∧ ∃ inum n,
      (exec (Faults.none 32768)
        (nvfsWriteSaved idle pathA.bytes fiveBytes (0xFFFFFFFF : UInt32).toNat).prog emptyState.g
        emptyState.d).1.2 = [(inum, n)] ∧ n.size = 0xFFFFFFFF ∧ n.blocksHeld = 0 := by
  have hwrap : blocksFor (0xFFFFFFFF : UInt32).toNat = 0 := by decide
  have hok : Succeeds (.write idle pathA fiveBytes 0xFFFFFFFF) emptyState := by
    unfold Succeeds
    decide +kernel
  obtain ⟨inum, n, hm, hlength, -, hblocks⟩ := saved_of_succeeds hok
  exact ⟨hok, inum, n, hm, hlength, hblocks.trans hwrap⟩

end Noverix.Nvfs
