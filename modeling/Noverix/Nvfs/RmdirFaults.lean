/-
  What `nvfs_rmdir` knows of a directory when sectors fail.

  `dir_empty` looks for an entry in every block of the directory and passes over
  the blocks it cannot read.  The programs below note the directory that is
  about to be removed and the blocks passed over; without the notes they are the
  programs of `Directory` and `Api`.
-/

import Noverix.Nvfs.Cwd
import Noverix.Nvfs.FaultCalls

namespace Noverix.Nvfs

open Lib
open Lib.DiskProg (wp exec must_of_forall)
open Lib.Noted (must must_bind must_mono)

/-- The directory `nvfs_rmdir` is about to remove, and the blocks of it that it could not read. -/
inductive RmdirNote
  | found (inum : Nat)
  | skipped (block : Nat)
deriving DecidableEq

/-- A driver function that takes such notes. -/
abbrev RmdirM (α : Type) := Noted Globals Sector Event RmdirNote α

def anySlotSkips (p : Nat → Bool) : List Nat → RmdirM Bool
  | [] => return false
  | b :: bs => do
    match ← lift (readBlock b) with
    | none =>
      note (.skipped b)
      anySlotSkips p bs
    | some tmp =>
      if (List.range direntsPerSec).any fun e => p (slotInode tmp e) then return true
      else anySlotSkips p bs

def dirEmptySkips (dirInode : Nat) : RmdirM Bool := do
  match ← lift (inodeRead dirInode) with
  | none => return false
  | some inode =>
    match ← lift (extentLoadAll inode) with
    | none => return false
    | some cache => return !(← anySlotSkips (· != 0) (extentBlocks cache))

def nvfsRmdirSkips (env : Env) (path : List UInt8) : RmdirM Bool := do
  match ← lift (resolveNamed path) with
  | none => return false
  | some (parent, name) =>
    match ← lift (dirFind parent name) with
    | none => return false
    | some inum =>
      match ← lift (inodeRead inum) with
      | none =>
        lift (setErrno .io)
        return false
      | some inode =>
        if inode.type ≠ nvfsTypeDir then
          lift (setErrno .notDir)
          return false
        else
          note (.found inum)
          if ← dirEmptySkips inum then
            lift (freeAndUnlink parent name inum (env.ticks 0))
          else
            lift (setErrno .dirBusy)
            return false

/-! ## Without the notes -/

section

theorem anySlotSkips_erase (p : Nat → Bool) (bs : List Nat) :
    (anySlotSkips p bs).erase = anySlot p bs := by
  induction bs with
  | nil => rfl
  | cons b bs ih =>
    unfold anySlotSkips anySlot
    refine erase_option ((erase_note_bind _ _).trans ih) fun tmp => ?_
    simp only
    split
    · rfl
    · exact ih

theorem dirEmptySkips_erase (i : Nat) : (dirEmptySkips i).erase = dirEmpty i := by
  unfold dirEmptySkips dirEmpty
  refine erase_option rfl fun inode => ?_
  refine erase_option rfl fun cache => ?_
  exact erase_bind_eq (anySlotSkips_erase _ _) fun _ => rfl

theorem nvfsRmdirSkips_erase (env : Env) (path : List UInt8) :
    (nvfsRmdirSkips env path).erase = nvfsRmdir env path := by
  unfold nvfsRmdirSkips nvfsRmdir onExisting
  refine erase_option rfl fun r => ?_
  refine erase_lifted fun r' => ?_
  cases r' with
  | none => rfl
  | some inum =>
    refine erase_lifted fun r'' => ?_
    cases r'' with
    | none => exact erase_lifted fun _ => rfl
    | some inode =>
      simp only
      split
      · exact erase_lifted fun _ => rfl
      rw [erase_note_bind]
      refine erase_bind_eq (dirEmptySkips_erase _) fun b => ?_
      cases b with
      | true => exact erase_lift _
      | false => exact erase_lifted fun _ => rfl

end

/-! ## What the scan has seen -/

section

variable {D : Device} {g : Globals} {d : Disk}

/-- The blocks passed over, as the notes tell them, are the only ones that can hold an entry. -/
def Evidence (V : Vol) (bs : List Nat) (m : List RmdirNote) : Prop :=
  ∃ skipped : List Nat, m = skipped.map .skipped ∧
    ((bs.flatMap fun b => sectorEntries (V.blk b)) = [] ↔
      ∀ b ∈ skipped, sectorEntries (V.blk b) = [])

variable {m : List RmdirNote} {V : Vol} {b : Nat} {bs : List Nat}

theorem Evidence.skip
    (h : Evidence V bs m) : Evidence V (b :: bs) (.skipped b :: m) := by
  obtain ⟨skipped, rfl, hiff⟩ := h
  refine ⟨b :: skipped, rfl, ?_⟩
  rw [flatMap_cons, append_eq_nil_iff, forall_mem_cons, hiff]

theorem Evidence.read
    (hb : sectorEntries (V.blk b) = []) (h : Evidence V bs m) : Evidence V (b :: bs) m := by
  obtain ⟨skipped, rfl, hiff⟩ := h
  refine ⟨skipped, rfl, ?_⟩
  rw [flatMap_cons, hb, nil_append, hiff]

theorem must_anySlotSkips (bs : List Nat) :
    must D (anySlotSkips (· != 0) bs)
      (fun r m _ _ => r = false → Evidence (rawView g d) bs m) g d := by
  induction bs with
  | nil => exact fun _ => ⟨[], rfl, by simp⟩
  | cons b bs ih =>
    unfold anySlotSkips
    rw [must_lifted]
    refine must_readBlock_raw (fun _ => ?_) ?_
    · simp only
      rw [must_bind, must_note]
      exact must_mono (fun _ _ _ _ h hr => (h hr).skip) ih
    · simp only
      split
      · exact nofun
      next hany =>
      have hb := sectorEntries_eq_nil (Bool.eq_false_iff.mpr hany)
      exact must_mono (fun _ _ _ _ h hr => (h hr).read hb) ih

theorem must_dirEmptySkips (i : Nat) :
    must D (dirEmptySkips i) (fun r m _ _ => r = true →
      Evidence (rawView g d) ((rawView g d).blocksOf ((rawView g d).ino i)) m) g d := by
  unfold dirEmptySkips
  rw [must_lifted]
  refine must_inodeRead_raw (fun _ => nofun) fun _ => ?_
  simp only
  rw [must_lifted]
  refine must_extentLoadAll_raw (fun _ => nofun) ?_
  simp only
  unfold Vol.blocksOf
  generalize extentBlocks _ = bs
  rw [must_bind]
  refine must_mono (fun a m _ _ h => ?_) (must_anySlotSkips bs)
  rw [Noted.must_pure, nil_append, nil_append, append_nil, Bool.not_eq_true']
  exact h

end

theorem must_nvfsRmdirSkips (D : Device) (g : Globals) (d : Disk) (env : Env)
    (path : List UInt8) :
    must D (nvfsRmdirSkips env path) (fun r m _ _ => r = true → ∃ i m', m = .found i :: m' ∧
      Evidence (rawView g d) ((rawView g d).blocksOf ((rawView g d).ino i)) m') g d := by
  unfold nvfsRmdirSkips
  rw [must_lifted]
  refine must_of_readOnly (readOnly_resolveNamed path) (R := fun _ => True)
    (must_of_forall fun _ _ _ => trivial) fun r _ => ?_
  cases r with
  | none => exact nofun
  | some r =>
    simp only
    rw [must_lifted]
    refine must_of_readOnly (readOnly_dirFind _ _) (R := fun _ => True)
      (must_of_forall fun _ _ _ => trivial) fun r' _ => ?_
    cases r' with
    | none => exact nofun
    | some i =>
      simp only
      rw [must_lifted]
      refine must_of_readOnly (readOnly_inodeRead i) (R := fun _ => True)
        (must_of_forall fun _ _ _ => trivial) fun r'' _ => ?_
      cases r'' with
      | none => exact nofun
      | some inode =>
        simp only
        split
        · exact nofun
        rw [must_bind, must_note, must_bind]
        -- the evidence is complete before anything is written
        refine must_mono (fun b m _ _ h => ?_) (must_dirEmptySkips i)
        cases b with
        | false => exact nofun
        | true =>
          simp only [if_true]
          rw [must_lift]
          exact must_of_forall fun _ _ _ _ => ⟨i, m, by simp, h rfl⟩

/-- If `nvfs_rmdir` returns 0, the directory had no entry exactly when none of the blocks it
    could not read held one. -/
theorem rmdir_empty_iff (env : Env) (path : List UInt8) (fl : Faults) (g : Globals) (d : Disk)
    (h : (exec fl (nvfsRmdir env path) g d).1 = true) :
    (nvfsRmdirSkips env path).erase = nvfsRmdir env path ∧
      ∃ (i : Nat) (skipped : List Nat), (exec fl (nvfsRmdirSkips env path).prog g d).1.2
          = .found i :: skipped.map .skipped ∧
        ((rawView g d).entries ((rawView g d).ino i) = [] ↔
          ∀ b ∈ skipped, sectorEntries ((rawView g d).blk b) = []) := by
  refine ⟨nvfsRmdirSkips_erase env path, ?_⟩
  rw [← nvfsRmdirSkips_erase, exec_erase] at h
  obtain ⟨i, m, hm, skipped, rfl, hiff⟩ :=
    must_sound fl.device_fits (must_nvfsRmdirSkips fl.device g d env path) h
  exact ⟨i, skipped, hm, hiff⟩

/-- The directory `/A` with block 1, in which there is no entry. -/
def clearedA : State :=
  ⟨emptyState.g, ((emptyState.d.setIno 0 (oneBlockDir 0)).setIno 1 (oneBlockDir 1)).setBlk 0
    (putSlot Sector.zero 0 (direntBytes [65] 1))⟩

/-- It is removed although its block cannot be read, and it was empty. -/
theorem rmdir_empty_iff_clearedA :
    (exec (failsAt 4 43) (nvfsRmdir idle rootedA.bytes) clearedA.g clearedA.d).1 = true ∧
      (exec (failsAt 4 43) (nvfsRmdirSkips idle rootedA.bytes).prog clearedA.g clearedA.d).1.2
        = [.found 1, .skipped 1] ∧
      (rawView clearedA.g clearedA.d).entries ((rawView clearedA.g clearedA.d).ino 1) = [] := by
  have hret : (exec (failsAt 4 43) (nvfsRmdir idle rootedA.bytes) clearedA.g clearedA.d).1
      = true := by decide +kernel
  have hnotes : (exec (failsAt 4 43) (nvfsRmdirSkips idle rootedA.bytes).prog clearedA.g
      clearedA.d).1.2 = [.found 1, .skipped 1] := by decide +kernel
  have hblock : sectorEntries ((rawView clearedA.g clearedA.d).blk 1) = [] := by decide +kernel
  obtain ⟨-, i, skipped, hm, hiff⟩ := rmdir_empty_iff idle rootedA.bytes _ _ _ hret
  rw [hnotes] at hm
  obtain ⟨hi, hskipped⟩ := List.cons.inj hm
  obtain rfl : 1 = i := RmdirNote.found.inj hi
  refine ⟨hret, hnotes, hiff.mpr fun b hb => ?_⟩
  have hmem : RmdirNote.skipped b ∈ [RmdirNote.skipped 1] := hskipped ▸ mem_map_of_mem hb
  rw [RmdirNote.skipped.inj (mem_singleton.mp hmem)]
  exact hblock

/-! ## A directory whose block cannot be read -/

/-- A disk of 32768 sectors on which every access may fail. -/
def flaky : Device := ⟨fun l => l < 32768, fun _ => True⟩

section

variable {s : State} {parent i : Nat} {path name : List UInt8} {Q : Bool → Globals → Disk → Prop}

theorem may_anySlot_skips (p : Nat → Bool) {g : Globals}
    {d : Disk} (h : Q false g d) (bs : List Nat) : may flaky (anySlot p bs) Q g d := by
  induction bs with
  | nil => exact h
  | cons b bs ih => exact .inl ⟨trivial, ih⟩

/-- If no block of a directory can be read, it counts as empty. -/
theorem may_dirEmpty (hs : WellFormed s) (hdir : (vol 32 s.d).tree.dir i)
    (h : Q true s.g s.d) :
    may flaky (dirEmpty i) Q s.g s.d := by
  unfold dirEmpty
  rw [may_bind]
  refine may_of_val (fun _ h => h) (fun _ _ => trivial) (readOnly_inodeRead i)
    (val_inodeRead hs.geometry (vol_dir_lt hdir)) ?_
  simp only
  rw [may_bind]
  refine may_of_val (fun _ h => h) (fun _ _ => trivial) (readOnly_extentLoadAll _)
    (val_extentLoadAll hs.geometry fun b hb =>
      hs.owned.dirData hdir b (mem_append_right _ hb)) ?_
  simp only
  rw [may_bind]
  exact may_anySlot_skips _ h _

theorem may_nvfsRmdir (hs : WellFormed s) (env : Env)
    (ht : target s.g s.d path = some (parent, name, i)) (hdir : (vol 32 s.d).tree.dir i) :
    may flaky (nvfsRmdir env path) (fun r _ _ => r = true) s.g s.d := by
  obtain ⟨hres, hfind, hn, -, hi⟩ := target_spec hs.geometry ht
  obtain ⟨hd, hlook⟩ := hs.coherent.target ht
  have htype : ((vol 32 s.d).ino i).type = nvfsTypeDir := hdir
  unfold nvfsRmdir onExisting
  rw [may_bind]
  refine may_of_val (fun _ h => h) (fun _ _ => trivial) (readOnly_resolveNamed path) hres ?_
  simp only
  rw [may_bind]
  refine may_of_val (fun _ h => h) (fun _ _ => trivial) (readOnly_dirFind _ _) hfind ?_
  simp only
  rw [may_bind]
  refine may_of_val (fun _ h => h) (fun _ _ => trivial) (readOnly_inodeRead i)
    (val_inodeRead hs.geometry hi) ?_
  simp only [htype, ne_eq, not_true_eq_false, ↓reduceIte]
  rw [may_bind]
  refine may_dirEmpty hs hdir ?_
  simp only [↓reduceIte]
  exact may_of_wp (fun _ h => h) (fun _ _ => trivial) (DiskProg.wp_mono (fun _ h => h)
    (fun _ _ _ h => h.1) (freeAndUnlink_unlinked hs.coherent hd hn hlook _))

theorem rmdir_removes (hs : WellFormed s) (path : Path)
    (ht : target s.g s.d path.bytes = some (parent, name, i)) (hdir : (vol 32 s.d).tree.dir i) :
    ∃ fl : Faults, Op.returns (.rmdir idle path) fl s = true := by
  have hfits : (Faults.none 32768).Fits flaky := ⟨fun _ _ _ => trivial, (none_fits _).ok⟩
  obtain ⟨fl, -, hret⟩ := Op.of_may (.rmdir idle path) s hfits (may_nvfsRmdir hs idle ht hdir)
  exact ⟨fl, hret⟩

end

/-- The driver makes `A`, goes there and makes another `A`. -/
def twoDeep : State := step (.mkdir idle pathA) (inA emptyState)

/-- A directory made in the current one, when that is `/A`, is an entry of `/A`. -/
theorem step_mkdir_inA {s : State} {k : Nat} (h : WellFormed s) (hnest : Nested k (vol 32 s.d))
    (hk : k < 127) (hempty : ((vol 32 s.d).ino s.g.nvfsCwd).extentCount = 0)
    (ht : target s.g s.d rootedA.bytes = some (nvfsRootInode, [65], s.g.nvfsCwd)) :
    WellFormed (step (.mkdir idle pathA) s) ∧ Nested (k + 1) (vol 32 (step (.mkdir idle pathA) s).d) ∧
      ∃ i, target (step (.mkdir idle pathA) s).g (step (.mkdir idle pathA) s).d rootedA.bytes
        = some (nvfsRootInode, [65], i) ∧
      (vol 32 (step (.mkdir idle pathA) s).d).tree.dir i ∧
      (vol 32 (step (.mkdir idle pathA) s).d).tree.kids i ≠ [] := by
  obtain ⟨hwf, -, hnest', i, n, -, -, hlinked⟩ := step_mkdir_nested simple_A h hnest hempty hk
  obtain ⟨hd, hmem⟩ := target_tree h ht
  have hne : nvfsRootInode ≠ s.g.nvfsCwd := by
    intro heq
    rw [kids_of_dir hd, heq, Vol.entries, blocksOf_of_count_zero hempty] at hmem
    cases hmem
  have hni : nvfsRootInode ≠ i := fun heq => hlinked.dead (heq ▸ live_of_dir hd)
  refine ⟨hwf, hnest', s.g.nvfsCwd, target_rootedA hwf ?_, hlinked.dir, ?_⟩
  · rw [hlinked.kids_of_ne _ hne hni]
    exact hmem
  · exact List.ne_nil_of_mem hlinked.mem_self

theorem twoDeep_spec : WellFormed twoDeep ∧ Nested 2 (vol 32 twoDeep.d) ∧ ∃ i,
    target twoDeep.g twoDeep.d rootedA.bytes = some (nvfsRootInode, [65], i) ∧
      (vol 32 twoDeep.d).tree.dir i ∧ (vol 32 twoDeep.d).tree.kids i ≠ [] := by
  obtain ⟨-, hnest, -⟩ := descend_spec (k := 1) (by decide)
  obtain ⟨hwf, hcount, ht⟩ := inA_spec wellFormed_emptyState nested_emptyState rfl
    (emptyState_vol.2.2.1 _)
  exact step_mkdir_inA hwf hnest (by decide) hcount ht

/-- In a tree with the directories `/A` and `/A/A`, removing `/A` succeeds when its block cannot
    be read. -/
theorem rmdir_removes_nonempty : WellFormed twoDeep ∧ ∃ i,
    target twoDeep.g twoDeep.d rootedA.bytes = some (nvfsRootInode, [65], i) ∧
      (vol 32 twoDeep.d).tree.kids i ≠ [] ∧
      ∃ fl : Faults, Op.returns (.rmdir idle rootedA) fl twoDeep = true := by
  obtain ⟨hwf, -, i, ht, hdir, hkids⟩ := twoDeep_spec
  exact ⟨hwf, i, ht, hkids, rmdir_removes hwf rootedA ht hdir⟩

end Noverix.Nvfs
