/-
  Block ownership over whole runs: from the mount of any image of mknvfs.py,
  through any sequence of calls that find a free inode slot when they need
  one, the blocks of live inodes stay marked and are referred to once.
-/

import Noverix.Nvfs.Image

namespace Noverix.Nvfs

open Lib

/-! ## Where runs start -/

/-- The driver has just mounted the disk `d`, the only drive, from whatever its
    variables were. -/
def MountedOn (d : Disk) (s : State) : Prop :=
  s.d = d ∧ ∃ g ch dr, ch < 2 ∧ dr < 2 ∧ nvfsMount (onlyDrive ch dr d) g = (true, s.g)

/-- The driver has just mounted an image of mknvfs.py that fills the disk. -/
def Start (s : State) : Prop :=
  ∃ upper files img, Format.create upper files = some img ∧ img.size = 32768 * 512 ∧
    MountedOn (Format.imageDisk img) s

theorem MountedOn.geometry {d : Disk} {s : State} (h : MountedOn d s)
    (hsb : IsSuperblock 32 (d 1)) : Geometry 32 s.g ∧ s.g.nvfsCwd = 0 := by
  obtain ⟨-, g, ch, dr, hch, hdr, hmount⟩ := h
  rw [nvfsMount_onlyDrive hsb g hch hdr] at hmount
  rw [← (Prod.mk.inj hmount).2]
  exact ⟨hsb.geometry g ch dr, rfl⟩

/-- A run starts on a volume where every inode, live or not, owns its blocks. -/
theorem Start.owned {s : State} (h : Start s) :
    Geometry 32 s.g ∧ Owned anyInode 32 (vol 32 s.d) ∧ IsSuperblock 32 (s.d 1) := by
  obtain ⟨upper, files, img, hcreate, hsize, hmount⟩ := h
  obtain ⟨bitmap, inodes, run, himg⟩ := Format.isImage_of_create hcreate hsize
  have hg := (hmount.geometry himg.isSuperblock).1
  rw [hmount.1]
  exact ⟨hg, himg.owned, himg.isSuperblock⟩

theorem Owned.of_anyInode {P : Inode → Bool} {ib : Nat} {V : Vol} (h : Owned anyInode ib V) :
    Owned P ib V := by
  have hsub : ∀ i, ∀ b ∈ V.holds P i, b ∈ V.holds anyInode i := by
    intro i b hb
    unfold Vol.holds at hb ⊢
    split at hb
    · exact hb
    · cases hb
  refine ⟨fun i b hb => h.inData i b (hsub i b hb), fun i b hb => h.marked i b (hsub i b hb), ?_,
    fun i j hij b hb hb' => h.disjoint i j hij b (hsub i b hb) (hsub j b hb'), h.table⟩
  intro i
  unfold Vol.holds
  split
  · exact h.nodup i
  · exact nodup_nil

/-! ## Runs -/

/-- In every state of a run, a live inode's blocks (those of its extents and its
    indirect block) are marked, and no block is referred to twice. -/
theorem reach_owned {s₀ s : State} (h0 : Start s₀)
    (h : Reach step (SlotAvailable 32) s₀ s) : Owned Inode.live 32 (vol 32 s.d) := by
  -- `nvfs_write` replaces whatever inode the entry names, so the invariant is
  -- about all inodes, also those whose type says they are free
  have hinv : Geometry 32 s.g ∧ Owned anyInode 32 (vol 32 s.d) := by
    refine h.invariant (fun s => Geometry 32 s.g ∧ Owned anyInode 32 (vol 32 s.d))
      ⟨h0.owned.1, h0.owned.2.1⟩ ?_
    rintro op s ⟨hg, hV⟩ hslot
    obtain ⟨hg', hkept⟩ := step_kept counts_anyInode hg hV hslot fun _ _ => rfl
    exact ⟨hg', hkept.owned⟩
  exact hinv.2.of_anyInode

/-- The driver after it mounted an image without files. -/
def emptyState : State where
  g := mountedGlobals bootGlobals 0 0 (Format.imageDisk Format.emptyImage 1)
  d := Format.imageDisk Format.emptyImage

theorem start_emptyState : Start emptyState := by
  refine ⟨id, [], Format.emptyImage, rfl, Format.emptyImage_spec.1, rfl, bootGlobals, 0, 0,
    by decide, by decide, ?_⟩
  exact nvfsMount_onlyDrive Format.isImage_empty.isSuperblock _ (by decide) (by decide)

theorem emptyState_vol :
    (∀ b, (vol 32 emptyState.d).bit b = false) ∧
      ((vol 32 emptyState.d).ino 0).type = nvfsTypeDir ∧
      (∀ i, ((vol 32 emptyState.d).ino i).extentCount = 0) ∧
      ∀ i ≠ 0, ((vol 32 emptyState.d).ino i).type = 0 := Format.emptyImage_vol

theorem freeSlot_emptyState : FreeSlot 32 (vol 32 emptyState.d) :=
  ⟨1, by decide, by decide, emptyState_vol.2.2.2 1 (by decide)⟩

/-- The path `A`. -/
def pathA : Path := ⟨[65], by decide⟩

/-- A call made at time zero with no heap. -/
def idle : Env := ⟨fun _ => 0, fun _ => ⟨0, 0⟩, none⟩

/-- Making a directory on the empty volume. -/
theorem reach_owned_mkdir :
    Start emptyState ∧
      Reach step (SlotAvailable 32) emptyState (step (.mkdir idle pathA) emptyState) ∧
      Owned Inode.live 32 (vol 32 (step (.mkdir idle pathA) emptyState).d) := by
  have hreach : Reach step (SlotAvailable 32) emptyState (step (.mkdir idle pathA) emptyState) :=
    Reach.next _ Reach.start fun _ => freeSlot_emptyState
  exact ⟨start_emptyState, hreach, reach_owned start_emptyState hreach⟩

end Noverix.Nvfs
