/-
  The current directory over whole runs.  `nvfs_cwd` is an inode number that
  the driver keeps outside the disk.  From the mount of any image of mknvfs.py,
  whatever names it was packed from, the number stays that of a directory in
  the tree until `nvfs_rmdir` succeeds on that very directory: the call does
  not compare its target with `nvfs_cwd`.
-/

import Noverix.Nvfs.Agreement
import Noverix.Nvfs.GrowthRuns

namespace Noverix.Nvfs

open Lib
open Lib.DiskProg (wp)

/-- The current directory is a directory in use that the root leads to. -/
def CwdLive (s : State) : Prop :=
  (vol 32 s.d).tree.dir s.g.nvfsCwd ∧
    Relation.ReflTransGen (vol 32 s.d).tree.Child nvfsRootInode s.g.nvfsCwd

variable {s : State}

theorem Coherent.cwdLive (h : Coherent s) : CwdLive s :=
  ⟨h.tree.cwd, h.tree.rooted.reach _ h.tree.cwd⟩

theorem Start.coherent (h : Start s) : Coherent s ∧ Solid (vol 32 s.d) := by
  obtain ⟨hg, hV, hsb⟩ := h.owned
  obtain ⟨upper, files, img, hcreate, hsize, hmount⟩ := h
  have hfit := Format.startOf_le_of_create hcreate hsize
  obtain ⟨-, hcarries⟩ := Format.carries_of_create hcreate hfit
  rw [hmount.1] at hV hsb
  have hcwd := (hmount.geometry hsb).2
  refine ⟨⟨hg, hmount.1 ▸ hV.of_anyInode, ?_⟩, ?_⟩
  · rw [hmount.1, hcwd]
    exact hcarries.treelike
  · rw [hmount.1]
    exact hcarries.solid

/-- When `nvfs_rmdir` succeeds on the current directory, that is no longer in use. -/
theorem not_cwdLive_of_removesCwd {op : Op} (h : Coherent s) (hrm : op.RemovesCwd s) :
    ¬ CwdLive (step op s) := by
  obtain ⟨g, d⟩ := s
  have hg : Geometry 32 g := h.geometry
  cases op with
  | rmdir env path =>
    obtain ⟨⟨parent, name, ht⟩, hnone⟩ := hrm
    have hdir : (vol 32 d).tree.dir g.nvfsCwd := h.tree.cwd
    have hempty := (dirEmpty_iff_kids h hdir).mpr hnone
    intro hlive
    have hgone : wp 32768 (fun _ => True) (nvfsRmdir env path.bytes)
        (fun _ g' d' => ¬ (vol 32 d').tree.dir g'.nvfsCwd) g d := by
      refine DiskProg.wp_mono (fun _ _ => trivial) ?_ (rmdir_unlinked h env ht hdir hempty)
      rintro r g' d' ⟨-, rfl, hun⟩ hd'
      exact hun.gone (live_of_dir hd')
    exact wp_sound hgone hlive.1
  | _ => exact hrm.elim

/-- In every run from an image in which no call grows the inode table, writes to a
    directory or removes the current directory, the current directory is in the
    tree; and of the calls that do the first two, exactly those lose it that
    remove it. -/
theorem cwd_live_iff {s₀ s : State} (h0 : Start s₀)
    (h : Reach step (fun op s => SlotAvailable 32 op s ∧ op.WritesFiles s ∧ ¬ op.RemovesCwd s)
      s₀ s) :
    CwdLive s ∧ ∀ op, SlotAvailable 32 op s → op.WritesFiles s →
      (CwdLive (step op s) ↔ ¬ op.RemovesCwd s) := by
  obtain ⟨hc, hsolid⟩ : Coherent s ∧ Solid (vol 32 s.d) := by
    refine h.invariant (fun t => Coherent t ∧ Solid (vol 32 t.d)) h0.coherent fun op t ht hok => ?_
    exact step_coherent ht.1 ht.2 hok.1 hok.2.1 hok.2.2
  refine ⟨hc.cwdLive, fun op hslot hfile => ⟨fun hlive hrm => ?_, fun hrm => ?_⟩⟩
  · exact not_cwdLive_of_removesCwd hc hrm hlive
  · exact (step_coherent hc hsolid hslot hfile hrm).1.cwdLive

/-! ## An example -/

/-- The path `/A`. -/
def rootedA : Path := ⟨[47, 65], by decide⟩

/-- The driver makes `A` and goes there. -/
def inA (s : State) : State := step (.chdir pathA) (step (.mkdir idle pathA) s)

section

variable {s : State}

theorem target_rootedA (h : WellFormed s) {i : Nat}
    (hmem : (nameKey [65], i) ∈ (vol 32 s.d).tree.kids nvfsRootInode) :
    target s.g s.d rootedA.bytes = some (nvfsRootInode, [65], i) := by
  refine (target_iff h).mpr ⟨?_, hmem⟩
  exact resolveNamed_of_resolvePath h.geometry (by decide : ([65] : List UInt8) ≠ [])
    (resolvePath_rooted (by simp [NulFree]) (by decide) (by decide) (by decide) (by decide))

theorem inA_spec (h : WellFormed s) (hnest : Nested 0 (vol 32 s.d)) (hcwd : s.g.nvfsCwd = 0)
    (hempty : ((vol 32 s.d).ino s.g.nvfsCwd).extentCount = 0) :
    WellFormed (inA s) ∧ ((vol 32 (inA s).d).ino (inA s).g.nvfsCwd).extentCount = 0 ∧
      target (inA s).g (inA s).d rootedA.bytes
        = some (nvfsRootInode, [65], (inA s).g.nvfsCwd) := by
  obtain ⟨hwf1, hg1, -, i, n, hnt, hcount, hlinked⟩ :=
    step_mkdir_nested simple_A h hnest hempty (by decide)
  have hmem := hlinked.mem_self
  obtain ⟨hwf, hcwd', hdisk⟩ := step_chdir_nested simple_A hwf1 (hlinked.dir_self hnt) (hg1 ▸ hmem)
  rw [hcwd] at hmem
  unfold inA
  refine ⟨hwf, ?_, target_rootedA hwf ?_⟩
  · rw [hcwd', hdisk, hlinked.ino]
    exact hcount
  · rw [hcwd', hdisk]
    exact hmem

theorem rmdir_removesCwd (h : WellFormed s)
    (hcount : ((vol 32 s.d).ino s.g.nvfsCwd).extentCount = 0)
    (ht : target s.g s.d rootedA.bytes = some (nvfsRootInode, [65], s.g.nvfsCwd)) :
    Op.RemovesCwd (.rmdir idle rootedA) s := by
  refine ⟨⟨_, _, ht⟩, ?_⟩
  rw [kids_of_dir h.tree.cwd, Vol.entries, blocksOf_of_count_zero hcount]
  rfl

theorem reach_inA (hslot : FreeSlot 32 (vol 32 s.d)) :
    Reach step (fun op s => SlotAvailable 32 op s ∧ op.WritesFiles s ∧ ¬ op.RemovesCwd s)
      s (inA s) := by
  refine .next _ (.next _ .start ⟨?_, ?_, ?_⟩) ⟨?_, ?_, ?_⟩
  · exact fun _ => hslot
  · exact fun _ h => h.elim
  · exact id
  · exact fun h => h.elim
  · exact fun _ h => h.elim
  · exact id

theorem cwd_ne_root (h : WellFormed s)
    (ht : target s.g s.d rootedA.bytes = some (nvfsRootInode, [65], s.g.nvfsCwd)) :
    s.g.nvfsCwd ≠ nvfsRootInode := by
  obtain ⟨g, d⟩ := s
  obtain ⟨hdir, hmem⟩ := target_tree h ht
  exact fun heq => h.tree.shaped.kid_ne_root nvfsRootInode ⟨hdir, _, heq ▸ hmem⟩

end

/-- The driver makes `A`, goes there and removes `/A`. -/
theorem rmdir_cwd_not_live : Start emptyState ∧
    Reach step (fun _ _ => True) emptyState (step (.rmdir idle rootedA) (inA emptyState)) ∧
    ¬ CwdLive (step (.rmdir idle rootedA) (inA emptyState)) := by
  obtain ⟨hwf, hcount, ht⟩ := inA_spec wellFormed_emptyState nested_emptyState rfl
    (emptyState_vol.2.2.1 _)
  have hreach : Reach step (fun _ _ => True) emptyState (inA emptyState) :=
    .next _ (.next _ .start trivial) trivial
  exact ⟨start_emptyState, .next _ hreach trivial,
    not_cwdLive_of_removesCwd hwf.coherent (rmdir_removesCwd hwf hcount ht)⟩

/-- In a run that makes `A` and goes there, the current directory is in the tree; it still is
    after another `nvfs_chdir`, and no longer after `nvfs_rmdir`. -/
theorem cwd_live_iff_inA : (inA emptyState).g.nvfsCwd ≠ nvfsRootInode ∧ CwdLive (inA emptyState) ∧
    CwdLive (step (.chdir rootedA) (inA emptyState)) ∧
    ¬ CwdLive (step (.rmdir idle rootedA) (inA emptyState)) := by
  obtain ⟨hwf, hcount, ht⟩ := inA_spec wellFormed_emptyState nested_emptyState rfl
    (emptyState_vol.2.2.1 _)
  obtain ⟨hlive, hiff⟩ := cwd_live_iff start_emptyState (reach_inA freeSlot_emptyState)
  refine ⟨cwd_ne_root hwf ht, hlive, ?_, fun hrm => ?_⟩
  · exact (hiff (.chdir rootedA) (fun h => h.elim) fun _ h => h.elim).mpr id
  · exact (hiff (.rmdir idle rootedA) (fun h => h.elim) fun _ h => h.elim).mp hrm
      (rmdir_removesCwd hwf hcount ht)

end Noverix.Nvfs
