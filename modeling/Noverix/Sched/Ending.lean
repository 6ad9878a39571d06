/-
  What the end of a task gives back (free_task_resources of kernel/elf.c, and the
  end of task_kill in kernel/task.c): the frames of its directory, if that is its
  own, and those of its kernel stack.
-/

import Noverix.Sched.OneCpu
import Noverix.Memory.Release

namespace Noverix.Sched

open Lib Memory

section

variable {k k' : Kernel} {t u : Tid} {st : Nat}

/-- The frames that the kernel frees with a task. -/
def Kernel.ownFrames (k : Kernel) (t : Tid) : Set Nat :=
  {f | ((k.tasks t).pageDir ≠ 0 ∧ (k.tasks t).pageDir ≠ k.vm.kernelDir ∧
      f ∈ k.vm.dirFrames (k.tasks t).pageDir) ∨
    ((k.tasks t).kernelStackBase ≤ f * 4096 ∧
      f * 4096 < (k.tasks t).kernelStackBase + taskStackSize)}

/-- A task's directory and stack, as they are kept in it. -/
structure HasStack (k : Kernel) (t : Tid) (st : Nat) : Prop where
  aligned : (k.tasks t).pageDir % 4096 = 0
  small : (k.tasks t).pageDir < 2 ^ 32
  stack : (k.tasks t).kernelStackBase = st * 4096
  pos : 0 < st
  fits : st + 4 ≤ k.vm.pfa.totalFrames
  total : k.vm.pfa.totalFrames ≤ 2 ^ 18

theorem HasStack.congr (h : HasStack k t st) (hvm : k'.vm.pfa.totalFrames = k.vm.pfa.totalFrames)
    (hpd : (k'.tasks u).pageDir = (k.tasks t).pageDir)
    (hst : (k'.tasks u).kernelStackBase = (k.tasks t).kernelStackBase) : HasStack k' u st :=
  ⟨hpd ▸ h.aligned, hpd ▸ h.small, hst.trans h.stack, h.pos, hvm ▸ h.fits, hvm ▸ h.total⟩

theorem HasStack.mem_iff (h : HasStack k t st) (f : Nat) :
    ((k.tasks t).kernelStackBase ≤ f * 4096 ∧
      f * 4096 < (k.tasks t).kernelStackBase + taskStackSize) ↔ st ≤ f ∧ f < st + 4 := by
  rw [h.stack, show taskStackSize = 4 * 4096 by decide]
  omega

theorem ownFrames_congr (hmem : k'.vm.mem = k.vm.mem) (hkernel : k'.vm.kernelDir = k.vm.kernelDir)
    (hpd : (k'.tasks t).pageDir = (k.tasks t).pageDir)
    (hst : (k'.tasks t).kernelStackBase = (k.tasks t).kernelStackBase) :
    k'.ownFrames t = k.ownFrames t := by
  unfold Kernel.ownFrames Vm.dirFrames
  rw [hmem, hkernel, hpd, hst]

theorem releaseDir_stack (k : Kernel) (t u : Tid) (dir : Nat) :
    ((k.releaseDir t dir).tasks u).kernelStackBase = (k.tasks u).kernelStackBase := by
  unfold Kernel.releaseDir
  split
  · have hfield := @Kernel.setTask_field k t (fun task => { task with pageDir := dir }) Nat
      Task.kernelStackBase rfl u
    simp only
    exact hfield
  · rfl

theorem releaseDir_gives (h : HasStack k t st) (dir : Nat) :
    k.vm.Gives {f | (k.tasks t).pageDir ≠ 0 ∧ (k.tasks t).pageDir ≠ k.vm.kernelDir ∧
      f ∈ k.vm.dirFrames (k.tasks t).pageDir} (k.releaseDir t dir).vm := by
  unfold Kernel.releaseDir
  split
  · next hown =>
    refine (k.vm.gives_freeDir h.aligned h.small).congr fun f => ?_
    exact ⟨fun hf => hf.2.2, fun hf => ⟨hown.1, hown.2, hf⟩⟩
  next hshared =>
  exact Vm.gives_none fun f hf => hshared ⟨hf.1, hf.2.1⟩

theorem HasStack.release (h : HasStack k t st) (dir : Nat) :
    k.vm.Gives (k.ownFrames t) ((k.releaseDir t dir).releaseStack t).vm := by
  have hdir := releaseDir_gives h dir
  have hstack : ((k.releaseDir t dir).tasks t).kernelStackBase = st * 4096 :=
    (releaseDir_stack k t t dir).trans h.stack
  have hpos := h.pos
  have hgone : ((k.releaseDir t dir).releaseStack t).vm
      = (k.releaseDir t dir).vm.freeFrames (st * 4096) (taskStackSize / 4096) := by
    unfold Kernel.releaseStack
    rw [hstack, if_pos (by omega)]
  rw [hgone, show taskStackSize / 4096 = 4 by decide]
  refine (hdir.trans (Vm.gives_freeFrames _ (by decide) ?_ ?_)).congr fun f => ?_
  · rw [hdir.pfa.total]
    exact h.fits
  · rw [hdir.pfa.total]
    exact h.total
  · exact or_congr_right (h.mem_iff f)

theorem release_tasks (k : Kernel) (dir : Nat) (hu : u ≠ t) :
    ((k.releaseDir t dir).releaseStack t).tasks u = k.tasks u := by
  have hother : ∀ (k : Kernel) (f : Task → Task), (k.setTask t f).tasks u = k.tasks u :=
    fun k f => setTask_of_ne hu
  have hdir : (k.releaseDir t dir).tasks u = k.tasks u := by
    unfold Kernel.releaseDir
    split
    · simp only [hother]
    · rfl
  rw [← hdir]
  generalize k.releaseDir t dir = k1
  unfold Kernel.releaseStack
  split
  · simp only [hother]
  · rfl

theorem release_cr3 (k : Kernel) (t : Tid) (dir : Nat) :
    ((k.releaseDir t dir).releaseStack t).cr3 = k.cr3 := by
  have hdir : (k.releaseDir t dir).cr3 = k.cr3 := by
    unfold Kernel.releaseDir
    split <;> rfl
  rw [← hdir]
  unfold Kernel.releaseStack
  split <;> rfl

theorem unlink_field {α : Type*} (g : Task → α) (hg : ∀ task next, g { task with next } = g task)
    (h : k.unlink t = some k') : k'.vm = k.vm ∧ ∀ u, g (k'.tasks u) = g (k.tasks u) := by
  have hlink : ∀ p v u, g ((k.setTask p fun task => { task with next := v }).tasks u)
      = g (k.tasks u) := fun p v u => Kernel.setTask_field g (hg (k.tasks p) v) u
  unfold Kernel.unlink at h
  split at h
  · rw [← some.inj h]
    exact ⟨rfl, fun _ => rfl⟩
  obtain ⟨p, -, rfl⟩ := map_eq_some_iff.mp h
  simp only
  split
  · exact ⟨rfl, hlink p _⟩
  · exact ⟨rfl, hlink p _⟩

theorem unlink_cpus (h : k.unlink t = some k') : k'.current = k.current ∧ k'.cr3 = k.cr3 := by
  unfold Kernel.unlink at h
  split at h
  · rw [← some.inj h]
    exact ⟨rfl, rfl⟩
  obtain ⟨p, -, rfl⟩ := map_eq_some_iff.mp h
  simp only
  split <;> exact ⟨rfl, rfl⟩

/-- `task_kill` of a task: what it frees, and what it leaves. -/
structure Killed (k : Kernel) (t : Tid) (k' : Kernel) : Prop where
  gives : ∀ st, HasStack k t st → k.vm.Gives (k.ownFrames t) k'.vm
  pageDir : ∀ u, u ≠ t → (k'.tasks u).pageDir = (k.tasks u).pageDir
  stack : ∀ u, u ≠ t → (k'.tasks u).kernelStackBase = (k.tasks u).kernelStackBase
  current : k'.current = k.current
  cr3 : k'.cr3 = k.cr3

theorem killed_of_unlink (h : k.unlink t = some k') :
    Killed k t (((k'.setTask t fun task =>
      { task with state := .free, cpuAssigned := none }).releaseDir t 0).releaseStack t) := by
  obtain ⟨hvm, hpd⟩ := unlink_field Task.pageDir (fun _ _ => rfl) h
  obtain ⟨-, hst⟩ := unlink_field Task.kernelStackBase (fun _ _ => rfl) h
  obtain ⟨hcurrent, hcr3⟩ := unlink_cpus h
  obtain ⟨k1, hk1⟩ : ∃ k1, (k'.setTask t fun task =>
      { task with state := .free, cpuAssigned := none }) = k1 := ⟨_, rfl⟩
  have hpd1 : ∀ u, (k1.tasks u).pageDir = (k.tasks u).pageDir := by
    intro u
    rw [← hk1, Kernel.setTask_field Task.pageDir rfl]
    exact hpd u
  have hst1 : ∀ u, (k1.tasks u).kernelStackBase = (k.tasks u).kernelStackBase := by
    intro u
    rw [← hk1, Kernel.setTask_field Task.kernelStackBase rfl]
    exact hst u
  have hvm1 : k1.vm = k.vm := hk1 ▸ hvm
  rw [hk1]
  refine ⟨fun st hstack => ?_, fun u hu => ?_, fun u hu => ?_, ?_, ?_⟩
  · have hgives := (hstack.congr (congrArg (·.pfa.totalFrames) hvm1) (hpd1 t) (hst1 t)).release 0
    rw [ownFrames_congr (congrArg Vm.mem hvm1) (congrArg Vm.kernelDir hvm1) (hpd1 t) (hst1 t),
      hvm1] at hgives
    exact hgives
  · rw [release_tasks k1 0 hu]
    exact hpd1 u
  · rw [release_tasks k1 0 hu]
    exact hst1 u
  · have hsame := (sameSched_releaseDir k1 t 0).trans (sameSched_releaseStack _ t)
    rw [hsame.current, ← hk1]
    exact hcurrent
  · rw [release_cr3, ← hk1]
    exact hcr3

/-- `SYS_EXIT` frees the directory and the stack of the task, and leaves it where it is in the
    ring. -/
theorem sysExit_ends {cpu : Cpu} {esp : UInt32} (hcurr : k.current cpu ≠ 0)
    (h : k.sysExit cpu = some (esp, k')) :
    k'.vm = (k.freeTaskResources (k.current cpu)).vm ∧ k'.next = k.next ∧
      k'.readyHead = k.readyHead := by
  have hsame := sameSched_freeTaskResources k (k.current cpu)
  have hnext : ((k.freeTaskResources (k.current cpu)).setTask (k.current cpu) fun task =>
      { task with state := .free, cpuAssigned := none }).next = k.next :=
    (Kernel.next_setTask_same rfl).trans hsame.next
  unfold Kernel.sysExit at h
  rw [if_neg hcurr] at h
  simp only at h
  split at h
  · cases h
  split at h
  · rw [← (Prod.mk.inj (some.inj h)).2]
    exact ⟨rfl, hnext, hsame.head⟩
  rw [← (Prod.mk.inj (some.inj h)).2]
  exact ⟨rfl, (Kernel.next_dispatch ..).trans hnext, hsame.head⟩

end

end Noverix.Sched
