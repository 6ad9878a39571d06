/-
  The memory that the CPUs run on.

  A CPU that switches tasks gives up the lock before it has left the old task: it
  loads the directory of the new one into CR3 (page_dir_switch), and the stub in
  kernel/cpu/interrupt.S loads its stack pointer into ESP.  Here the section under
  the lock and the two loads are steps of their own, and the steps of all CPUs
  interleave.
-/

import Noverix.Sched.Ending

namespace Noverix.Sched

open Lib Memory

/-! ## The sections and the loads -/

namespace Kernel

/-- `task_switch_from` up to where it releases the lock, and whether it switches. -/
def switchLocked (k : Kernel) (cpu : Cpu) (currentEsp : UInt32) (newState : TaskState)
    (wakeupTick : UInt32) : Option (Bool × Kernel) :=
  let curr := k.current cpu
  if curr = 0 then some (false, k)
  else
    let k := k.suspend cpu currentEsp newState wakeupTick
    match k.pickNextLocked cpu with
    | none => none
    | some next =>
      if next = 0 ∨ next = curr then some (false, k.resume cpu)
      else some (true, k.claim cpu next)

/-- `SYS_EXIT` up to where it releases the lock. -/
def exitLocked (k : Kernel) (cpu : Cpu) : Option Kernel :=
  let curr := k.current cpu
  let k := k.freeTaskResources curr
  let k := k.setTask curr fun task => { task with state := .free, cpuAssigned := none }
  let found := if k.readyHead = 0 then some 0 else k.firstOf (k.exitPickable curr)
  match found with
  | none => none
  | some next =>
    if next = 0 then some { k with current := Function.update k.current cpu 0 }
    else some (k.claim cpu next)

/-- `gdt_set_kernel_stack` and `page_dir_switch` for the task that is now the CPU's, or for none. -/
def loadDir (k : Kernel) (cpu : Cpu) : Kernel :=
  if k.current cpu = 0 then { k with cr3 := Function.update k.cr3 cpu k.vm.kernelDir }
  else k.switchTo cpu (k.current cpu)

/-- The section and the loads make up `task_switch_from`. -/
theorem taskSwitchFrom_eq (k : Kernel) (cpu : Cpu) (esp : UInt32) (st : TaskState) (wake : UInt32) :
    k.taskSwitchFrom cpu esp st wake = (k.switchLocked cpu esp st wake).map fun r =>
      if r.1 then ((r.2.tasks (r.2.current cpu)).kernelEsp, r.2.loadDir cpu) else (0, r.2) := by
  unfold taskSwitchFrom switchLocked
  by_cases hcurr : k.current cpu = 0
  · rw [if_pos hcurr, if_pos hcurr]
    rfl
  rw [if_neg hcurr, if_neg hcurr]
  cases hpick : (k.suspend cpu esp st wake).pickNextLocked cpu with
  | none => simp only [hpick, map_none]
  | some next =>
    simp only [hpick]
    split
    · rfl
    next hgo =>
    have hcurrent : ((k.suspend cpu esp st wake).claim cpu next).current cpu = next :=
      update_self ..
    have hesp : (((k.suspend cpu esp st wake).claim cpu next).tasks next).kernelEsp
        = ((k.suspend cpu esp st wake).tasks next).kernelEsp :=
      setTask_field Task.kernelEsp rfl next
    have hload : ((k.suspend cpu esp st wake).claim cpu next).loadDir cpu
        = (k.suspend cpu esp st wake).dispatch cpu next := by
      unfold loadDir
      rw [hcurrent, if_neg (not_or.mp hgo).1]
      rfl
    rw [map_some, if_pos rfl]
    simp only [hcurrent, hesp, hload]

/-- The section and the loads make up `SYS_EXIT`. -/
theorem sysExit_eq (k : Kernel) {cpu : Cpu} (hcurr : k.current cpu ≠ 0) :
    k.sysExit cpu = (k.exitLocked cpu).map fun k' =>
      (if k'.current cpu = 0 then 0 else (k'.tasks (k'.current cpu)).kernelEsp, k'.loadDir cpu) := by
  unfold sysExit exitLocked
  rw [if_neg hcurr]
  simp only
  generalize ((k.freeTaskResources (k.current cpu)).setTask (k.current cpu) fun task =>
    { task with state := .free, cpuAssigned := none }) = k2
  generalize (if k2.readyHead = 0 then some 0 else k2.firstOf (k2.exitPickable (k.current cpu)))
    = found
  cases found with
  | none => rfl
  | some next =>
    simp only
    by_cases hnext : next = 0
    · have hcurrent : update k2.current cpu 0 cpu = 0 := update_self ..
      rw [if_pos hnext, if_pos hnext, map_some]
      simp only [hcurrent, loadDir, if_true]
    have hcurrent : (k2.claim cpu next).current cpu = next := update_self ..
    have hesp : ((k2.claim cpu next).tasks next).kernelEsp = (k2.tasks next).kernelEsp :=
      setTask_field Task.kernelEsp rfl next
    have hload : (k2.claim cpu next).loadDir cpu = k2.dispatch cpu next := by
      unfold loadDir
      rw [hcurrent, if_neg hnext]
      rfl
    rw [if_neg hnext, if_neg hnext, map_some]
    simp only [hcurrent, if_neg hnext, hesp, hload]

end Kernel

/-! ## The CPUs -/

/-- What a CPU has yet to load. -/
inductive Load where
  | done
  | dir
  | stack
deriving DecidableEq

/-- The kernel, and for each CPU the stack it executes on, 0 if that is no task's, and what it has
    yet to load. -/
structure Cores where
  k : Kernel
  stack : Cpu → Nat
  left : Cpu → Load

/-- The steps of the CPUs. -/
inductive CoreOp where
  | switch (cpu : Cpu) (esp : UInt32) (st : TaskState) (wake : UInt32)
  | exit (cpu : Cpu)
  | kill (cpu : Cpu) (pid : UInt32)
  | loadDir (cpu : Cpu)
  /-- `mov %eax, %esp`. -/
  | loadStack (cpu : Cpu)

def coreStep : CoreOp → Cores → Cores
  | .switch cpu esp st wake, s =>
    match s.k.switchLocked cpu esp st wake with
    -- CR3 and ESP are still those of the task that is left
    | some (true, k) => { s with k, left := Function.update s.left cpu .dir }
    | some (false, k) => { s with k }
    | none => s
  | .exit cpu, s =>
    -- the stack and the directory are free already, and still in use
    match s.k.exitLocked cpu with
    | some k => { s with k, left := Function.update s.left cpu .dir }
    | none => s
  | .kill _ pid, s => { s with k := ((s.k.taskKill pid).map Prod.snd).getD s.k }
  | .loadDir cpu, s =>
    { s with k := s.k.loadDir cpu, left := Function.update s.left cpu .stack }
  | .loadStack cpu, s =>
    { s with
      stack := Function.update s.stack cpu
        (if s.k.current cpu = 0 then 0 else (s.k.tasks (s.k.current cpu)).kernelStackBase)
      left := Function.update s.left cpu .done }

/-- A CPU takes the steps in their order; a task runs on it when it makes a system call. -/
def CoreAllowed : CoreOp → Cores → Prop
  | .switch cpu _ _ _, s => s.left cpu = .done
  | .exit cpu, s => s.left cpu = .done ∧ s.k.current cpu ≠ 0
  | .kill cpu _, s => s.left cpu = .done ∧ s.k.current cpu ≠ 0
  | .loadDir cpu, s => s.left cpu = .dir
  | .loadStack cpu, s => s.left cpu = .stack

/-- The frames of the stacks the CPUs execute on, and of the directories in CR3, are allocated. -/
def InUseHeld (s : Cores) : Prop :=
  ∀ cpu, (s.stack cpu ≠ 0 → ∀ f, s.stack cpu ≤ f * 4096 →
      f * 4096 < s.stack cpu + taskStackSize → s.k.vm.pfa.testBit f = true) ∧
    s.k.vm.pfa.testBit (s.k.cr3 cpu / 4096) = true

/-- The step is no exit, and kills no task whose stack a CPU still executes on. -/
def LeavesInUse : CoreOp → Cores → Prop
  | .exit _, _ => False
  | .kill _ pid, s =>
    ∀ t, s.k.victim pid = some t → ∀ cpu, s.stack cpu ≠ (s.k.tasks t).kernelStackBase
  | _, _ => True

/-! ## Who owns what -/

section

variable {k k' : Kernel} {l l' : List Tid} {t u : Tid} {G : Set Nat}

/-- Each task of the ring has a stack, and a directory unless it uses the kernel's.  Their frames
    are allocated, and no two tasks share one. -/
structure Owned (k : Kernel) (l : List Tid) : Prop where
  stack : ∀ t ∈ l, ∃ st, HasStack k t st
  dir : ∀ t ∈ l, (k.tasks t).pageDir ≠ 0
  held : ∀ t ∈ l, ∀ f ∈ k.ownFrames t, f < k.vm.pfa.totalFrames ∧ k.vm.pfa.testBit f = true
  apart : ∀ t ∈ l, ∀ u ∈ l, t ≠ u → ∀ f ∈ k.ownFrames t, f ∉ k.ownFrames u
  kernel_held : k.vm.kernelDir / 4096 < k.vm.pfa.totalFrames ∧
    k.vm.pfa.testBit (k.vm.kernelDir / 4096) = true
  kernel_apart : ∀ t ∈ l, k.vm.kernelDir / 4096 ∉ k.ownFrames t

theorem Owned.gives (h : Owned k l) (hl : ∀ t ∈ l', t ∈ l) (hgives : k.vm.Gives G k'.vm)
    (hpd : ∀ t ∈ l', (k'.tasks t).pageDir = (k.tasks t).pageDir)
    (hst : ∀ t ∈ l', (k'.tasks t).kernelStackBase = (k.tasks t).kernelStackBase)
    (hG : ∀ t ∈ l', ∀ f ∈ k.ownFrames t, f ∉ G) (hkernel : k.vm.kernelDir / 4096 ∉ G) :
    Owned k' l' := by
  have hframes : ∀ t ∈ l', k'.ownFrames t = k.ownFrames t := fun t ht =>
    ownFrames_congr hgives.mem hgives.kernelDir (hpd t ht) (hst t ht)
  refine ⟨fun t ht => ?_, fun t ht => ?_, fun t ht f hf => ?_, fun t ht u hu hne f hf => ?_, ?_,
    fun t ht => ?_⟩
  · obtain ⟨st, hstack⟩ := h.stack t (hl t ht)
    exact ⟨st, hstack.congr hgives.pfa.total (hpd t ht) (hst t ht)⟩
  · rw [hpd t ht]
    exact h.dir t (hl t ht)
  · rw [hframes t ht] at hf
    obtain ⟨hlt, hbit⟩ := h.held t (hl t ht) f hf
    exact ⟨hgives.pfa.total ▸ hlt, (hgives.pfa.bits f hlt).mpr ⟨hbit, hG t ht f hf⟩⟩
  · rw [hframes t ht] at hf
    rw [hframes u hu]
    exact h.apart t (hl t ht) u (hl u hu) hne f hf
  · obtain ⟨hlt, hbit⟩ := h.kernel_held
    rw [hgives.kernelDir]
    exact ⟨hgives.pfa.total ▸ hlt, (hgives.pfa.bits _ hlt).mpr ⟨hbit, hkernel⟩⟩
  · rw [hgives.kernelDir, hframes t ht]
    exact h.kernel_apart t (hl t ht)

theorem Owned.congr (h : Owned k l) (hvm : k'.vm = k.vm)
    (hpd : ∀ t, (k'.tasks t).pageDir = (k.tasks t).pageDir)
    (hst : ∀ t, (k'.tasks t).kernelStackBase = (k.tasks t).kernelStackBase) : Owned k' l := by
  have hgives : k.vm.Gives ∅ k'.vm := hvm ▸ Vm.gives_none fun f => notMem_empty f
  exact h.gives (fun _ ht => ht) hgives (fun t _ => hpd t) (fun t _ => hst t)
    (fun _ _ f _ => notMem_empty f) (notMem_empty _)

end

/-! ## The invariant -/

structure CoresInv (s : Cores) (l : List Tid) : Prop where
  oneCpu : OneCpu s.k l
  owned : Owned s.k l
  /-- A CPU executes on the stack of a task of the ring, or on none. -/
  stack : ∀ cpu, s.stack cpu = 0 ∨ ∃ u ∈ l, s.stack cpu = (s.k.tasks u).kernelStackBase
  settled : ∀ cpu, s.left cpu = .done → s.k.current cpu ≠ 0 →
    s.stack cpu = (s.k.tasks (s.k.current cpu)).kernelStackBase
  /-- Its directory is the kernel's, that of its task, or that of the task whose stack it is on. -/
  dir : ∀ cpu, s.k.cr3 cpu = s.k.vm.kernelDir ∨ ∃ u ∈ l, s.k.cr3 cpu = (s.k.tasks u).pageDir ∧
    (u = s.k.current cpu ∨ (s.left cpu = .dir ∧ s.stack cpu = (s.k.tasks u).kernelStackBase))

section

variable {s : Cores} {k' : Kernel} {l : List Tid} {t u : Tid} {cpu : Cpu} {st : Nat}

theorem CoresInv.inUseHeld (h : CoresInv s l) : InUseHeld s := by
  intro cpu
  refine ⟨fun hne f hlo hhi => ?_, ?_⟩
  · obtain ⟨u, hu, hstack⟩ := (h.stack cpu).resolve_left hne
    rw [hstack] at hlo hhi
    exact (h.owned.held u hu f (.inr ⟨hlo, hhi⟩)).2
  · rcases h.dir cpu with hkernel | ⟨u, hu, hdir, -⟩
    · rw [hkernel]
      exact h.owned.kernel_held.2
    rw [hdir]
    by_cases hshared : (s.k.tasks u).pageDir = s.k.vm.kernelDir
    · rw [hshared]
      exact h.owned.kernel_held.2
    obtain ⟨st, hstack⟩ := h.owned.stack u hu
    have hnull := h.owned.dir u hu
    have haligned := hstack.aligned
    have hframe : (s.k.tasks u).pageDir / 4096 ∈ s.k.vm.dirFrames (s.k.tasks u).pageDir :=
      .inl ⟨by omega, by omega⟩
    exact (h.owned.held u hu _ (.inl ⟨hnull, hshared, hframe⟩)).2

variable {k : Kernel}

theorem not_inUseHeld (s : Cores) (cpu : Cpu) (hstack : HasStack k t st)
    (hgives : k.vm.Gives (k.ownFrames t) s.k.vm)
    (hon : s.stack cpu = (k.tasks t).kernelStackBase) : ¬ InUseHeld s := by
  intro hheld
  have hpos := hstack.pos
  have hfits := hstack.fits
  have hin := (hstack.mem_iff st).mpr ⟨le_rfl, by omega⟩
  have hne : s.stack cpu ≠ 0 := by
    rw [hon, hstack.stack]
    omega
  have hbit := (hheld cpu).1 hne st (hon ▸ hin.1) (hon ▸ hin.2)
  exact ((hgives.pfa.bits st (by omega)).mp hbit).2 (.inr hin)

/-- The section of `task_switch_from` ends, and changes neither memory nor directories nor stacks. -/
theorem switchLocked_spec (h : OneCpu k l) (cpu : Cpu) (esp : UInt32) (st : TaskState)
    (wake : UInt32) :
    ∃ b k', k.switchLocked cpu esp st wake = some (b, k') ∧ OneCpu k' l ∧ k'.vm = k.vm ∧
      k'.cr3 = k.cr3 ∧ (∀ t, (k'.tasks t).pageDir = (k.tasks t).pageDir) ∧
      (∀ t, (k'.tasks t).kernelStackBase = (k.tasks t).kernelStackBase) ∧
      (b = false ∧ k'.current = k.current ∨ b = true ∧ k.current cpu ≠ 0 ∧
        ∀ c ≠ cpu, k'.current c = k.current c) := by
  by_cases hcurr : k.current cpu = 0
  · refine ⟨false, k, ?_, h, rfl, rfl, fun _ => rfl, fun _ => rfl, .inl ⟨rfl, rfl⟩⟩
    unfold Kernel.switchLocked
    exact if_pos hcurr
  obtain ⟨n, hpick, hn⟩ := suspend_pickNextLocked h hcurr esp st wake
  have hsusp : Others (k.suspend cpu esp st wake) l cpu := (h.others cpu).setTask rfl
  have hfields : ∀ {α : Type} (g : Task → α), (∀ task f, g (Task.runOn f task) = g task) →
      (∀ task e w s c, g { task with kernelEsp := e, wakeupTick := w, state := s, cpuAssigned := c }
        = g task) →
      ∀ n t, g (((k.suspend cpu esp st wake).setTask n (Task.runOn cpu)).tasks t)
        = g (k.tasks t) := by
    intro α g hrun hstore n t
    rw [Kernel.setTask_field g (hrun ..)]
    exact Kernel.setTask_field g (hstore ..) t
  unfold Kernel.switchLocked
  rw [if_neg hcurr]
  simp only [hpick]
  by_cases hgo : n = 0 ∨ n = k.current cpu
  · rw [if_pos hgo]
    refine ⟨false, _, rfl, hsusp.resume (h.current cpu hcurr).1, rfl, rfl, ?_, ?_, .inl ⟨rfl, rfl⟩⟩
    · exact hfields Task.pageDir (fun _ _ => rfl) (fun _ _ _ _ _ => rfl) _
    · exact hfields Task.kernelStackBase (fun _ _ => rfl) (fun _ _ _ _ _ => rfl) _
  rw [if_neg hgo]
  obtain ⟨hn0, hnc⟩ := not_or.mp hgo
  obtain ⟨hmem, hne, hready, -⟩ := (hn.resolve_left hn0).resolve_left hnc
  have hstate : ((k.suspend cpu esp st wake).tasks n).state ≠ .running := by
    rw [show (k.suspend cpu esp st wake).tasks n = k.tasks n from setTask_of_ne hne, hready]
    decide
  have hone : OneCpu ((k.suspend cpu esp st wake).claim cpu n) l :=
    (hsusp.dispatch hmem hstate).of_fields rfl rfl rfl
  refine ⟨true, _, rfl, hone, rfl, rfl, ?_, ?_, .inr ⟨rfl, hcurr, fun c hc => ?_⟩⟩
  · exact hfields Task.pageDir (fun _ _ => rfl) (fun _ _ _ _ _ => rfl) _
  · exact hfields Task.kernelStackBase (fun _ _ => rfl) (fun _ _ _ _ _ => rfl) _
  · exact update_of_ne hc ..

theorem CoresInv.switch (h : CoresInv s l) (hdone : s.left cpu = .done) (esp : UInt32)
    (st : TaskState) (wake : UInt32) : CoresInv (coreStep (.switch cpu esp st wake) s) l := by
  obtain ⟨b, k', heq, hone, hvm, hcr3, hpd, hst, hcases⟩ :=
    switchLocked_spec h.oneCpu cpu esp st wake
  have howned := h.owned.congr hvm hpd hst
  have hstack : ∀ c, s.stack c = 0 ∨ ∃ u ∈ l, s.stack c = (k'.tasks u).kernelStackBase := by
    intro c
    simp only [hst]
    exact h.stack c
  unfold coreStep
  simp only [heq]
  rcases hcases with ⟨rfl, hcurrent⟩ | ⟨rfl, hcurr, hothers⟩
  · refine ⟨hone, howned, hstack, fun c hc hne => ?_, fun c => ?_⟩
    · simp only [hst, hcurrent] at hne ⊢
      exact h.settled c hc hne
    · simp only [hst, hpd, hcurrent, hcr3, hvm]
      exact h.dir c
  refine ⟨hone, howned, hstack, fun c hc hne => ?_, fun c => ?_⟩
  · have hother : c ≠ cpu := by
      rintro rfl
      simp only [update_self] at hc
      exact Load.noConfusion hc
    simp only [update_of_ne hother, hothers c hother, hst] at hc hne ⊢
    exact h.settled c hc hne
  · simp only [hst, hpd, hcr3, hvm]
    by_cases hother : c = cpu
    · -- the CPU is still on the stack and in the space of the task it leaves
      subst hother
      refine (h.dir c).imp_right fun ⟨u, hu, hdir, huse⟩ => ⟨u, hu, hdir, .inr ?_⟩
      rw [update_self]
      rcases huse with rfl | ⟨hleft, -⟩
      · exact ⟨rfl, h.settled c hdone hcurr⟩
      · exact absurd (hdone.symm.trans hleft) Load.noConfusion
    rw [hothers c hother, update_of_ne hother]
    exact h.dir c

theorem CoresInv.loadDir (h : CoresInv s l) (cpu : Cpu) :
    CoresInv (coreStep (.loadDir cpu) s) l := by
  have hvm : (s.k.loadDir cpu).vm = s.k.vm := by
    unfold Kernel.loadDir
    split <;> rfl
  have htasks : (s.k.loadDir cpu).tasks = s.k.tasks := by
    unfold Kernel.loadDir
    split <;> rfl
  have hcurrent : (s.k.loadDir cpu).current = s.k.current := by
    unfold Kernel.loadDir
    split <;> rfl
  have hhead : (s.k.loadDir cpu).readyHead = s.k.readyHead := by
    unfold Kernel.loadDir
    split <;> rfl
  have hcr3 : ∀ c ≠ cpu, (s.k.loadDir cpu).cr3 c = s.k.cr3 c := by
    intro c hc
    unfold Kernel.loadDir
    split <;> exact update_of_ne hc ..
  unfold coreStep
  refine ⟨h.oneCpu.of_fields htasks hhead hcurrent,
    h.owned.congr hvm (fun t => by rw [htasks]) (fun t => by rw [htasks]), ?_, fun c hc hne => ?_,
    fun c => ?_⟩
  · simp only [htasks]
    exact h.stack
  · have hother : c ≠ cpu := by
      rintro rfl
      simp only [update_self] at hc
      exact Load.noConfusion hc
    simp only [update_of_ne hother, hcurrent, htasks] at hc hne ⊢
    exact h.settled c hc hne
  · simp only [htasks, hcurrent, hvm]
    by_cases hother : c = cpu
    · subst hother
      by_cases hcurr : s.k.current c = 0
      · refine .inl ?_
        unfold Kernel.loadDir
        rw [if_pos hcurr]
        exact update_self ..
      refine .inr ⟨s.k.current c, (h.oneCpu.current c hcurr).1, ?_, .inl rfl⟩
      unfold Kernel.loadDir
      rw [if_neg hcurr]
      exact update_self ..
    rw [hcr3 c hother, update_of_ne hother]
    exact h.dir c

theorem CoresInv.loadStack (h : CoresInv s l) (hleft : s.left cpu = .stack) :
    CoresInv (coreStep (.loadStack cpu) s) l := by
  unfold coreStep
  refine ⟨h.oneCpu, h.owned, fun c => ?_, fun c hc hne => ?_, fun c => ?_⟩
  · by_cases hother : c = cpu
    · subst hother
      simp only [update_self]
      split
      · exact .inl rfl
      · next hcurr => exact .inr ⟨_, (h.oneCpu.current c hcurr).1, rfl⟩
    simp only [update_of_ne hother]
    exact h.stack c
  · by_cases hother : c = cpu
    · subst hother
      simp only [update_self]
      exact if_neg hne
    simp only [update_of_ne hother] at hc ⊢
    exact h.settled c hc hne
  · by_cases hother : c = cpu
    · -- its directory is already that of its task
      subst hother
      refine (h.dir c).imp_right fun ⟨u, hu, hdir, huse⟩ => ⟨u, hu, hdir, .inl ?_⟩
      exact huse.resolve_right fun hold => Load.noConfusion (hleft.symm.trans hold.1)
    simp only [update_of_ne hother]
    exact h.dir c

/-- `task_kill`: the memory in use stays held exactly if no CPU is still on the stack of the task. -/
theorem CoresInv.kill (h : CoresInv s l) (cpu : Cpu) (pid : UInt32) :
    (LeavesInUse (.kill cpu pid) s → ∃ l', CoresInv (coreStep (.kill cpu pid) s) l') ∧
      (InUseHeld (coreStep (.kill cpu pid) s) → LeavesInUse (.kill cpu pid) s) := by
  show (_ → ∃ l', CoresInv { s with k := ((s.k.taskKill pid).map Prod.snd).getD s.k } l') ∧
    (InUseHeld { s with k := ((s.k.taskKill pid).map Prod.snd).getD s.k } → _)
  rcases taskKill_spec h.oneCpu pid with
    ⟨hnone, r, heq⟩ | ⟨t, r, k1, hvictim, hstate, hperm, htr, hunlink, hone1, heq⟩
  · rw [heq]
    refine ⟨fun _ => ⟨l, h⟩, fun _ t ht => ?_⟩
    rw [hnone] at ht
    exact absurd ht.symm (some_ne_none t)
  have hkilled := killed_of_unlink hunlink
  have hone : OneCpu _ r := ((hone1.setTask_outside htr fun task =>
    { task with state := .free, cpuAssigned := none }).congr (sameSched_releaseDir _ t 0)).congr
      (sameSched_releaseStack _ t)
  rw [heq]
  simp only [map_some, getD_some]
  generalize (((k1.setTask t fun task => { task with state := .free, cpuAssigned := none }).releaseDir
    t 0).releaseStack t) = k' at hkilled hone ⊢
  have ht : t ∈ l := hperm.mem_iff.mp mem_cons_self
  obtain ⟨st, hstack⟩ := h.owned.stack t ht
  have hgives := hkilled.gives st hstack
  have hl : ∀ u ∈ r, u ∈ l := fun u hu => hperm.mem_iff.mp (mem_cons_of_mem t hu)
  have hne : ∀ u ∈ r, u ≠ t := by
    rintro u hu rfl
    exact htr hu
  have hr : ∀ u ∈ l, u ≠ t → u ∈ r := fun u hu hut =>
    (mem_cons.mp (hperm.mem_iff.mpr hu)).resolve_left hut
  have hrunning : ∀ c, s.k.current c ≠ 0 → s.k.current c ≠ t := by
    intro c hcurr heq
    exact hstate (heq ▸ (h.oneCpu.current c hcurr).2.1)
  refine ⟨fun hleave => ⟨r, hone, ?_, fun c => ?_, fun c hc hcurr => ?_, fun c => ?_⟩,
    fun hheld t' ht' c hon => ?_⟩
  · refine h.owned.gives hl hgives (fun u hu => hkilled.pageDir u (hne u hu))
      (fun u hu => hkilled.stack u (hne u hu)) (fun u hu f hf hft => ?_) (h.owned.kernel_apart t ht)
    exact h.owned.apart u (hl u hu) t ht (hne u hu) f hf hft
  · refine (h.stack c).imp_right fun ⟨u, hu, huse⟩ => ?_
    have hut : u ≠ t := by
      rintro rfl
      exact hleave u hvictim c huse
    exact ⟨u, hr u hu hut, huse.trans (hkilled.stack u hut).symm⟩
  · simp only [hkilled.current] at hcurr ⊢
    rw [hkilled.stack _ (hrunning c hcurr)]
    exact h.settled c hc hcurr
  · simp only [hkilled.cr3, hkilled.current, hgives.kernelDir]
    refine (h.dir c).imp_right fun ⟨u, hu, hdir, huse⟩ => ?_
    have hut : u ≠ t := by
      rcases huse with hcurr | ⟨-, hon⟩
      · have hc0 : s.k.current c ≠ 0 := fun h0 => h.oneCpu.null (h0 ▸ hcurr ▸ hu)
        exact hcurr ▸ hrunning c hc0
      rintro rfl
      exact hleave u hvictim c hon
    refine ⟨u, hr u hu hut, hdir.trans (hkilled.pageDir u hut).symm, ?_⟩
    rw [hkilled.stack u hut]
    exact huse
  · rw [hvictim] at ht'
    cases ht'
    exact not_inUseHeld { s with k := k' } c hstack hgives hon hheld

theorem CoresInv.exit (h : CoresInv s l) (hop : CoreAllowed (.exit cpu) s) :
    ¬ InUseHeld (coreStep (.exit cpu) s) := by
  obtain ⟨hdone, hcurr⟩ := hop
  obtain ⟨esp, k', hexit, -⟩ := sysExit_keeps h.oneCpu cpu
  have hvm := (sysExit_ends hcurr hexit).1
  rw [Kernel.sysExit_eq s.k hcurr] at hexit
  obtain ⟨k1, hlocked, heq⟩ := map_eq_some_iff.mp hexit
  have hload : (k1.loadDir cpu).vm = k1.vm := by
    unfold Kernel.loadDir
    split <;> rfl
  have hvm1 : k1.vm = (s.k.freeTaskResources (s.k.current cpu)).vm := by
    rw [← hload, (Prod.mk.inj heq).2]
    exact hvm
  obtain ⟨st, hstack⟩ := h.owned.stack _ (h.oneCpu.current cpu hcurr).1
  unfold coreStep
  simp only [hlocked]
  refine not_inUseHeld _ cpu hstack ?_ (h.settled cpu hdone hcurr)
  rw [hvm1]
  exact hstack.release s.k.vm.kernelDir

end

/-! ## Whole runs -/

/-- Every CPU executes on the stack of its task and in its space, and has nothing left to load. -/
structure Settled (s : Cores) (l : List Tid) : Prop where
  oneCpu : OneCpu s.k l
  owned : Owned s.k l
  left : ∀ cpu, s.left cpu = .done
  busy : ∀ cpu, s.k.current cpu ≠ 0 →
    s.stack cpu = (s.k.tasks (s.k.current cpu)).kernelStackBase ∧
      s.k.cr3 cpu = (s.k.tasks (s.k.current cpu)).pageDir
  idle : ∀ cpu, s.k.current cpu = 0 → s.stack cpu = 0 ∧ s.k.cr3 cpu = s.k.vm.kernelDir

variable {s : Cores} {l : List Tid}

theorem Settled.inv (h : Settled s l) : CoresInv s l := by
  refine ⟨h.oneCpu, h.owned, fun cpu => ?_, fun cpu _ hcurr => (h.busy cpu hcurr).1, fun cpu => ?_⟩
  · by_cases hcurr : s.k.current cpu = 0
    · exact .inl (h.idle cpu hcurr).1
    · exact .inr ⟨_, (h.oneCpu.current cpu hcurr).1, (h.busy cpu hcurr).1⟩
  · by_cases hcurr : s.k.current cpu = 0
    · exact .inl (h.idle cpu hcurr).2
    · exact .inr ⟨_, (h.oneCpu.current cpu hcurr).1, (h.busy cpu hcurr).2, .inl rfl⟩

/-- Every step keeps the memory in use held, exactly if it leaves it alone. -/
theorem core_keeps (h : CoresInv s l) (op : CoreOp)
    (hop : CoreAllowed op s) :
    (LeavesInUse op s → ∃ l', CoresInv (coreStep op s) l') ∧
      (InUseHeld (coreStep op s) → LeavesInUse op s) := by
  cases op with
  | switch cpu esp st wake => exact ⟨fun _ => ⟨l, h.switch hop esp st wake⟩, fun _ => trivial⟩
  | exit cpu => exact ⟨False.elim, fun hheld => h.exit hop hheld⟩
  | kill cpu pid => exact h.kill cpu pid
  | loadDir cpu => exact ⟨fun _ => ⟨l, h.loadDir cpu⟩, fun _ => trivial⟩
  | loadStack cpu => exact ⟨fun _ => ⟨l, h.loadStack hop⟩, fun _ => trivial⟩

/-- From a state in which every CPU is on the stack and in the space of its task, and each task has
    frames of its own: over every interleaving without exits in which no task is killed while a CPU
    is still on its stack, the stacks the CPUs execute on and the directories in CR3 are allocated;
    and the next step keeps that exactly if it is no exit and no such kill. -/
theorem in_use_held_iff (s₀ : Cores) (l₀ : List Tid) (h₀ : Settled s₀ l₀) (s : Cores)
    (hs : Reach coreStep (fun op s => CoreAllowed op s ∧ LeavesInUse op s) s₀ s) :
    InUseHeld s ∧ ∀ op, CoreAllowed op s → (InUseHeld (coreStep op s) ↔ LeavesInUse op s) := by
  obtain ⟨l, h⟩ : ∃ l, CoresInv s l := by
    refine hs.invariant (fun s => ∃ l, CoresInv s l) ⟨l₀, h₀.inv⟩ fun op s hinv hop => ?_
    obtain ⟨l, h⟩ := hinv
    exact (core_keeps h op hop.1).1 hop.2
  refine ⟨h.inUseHeld, fun op hop => ?_⟩
  obtain ⟨hkeep, hleave⟩ := core_keeps h op hop
  refine ⟨hleave, fun hok => ?_⟩
  obtain ⟨l', h'⟩ := hkeep hok
  exact h'.inUseHeld

/-! ### Three tasks -/

/-- A user task on CPU 0, a kernel task that is READY, and the shell on CPU 1. -/
def threeTasks : Cores where
  k :=
    { vm := ⟨fun _ => 0, ⟨fun _ => 0xff, 64⟩, 0x10000⟩
      tasks := fun t =>
        if t = 0x1000 then ⟨1, .running, some 0, 0x11000, 0x23f00, 0x20000, 0, 0x2000⟩
        else if t = 0x2000 then ⟨2, .ready, none, 0x10000, 0x27fbc, 0x24000, 0, 0x3000⟩
        else ⟨3, .running, some 1, 0x10000, 0x2bf00, 0x28000, 0, 0x1000⟩
      readyHead := 0x1000
      nextPid := 4
      current := fun cpu => if cpu = 0 then 0x1000 else if cpu = 1 then 0x3000 else 0
      reschedPending := fun _ => false
      tickCount := 0
      cr3 := fun cpu => if cpu = 0 then 0x11000 else 0x10000
      esp0 := fun cpu => if cpu = 0 then 0x24000 else 0x2c000 }
  stack cpu := if cpu = 0 then 0x20000 else if cpu = 1 then 0x28000 else 0
  left _ := .done

theorem oneCpu_threeTasks : OneCpu threeTasks.k [0x1000, 0x2000, 0x3000] where
  ring := ring_cons (by decide) ⟨by decide, by decide, by decide, trivial⟩
  null := by decide
  head := .inl (by decide)
  current cpu hc := by
    have hcurr : threeTasks.k.current cpu = if cpu = 0 then 0x1000 else if cpu = 1 then 0x3000 else 0 :=
      rfl
    by_cases h0 : cpu = 0
    · subst h0
      decide
    by_cases h1 : cpu = 1
    · subst h1
      decide
    rw [hcurr, if_neg h0, if_neg h1] at hc
    exact absurd rfl hc

theorem mem_dirFrames_threeTasks {dir f : Nat} :
    f ∈ threeTasks.k.vm.dirFrames dir ↔ f ≠ 0 ∧ f * 4096 = dir := by
  have hentry : ∀ a i, entry threeTasks.k.vm.mem a i = 0 := fun a i => rfl
  constructor
  · rintro (hdir | ⟨i, -, hne, -⟩)
    · exact hdir
    · exact absurd ((hentry dir i).trans (hentry _ i).symm) hne
  · exact .inl

/-- The user task owns the frame of its directory, and every task those of its stack. -/
theorem mem_ownFrames_threeTasks (f : Nat) :
    (f ∈ threeTasks.k.ownFrames 0x1000 ↔ f = 17 ∨ (32 ≤ f ∧ f < 36)) ∧
      (f ∈ threeTasks.k.ownFrames 0x2000 ↔ 36 ≤ f ∧ f < 40) ∧
      (f ∈ threeTasks.k.ownFrames 0x3000 ↔ 40 ≤ f ∧ f < 44) := by
  have hmem : ∀ t pd base, (threeTasks.k.tasks t).pageDir = pd →
      (threeTasks.k.tasks t).kernelStackBase = base →
      (f ∈ threeTasks.k.ownFrames t ↔ (pd ≠ 0 ∧ pd ≠ 0x10000 ∧ f ≠ 0 ∧ f * 4096 = pd) ∨
        (base ≤ f * 4096 ∧ f * 4096 < base + 0x4000)) := by
    rintro t pd base rfl rfl
    exact or_congr_left (and_congr_right fun _ => and_congr_right fun _ => mem_dirFrames_threeTasks)
  rw [hmem 0x1000 0x11000 0x20000 (by decide) (by decide),
    hmem 0x2000 0x10000 0x24000 (by decide) (by decide),
    hmem 0x3000 0x10000 0x28000 (by decide) (by decide)]
  omega

theorem owned_threeTasks : Owned threeTasks.k [0x1000, 0x2000, 0x3000] := by
  have hbits : ∀ f < 64, threeTasks.k.vm.pfa.testBit f = true := by decide
  have hcases : ∀ t ∈ ([0x1000, 0x2000, 0x3000] : List Tid), t = 0x1000 ∨ t = 0x2000 ∨ t = 0x3000 := by
    intro t ht
    rwa [mem_cons, mem_cons, mem_singleton] at ht
  -- whose a frame is
  have howner : ∀ t ∈ ([0x1000, 0x2000, 0x3000] : List Tid), ∀ f ∈ threeTasks.k.ownFrames t,
      f < 64 ∧ f ≠ 16 ∧ t = if f < 36 then 0x1000 else if f < 40 then 0x2000 else 0x3000 := by
    intro t ht f hf
    obtain ⟨huser, hready, hshell⟩ := mem_ownFrames_threeTasks f
    rcases hcases t ht with rfl | rfl | rfl
    · rw [huser] at hf
      exact ⟨by omega, by omega, (if_pos (by omega)).symm⟩
    · rw [hready] at hf
      exact ⟨by omega, by omega, by rw [if_neg (by omega), if_pos (by omega)]⟩
    rw [hshell] at hf
    exact ⟨by omega, by omega, by rw [if_neg (by omega), if_neg (by omega)]⟩
  refine ⟨fun t ht => ?_, fun t ht => ?_, fun t ht f hf => ?_, fun t ht u hu hne f hf hfu => ?_, ?_,
    fun t ht hf => ?_⟩
  · rcases hcases t ht with rfl | rfl | rfl
    · exact ⟨32, by decide, by decide, by decide, by decide, by decide, by decide⟩
    · exact ⟨36, by decide, by decide, by decide, by decide, by decide, by decide⟩
    · exact ⟨40, by decide, by decide, by decide, by decide, by decide, by decide⟩
  · rcases hcases t ht with rfl | rfl | rfl <;> decide
  · have hlt := (howner t ht f hf).1
    exact ⟨hlt, hbits f hlt⟩
  · exact hne ((howner t ht f hf).2.2.trans (howner u hu f hfu).2.2.symm)
  · exact ⟨by decide, hbits 16 (by decide)⟩
  · exact (howner t ht _ hf).2.1 (by decide)

theorem settled_threeTasks : Settled threeTasks [0x1000, 0x2000, 0x3000] := by
  have hcurr : ∀ cpu, threeTasks.k.current cpu
      = if cpu = 0 then 0x1000 else if cpu = 1 then 0x3000 else 0 := fun _ => rfl
  refine ⟨oneCpu_threeTasks, owned_threeTasks, fun _ => rfl, fun cpu hne => ?_, fun cpu h0 => ?_⟩
  · by_cases hcpu : cpu = 0
    · subst hcpu
      decide
    by_cases hcpu' : cpu = 1
    · subst hcpu'
      decide
    rw [hcurr, if_neg hcpu, if_neg hcpu'] at hne
    exact absurd rfl hne
  · by_cases hcpu : cpu = 0
    · subst hcpu
      contradiction
    by_cases hcpu' : cpu = 1
    · subst hcpu'
      contradiction
    · exact ⟨(if_neg hcpu).trans (if_neg hcpu'), if_neg hcpu⟩

/-- CPU 0 has taken the kernel task, and is still on the stack of the user task. -/
def leavingUser : Cores := coreStep (.switch 0 0x23e00 .ready 0) threeTasks

/-- It has left the user task. -/
def leftUser : Cores := coreStep (.loadStack 0) (coreStep (.loadDir 0) leavingUser)

theorem victim_leavingUser : leavingUser.k.victim 1 = some 0x1000 := by decide

/-- The shell kills the user task when CPU 0 has left it. -/
theorem in_use_held_iff_threeTasks :
    leftUser.k.victim 1 = some 0x1000 ∧ InUseHeld (coreStep (.kill 1 1) leftUser) := by
  have hvictim : leftUser.k.victim 1 = some 0x1000 := by decide
  have hleaves : LeavesInUse (.kill 1 1) leftUser := by
    intro t ht cpu hon
    rw [hvictim] at ht
    obtain rfl := Option.some.inj ht
    have hbase : (leftUser.k.tasks 0x1000).kernelStackBase = 0x20000 := by decide
    have hstack : leftUser.stack cpu
        = Function.update threeTasks.stack 0 0x24000 cpu := by
      refine congrFun (congrArg (Function.update threeTasks.stack 0) ?_) cpu
      decide
    rw [hbase, hstack] at hon
    by_cases hcpu : cpu = 0
    · rw [hcpu, update_self] at hon
      contradiction
    rw [update_of_ne hcpu] at hon
    change (if cpu = 0 then 0x20000 else if cpu = 1 then 0x28000 else 0) = 0x20000 at hon
    rw [if_neg hcpu] at hon
    split at hon <;> contradiction
  have hrun : Reach coreStep (fun op s => CoreAllowed op s ∧ LeavesInUse op s) threeTasks leftUser :=
    .next (CoreOp.loadStack 0) (.next (CoreOp.loadDir 0)
      (.next (CoreOp.switch 0 0x23e00 .ready 0) .start ⟨rfl, trivial⟩)
      ⟨show leavingUser.left 0 = .dir by decide, trivial⟩)
      ⟨show (coreStep (.loadDir 0) leavingUser).left 0 = .stack by decide, trivial⟩
  have hallowed : CoreAllowed (.kill 1 1) leftUser :=
    ⟨show leftUser.left 1 = .done by decide, show leftUser.k.current 1 ≠ 0 by decide⟩
  exact ⟨hvictim, ((in_use_held_iff threeTasks _ settled_threeTasks leftUser hrun).2 (.kill 1 1)
    hallowed).mpr hleaves⟩

/-- The user task exits, on its own stack; and the shell kills it, after CPU 0 has given up the lock
    and before it has left that stack. -/
theorem threeTasks_frees_stack :
    CoreAllowed (.exit 0) threeTasks ∧ ¬ InUseHeld (coreStep (.exit 0) threeTasks) ∧
      CoreAllowed (.kill 1 1) leavingUser ∧ ¬ InUseHeld (coreStep (.kill 1 1) leavingUser) := by
  have hinv := settled_threeTasks.inv
  have hexit : CoreAllowed (.exit 0) threeTasks := ⟨rfl, by decide⟩
  have hkill : CoreAllowed (.kill 1 1) leavingUser :=
    ⟨show leavingUser.left 1 = .done by decide, show leavingUser.k.current 1 ≠ 0 by decide⟩
  have hleaving : CoresInv leavingUser [0x1000, 0x2000, 0x3000] := hinv.switch rfl 0x23e00 .ready 0
  have hon : leavingUser.stack 0 = (leavingUser.k.tasks 0x1000).kernelStackBase := by decide
  refine ⟨hexit, hinv.exit hexit, hkill, fun hheld => ?_⟩
  exact (hleaving.kill 1 1).2 hheld 0x1000 victim_leavingUser 0 hon

end Noverix.Sched
