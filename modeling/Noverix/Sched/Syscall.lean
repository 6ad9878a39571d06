/-
  What `syscall_handler` (kernel/elf.c) returns.  `isr128` loads it into ESP,
  whatever it is.

  Three system calls schedule: SYS_EXIT and SYS_SLEEP_MS return the stack of the
  next task, and 0 if there is none; SYS_YIELD falls back on the caller's own
  frame.  All others return the frame they were given.
-/

import Noverix.Sched.OneCpu

namespace Noverix.Sched

open Lib Memory

/-! ## The model -/

/-- `SYS_EXIT`. -/
abbrev sysExitNum : UInt32 := 0

/-- `SYS_SLEEP_MS`. -/
abbrev sysSleepMsNum : UInt32 := 14

/-- `SYS_YIELD`. -/
abbrev sysYieldNum : UInt32 := 29

/-- `syscall_handler`, for the frame at `regs` with `num` in EAX and `ebx` in EBX.  System
    calls other than the three leave the scheduler alone. -/
def Kernel.syscallHandler (k : Kernel) (cpu : Cpu) (regs num ebx : UInt32) :
    Option (UInt32 × Kernel) :=
  if num = sysExitNum then k.sysExit cpu
  else if num = sysSleepMsNum then
    k.taskBlockAndSwitch cpu regs (k.tickCount + (ebx + 9) / 10)
  else if num = sysYieldNum then
    (k.taskYield cpu regs).map fun r => (if r.1 ≠ 0 then r.1 else regs, r.2)
  else some (regs, k)

/-- The value is a stack: the caller's frame, or the one saved by the task that now runs. -/
def ValidReturn (cpu : Cpu) (regs : UInt32) (result : Option (UInt32 × Kernel)) : Prop :=
  ∃ r k', result = some (r, k') ∧ r ≠ 0 ∧
    (r = regs ∨ (k'.current cpu ≠ 0 ∧ (k'.tasks (k'.current cpu)).state = .running ∧
      (k'.tasks (k'.current cpu)).cpuAssigned = some cpu ∧
      r = (k'.tasks (k'.current cpu)).kernelEsp))

/-! ## The three calls -/

section

variable {k : Kernel} {l : List Tid} {cpu : Cpu} {t : Tid} {regs : UInt32}

theorem validReturn_dispatch (ht : t ≠ 0) (hesp : (k.tasks t).kernelEsp ≠ 0) :
    ValidReturn cpu regs (some ((k.tasks t).kernelEsp, k.dispatch cpu t)) := by
  have hcurrent : (k.dispatch cpu t).current cpu = t := update_self ..
  refine ⟨_, _, rfl, hesp, .inr ?_⟩
  rw [hcurrent, dispatch_tasks, setTask_self]
  exact ⟨ht, rfl, rfl, rfl⟩

theorem not_validReturn_zero (k' : Kernel) : ¬ ValidReturn cpu regs (some (0, k')) := by
  rintro ⟨r, k'', heq, hr, -⟩
  have hzero : (0 : UInt32) = r := congrArg Prod.fst (some.inj heq)
  exact hr hzero.symm

theorem suspend_pickable {esp wake : UInt32} {st : TaskState} (ht : t ≠ k.current cpu) :
    (k.suspend cpu esp st wake).pickable cpu t = k.pickable cpu t := by
  have htask : (k.suspend cpu esp st wake).tasks t = k.tasks t := setTask_of_ne ht
  unfold Kernel.pickable
  rw [htask]

theorem taskSwitchFrom_valid_iff (regs : UInt32) (h : OneCpu k l) (hcurr : k.current cpu ≠ 0)
    (esp : UInt32) (st : TaskState) (wake : UInt32) :
    ((∃ t ∈ l, t ≠ k.current cpu ∧ k.pickable cpu t = true) →
      ValidReturn cpu regs (k.taskSwitchFrom cpu esp st wake)) ∧
    ((∀ t ∈ l, t ≠ k.current cpu → k.pickable cpu t ≠ true) →
      ∃ k', k.taskSwitchFrom cpu esp st wake = some (0, k')) := by
  obtain ⟨r, hring, hperm, hcases⟩ := taskSwitchFrom_spec h hcurr esp st wake
  have hr : ∀ t ∈ r, t ∈ l ∧ t ≠ k.current cpu := by
    intro t ht
    refine ⟨hperm.mem_iff.mp (mem_cons_of_mem _ ht), ?_⟩
    rintro rfl
    exact (nodup_cons.mp hring.nodup).1 ht
  constructor
  · rintro ⟨t, ht, hne, hpick⟩
    have htr : t ∈ r := (mem_cons.mp (hperm.mem_iff.mpr ht)).resolve_left hne
    rcases hcases with ⟨u, hfind, heq⟩ | ⟨hfind, -⟩
    · rw [heq]
      have hu := hr u (mem_of_find?_eq_some hfind)
      have hu0 : u ≠ 0 := fun h0 => h.null (h0 ▸ hu.1)
      exact validReturn_dispatch hu0 (pickable_iff.mp (find?_some hfind)).2.2
    have hno := find?_eq_none.mp hfind t htr
    rw [suspend_pickable hne] at hno
    exact absurd hpick hno
  · intro hnone
    rcases hcases with ⟨u, hfind, -⟩ | ⟨-, heq⟩
    · obtain ⟨hu, hne⟩ := hr u (mem_of_find?_eq_some hfind)
      have hpick := find?_some hfind
      rw [suspend_pickable hne] at hpick
      exact absurd hpick (hnone u hu hne)
    · exact ⟨_, heq⟩

section

variable (h : OneCpu k l) (hcurr : k.current cpu ≠ 0)
include h hcurr

/-- SYS_SLEEP_MS needs another task that may run here. -/
theorem sleep_valid_iff (wake : UInt32) :
    ValidReturn cpu regs (k.taskBlockAndSwitch cpu regs wake) ↔
      ∃ t ∈ l, t ≠ k.current cpu ∧ k.pickable cpu t = true := by
  obtain ⟨hsome, hnone⟩ := taskSwitchFrom_valid_iff regs h hcurr regs .blocked wake
  refine ⟨fun hvalid => ?_, hsome⟩
  by_contra hno
  obtain ⟨k', heq⟩ := hnone fun t ht hne hpick => hno ⟨t, ht, hne, hpick⟩
  unfold Kernel.taskBlockAndSwitch at hvalid
  rw [heq] at hvalid
  exact not_validReturn_zero k' hvalid

/-- SYS_YIELD always has the caller to fall back on. -/
theorem yield_valid (hregs : regs ≠ 0) : ValidReturn cpu regs
      ((k.taskYield cpu regs).map fun r => (if r.1 ≠ 0 then r.1 else regs, r.2)) := by
  unfold Kernel.taskYield
  obtain ⟨hsome, hnone⟩ := taskSwitchFrom_valid_iff regs h hcurr regs .ready 0
  by_cases hex : ∃ t ∈ l, t ≠ k.current cpu ∧ k.pickable cpu t = true
  · obtain ⟨r, k', heq, hr, hstack⟩ := hsome hex
    rw [heq]
    refine ⟨r, k', ?_, hr, hstack⟩
    show some (if r ≠ 0 then r else regs, k') = _
    rw [if_pos hr]
  obtain ⟨k', heq⟩ := hnone fun t ht hne hpick => hex ⟨t, ht, hne, hpick⟩
  rw [heq]
  exact ⟨regs, k', rfl, hregs, .inl rfl⟩

theorem exit_valid_iff : ValidReturn cpu regs (k.sysExit cpu) ↔
      ∃ t ∈ l, k.exitPickable (k.current cpu) t = true := by
  obtain ⟨k1, r, hs, hring, hperm, hcases⟩ := sysExit_spec h hcurr
  -- the caller alone changes, and it is never taken
  have hsame : ∀ t, (k1.setTask (k.current cpu) fun task =>
      { task with state := .free, cpuAssigned := none }).exitPickable (k.current cpu) t
      = k.exitPickable (k.current cpu) t := by
    intro t
    unfold Kernel.exitPickable
    by_cases hne : t = k.current cpu
    · simp [hne]
    · rw [setTask_of_ne hne, hs.state, hs.assigned, hs.esp]
  rcases hcases with ⟨u, hfind, heq⟩ | ⟨hfind, heq⟩
  · have hu : u ∈ l := hperm.mem_iff.mp (mem_of_find?_eq_some hfind)
    have hu0 : u ≠ 0 := fun h0 => h.null (h0 ▸ hu)
    have hpick := find?_some hfind
    rw [heq]
    refine iff_of_true ?_ ⟨u, hu, (hsame u).symm.trans hpick⟩
    exact validReturn_dispatch hu0 (exitPickable_iff.mp hpick).2.2.1
  rw [heq]
  refine iff_of_false (not_validReturn_zero _) ?_
  rintro ⟨t, ht, hpick⟩
  have hno := find?_eq_none.mp hfind t (hperm.mem_iff.mpr ht)
  rw [hsame] at hno
  exact hno hpick

end

end

/-! ## All calls -/

/-- The value `syscall_handler` returns is a stack exactly when SYS_EXIT finds a READY task
    that is assigned to no CPU, and SYS_SLEEP_MS one that is assigned to no other. -/
theorem syscall_valid_iff (k : Kernel) (l : List Tid) (h : OneCpu k l) (cpu : Cpu)
    (hcurr : k.current cpu ≠ 0) (regs num ebx : UInt32) (hregs : regs ≠ 0) :
    ValidReturn cpu regs (k.syscallHandler cpu regs num ebx) ↔
      (num = sysExitNum → ∃ t ∈ l, t ≠ k.current cpu ∧ (k.tasks t).state = .ready ∧
        (k.tasks t).cpuAssigned = none ∧ (k.tasks t).kernelEsp ≠ 0) ∧
      (num = sysSleepMsNum → ∃ t ∈ l, t ≠ k.current cpu ∧ (k.tasks t).state = .ready ∧
        ((k.tasks t).cpuAssigned = none ∨ (k.tasks t).cpuAssigned = some cpu) ∧
        (k.tasks t).kernelEsp ≠ 0) := by
  unfold Kernel.syscallHandler
  by_cases hexit : num = sysExitNum
  · have hsleep : num ≠ sysSleepMsNum := by
      rw [hexit]
      decide
    rw [if_pos hexit, exit_valid_iff h hcurr]
    simp only [exitPickable_iff]
    constructor
    · rintro ⟨t, ht, hready, hnone, hesp, hne⟩
      exact ⟨fun _ => ⟨t, ht, hne, hready, hnone, hesp⟩, fun hs => absurd hs hsleep⟩
    · rintro ⟨hex, -⟩
      obtain ⟨t, ht, hne, hready, hnone, hesp⟩ := hex hexit
      exact ⟨t, ht, hready, hnone, hesp, hne⟩
  rw [if_neg hexit]
  by_cases hsleep : num = sysSleepMsNum
  · rw [if_pos hsleep, sleep_valid_iff h hcurr]
    simp only [pickable_iff]
    exact ⟨fun hex => ⟨fun he => absurd he hexit, fun _ => hex⟩, fun hex => hex.2 hsleep⟩
  rw [if_neg hsleep]
  refine iff_of_true ?_ ⟨fun he => absurd he hexit, fun hs => absurd hs hsleep⟩
  split
  · exact yield_valid h hcurr hregs
  · exact ⟨regs, k, rfl, hregs, .inl rfl⟩

/-- With two tasks, one of them READY and never run, SYS_EXIT returns its stack. -/
theorem syscall_valid_iff_twoTasks :
    ValidReturn 0 0x5000 (twoTasks.syscallHandler 0 0x5000 sysExitNum 0) := by
  refine (syscall_valid_iff twoTasks _ oneCpu_twoTasks 0 (by decide) 0x5000 sysExitNum 0
    (by decide)).mpr ⟨fun _ => ⟨0x2000, ?_⟩, fun hs => absurd hs (by decide)⟩
  decide

/-- One task, that runs on CPU 0. -/
def loneTask : Kernel :=
  { twoTasks with
    tasks := fun _ => ⟨1, .running, some 0, 0, 0x5000, 0x4000, 0, 0x1000⟩ }

theorem oneCpu_loneTask : OneCpu loneTask [0x1000] where
  ring := ring_cons (by decide) ⟨rfl, trivial⟩
  null := by decide
  head := .inl (by decide)
  current cpu hc := by
    by_cases h0 : cpu = 0
    · subst h0
      decide
    · exact absurd (if_neg h0) hc

/-- When the only task sleeps, the value is 0. -/
theorem lone_sleep_not_valid :
    OneCpu loneTask [0x1000] ∧ loneTask.current 0 ≠ 0 ∧
      ¬ ValidReturn 0 0x5000 (loneTask.syscallHandler 0 0x5000 sysSleepMsNum 1000) := by
  have hcurr : loneTask.current 0 ≠ 0 := by decide
  refine ⟨oneCpu_loneTask, hcurr, fun hvalid => ?_⟩
  unfold Kernel.syscallHandler at hvalid
  rw [if_neg (by decide), if_pos rfl] at hvalid
  obtain ⟨t, ht, hne, -⟩ := (sleep_valid_iff oneCpu_loneTask hcurr _).mp hvalid
  exact hne (mem_singleton.mp ht)

end Noverix.Sched
