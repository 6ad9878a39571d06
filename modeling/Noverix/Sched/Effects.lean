/-
  What the sections do to the tasks, one by one: a switch changes the task that is
  left and the one that is taken, and linking a task in changes no other.
-/

import Noverix.Sched.OneCpu
import Noverix.Memory.Tables

namespace Noverix.Sched

open Lib Memory

section

variable {k k' : Kernel} {l : List Tid} {cpu : Cpu} {t : Tid}

/-! ## Switching -/

/-- What a switch on `cpu` to `next` leaves: every task but the two is as before. -/
structure Switched (k : Kernel) (cpu : Cpu) (next : Tid) (k' : Kernel) : Prop where
  current : k'.current = Function.update k.current cpu next
  rest : ∀ u, u ≠ k.current cpu → u ≠ next → k'.tasks u = k.tasks u
  left : (k'.tasks (k.current cpu)).cpuAssigned = some cpu
  taken : (k'.tasks next).cpuAssigned = some cpu

theorem taskSwitchFrom_switched (h : OneCpu k l) (hcurr : k.current cpu ≠ 0) (esp : UInt32)
    (st : TaskState) (wake : UInt32) :
    ∃ n next r k', (k.suspend cpu esp st wake).pickNextLocked cpu = some n ∧
      k.taskSwitchFrom cpu esp st wake = some (r, k') ∧ Switched k cpu next k' ∧
      (next = k.current cpu ∧ (n = 0 ∨ n = k.current cpu) ∨
        next = n ∧ n ≠ 0 ∧ n ≠ k.current cpu ∧ (k.tasks n).state = .ready ∧
          ((k.tasks n).cpuAssigned = none ∨ (k.tasks n).cpuAssigned = some cpu)) := by
  obtain ⟨n, hpick, hn⟩ := suspend_pickNextLocked h hcurr esp st wake
  have hsusp : ∀ u, u ≠ k.current cpu → (k.suspend cpu esp st wake).tasks u = k.tasks u :=
    fun u hu => setTask_of_ne hu
  have hself : ((k.suspend cpu esp st wake).tasks (k.current cpu)).cpuAssigned = some cpu := by
    unfold Kernel.suspend
    rw [setTask_self]
  by_cases hgo : n = 0 ∨ n = k.current cpu
  · -- the current task goes on
    refine ⟨n, k.current cpu, 0, (k.suspend cpu esp st wake).resume cpu, hpick, ?_, ⟨?_, ?_, ?_, ?_⟩,
      .inl ⟨rfl, hgo⟩⟩
    · unfold Kernel.taskSwitchFrom
      rw [if_neg hcurr]
      simp only [hpick]
      exact if_pos hgo
    · exact (update_eq_self cpu k.current).symm
    · intro u hu _
      exact (setTask_of_ne hu).trans (hsusp u hu)
    all_goals
      show (((k.suspend cpu esp st wake).setTask (k.current cpu) (Task.runOn cpu)).tasks
        (k.current cpu)).cpuAssigned = some cpu
      rw [setTask_self]
      rfl
  obtain ⟨hn0, hnc⟩ := not_or.mp hgo
  obtain ⟨-, -, hready, hassigned⟩ := (hn.resolve_left hn0).resolve_left hnc
  refine ⟨n, n, ((k.suspend cpu esp st wake).tasks n).kernelEsp,
    (k.suspend cpu esp st wake).dispatch cpu n, hpick, ?_, ⟨rfl, ?_, ?_, ?_⟩,
    .inr ⟨rfl, hn0, hnc, hready, hassigned⟩⟩
  · unfold Kernel.taskSwitchFrom
    rw [if_neg hcurr]
    simp only [hpick]
    exact if_neg hgo
  · intro u hu hun
    rw [dispatch_tasks, setTask_of_ne hun, hsusp u hu]
  · rw [dispatch_tasks, setTask_of_ne (Ne.symm hnc), hself]
  · rw [dispatch_tasks, setTask_self]
    rfl

theorem Switched.assigned {next : Tid} (h : Switched k cpu next k')
    (ht : (k.tasks t).cpuAssigned = some cpu) : (k'.tasks t).cpuAssigned = some cpu := by
  by_cases hleft : t = k.current cpu
  · rw [hleft]
    exact h.left
  by_cases htaken : t = next
  · rw [htaken]
    exact h.taken
  rw [h.rest t hleft htaken]
  exact ht

/-! ## Linking in -/

/-- The new task `t` is in the ring, and the others are as before. -/
structure Linked (k : Kernel) (l : List Tid) (t : Tid) (k' : Kernel) (l' : List Tid) : Prop where
  oneCpu : OneCpu k' l'
  perm : l'.Perm (t :: l)
  fresh : t ∉ l
  current : k'.current = k.current
  state : ∀ u ∈ l, (k'.tasks u).state = (k.tasks u).state
  assigned : ∀ u ∈ l, (k'.tasks u).cpuAssigned = (k.tasks u).cpuAssigned
  new : (k'.tasks t).state = .ready ∧ (k'.tasks t).cpuAssigned = none

theorem linked_of_not_mem {task : Task} (h : OneCpu k l) (ht0 : t ≠ 0) (ht : t ∉ l)
    (hst : task.state = .ready) (hnone : task.cpuAssigned = none) :
    ∃ l', Linked k l t (schedStep (.enqueue t task) k) l' := by
  obtain ⟨l', hl', hperm⟩ := enqueue_keeps (h.setTask_outside ht fun _ => task) ht0 ht
  have hnew : (k.setTask t fun _ => task).tasks t = task := setTask_self
  have hold : ∀ u ∈ l, (k.setTask t fun _ => task).tasks u = k.tasks u := by
    intro u hu
    refine setTask_of_ne ?_
    rintro rfl
    exact ht hu
  show ∃ l', Linked k l t ((k.setTask t fun _ => task).enqueue t) l'
  refine ⟨l', hl', hperm, ht, ?_, fun u hu => ?_, fun u hu => ?_, ?_, ?_⟩
  · unfold Kernel.enqueue
    split <;> rfl
  · rw [enqueue_field Task.state (fun _ _ => rfl), hold u hu]
  · rw [enqueue_field Task.cpuAssigned (fun _ _ => rfl), hold u hu]
  · rw [enqueue_field Task.state (fun _ _ => rfl), hnew, hst]
  · rw [enqueue_field Task.cpuAssigned (fun _ _ => rfl), hnew, hnone]

theorem enqueue_linked {task : Task} (h : OneCpu k l) (hop : SchedAllowed (.enqueue t task) k) :
    ∃ l', Linked k l t (schedStep (.enqueue t task) k) l' := by
  obtain ⟨ht0, hring, hst, hnone⟩ := hop
  exact linked_of_not_mem h ht0 (fun hmem => hring (h.onRing_of_mem hmem)) hst hnone

/-! ## Creating a task -/

theorem setTask_new (k : Kernel) (t : Tid) (vm : Vm) (pid : UInt32) (new : Task) (f : Task → Task) :
    ({ k.setTask t fun _ => new with vm := vm, nextPid := pid } : Kernel).setTask t f
      = ({ k with vm := vm, nextPid := pid } : Kernel).setTask t fun _ => f new := by
  unfold Kernel.setTask
  simp only [update_self, update_idem]

theorem allocTask_eq (k : Kernel) (h : k.allocTask.1 ≠ 0) :
    k.allocTask.2 = { k.setTask k.allocTask.1 fun _ =>
        { Task.blank with pid := k.nextPid, cpuAssigned := none } with
      vm := k.vm.allocFrame.2
      nextPid := k.nextPid + 1 } := by
  unfold Kernel.allocTask at h ⊢
  simp only at h ⊢
  split at h
  · exact absurd rfl h
  next ht =>
  rw [if_neg ht]
  rfl

/-- To the scheduler, `task_create` links in a new task that is READY, for any CPU. -/
theorem taskCreate_eq (k : Kernel) (entry : Nat) (h : (k.taskCreate entry).1 ≠ 0) :
    (k.taskCreate entry).1 = k.allocTask.1 ∧ k.allocTask.1 ≠ 0 ∧
      ∃ vm task, task.state = .ready ∧ task.cpuAssigned = none ∧
        vm.pfa = (k.vm.allocFrame.2.allocFrames (taskStackSize / 4096)).2.pfa ∧
        (k.taskCreate entry).2 = schedStep (.enqueue k.allocTask.1 task)
          { k with vm := vm, nextPid := k.nextPid + 1 } := by
  unfold Kernel.taskCreate at h ⊢
  simp only at h ⊢
  by_cases ht : k.allocTask.1 = 0
  · rw [if_pos ht] at h
    exact absurd rfl h
  rw [if_neg ht] at h ⊢
  rw [allocTask_eq k ht]
  rw [allocTask_eq k ht] at h
  by_cases hstack : (k.vm.allocFrame.2.allocFrames (taskStackSize / 4096)).1 = 0
  · rw [if_pos hstack] at h
    exact absurd rfl h
  rw [if_neg hstack]
  refine ⟨rfl, ht, _, _, ?_, ?_, ?_,
    congrArg (Kernel.enqueue · k.allocTask.1) (setTask_new k k.allocTask.1 _ _ _ _)⟩
  · rfl
  · rfl
  · rfl

/-- The tasks are in frames that are marked used. -/
def InFrames (k : Kernel) (l : List Tid) : Prop :=
  ∀ t ∈ l, t.toNat / 4096 < k.vm.pfa.totalFrames ∧ k.vm.pfa.testBit (t.toNat / 4096) = true

theorem testBit_of_took {p q : Pfa} {start n f : Nat} (h : p.Took start n q)
    (hf : f < p.totalFrames ∧ p.testBit f = true) : f < q.totalFrames ∧ q.testBit f = true := by
  rw [h.total, h.bits f hf.1, hf.2, ite_self]
  exact ⟨hf.1, rfl⟩

/-- Frames that are marked stay so when a stack is taken. -/
theorem testBit_allocFrames {s : Vm} {n f : Nat} (hf : f < s.pfa.totalFrames ∧ s.pfa.testBit f = true) :
    f < (s.allocFrames n).2.pfa.totalFrames ∧ (s.allocFrames n).2.pfa.testBit f = true := by
  show f < (s.pfa.allocFrames _).2.totalFrames ∧ (s.pfa.allocFrames _).2.testBit f = true
  rcases s.pfa.allocFrames_spec (UInt32.ofNat n) with ⟨start, q, heq, htook⟩ | ⟨heq, -⟩
  · rw [heq]
    exact testBit_of_took htook hf
  · rw [heq]
    exact hf

/-- The frame of a new task was free, and is marked. -/
theorem allocTask_frame (hsmall : k.vm.pfa.totalFrames ≤ 2 ^ 18) (ht : k.allocTask.1 ≠ 0) :
    ∃ i, k.allocTask.1.toNat = i * 4096 ∧ k.vm.pfa.Took i 1 k.vm.allocFrame.2.pfa := by
  have htask : k.allocTask.1 = UInt32.ofNat k.vm.allocFrame.1 := by
    unfold Kernel.allocTask at ht ⊢
    simp only at ht ⊢
    split at ht
    · exact absurd rfl ht
    · next hsome => rw [if_neg hsome]
  have hword : (UInt32.ofNat k.vm.allocFrame.1).toNat = k.vm.allocFrame.1 :=
    UInt32.toNat_ofNat_of_lt' (UInt32.toNat_lt _)
  obtain ⟨i, hi, htook, -⟩ := Vm.allocFrame_spec hsmall (s := k.vm) fun h0 => ht (by
    rw [htask, h0]
    rfl)
  exact ⟨i, by rw [htask, hword, hi], htook⟩

/-- A `task_create` that returns a task has linked a new one into the ring, READY and for any
    CPU, and left the others alone, as long as these are in frames that are marked used.  Then
    the tasks of the new ring are, too: no later call is given one of their frames. -/
theorem taskCreate_links {k : Kernel} {l : List Tid} (h : OneCpu k l) (hin : InFrames k l)
    (hsmall : k.vm.pfa.totalFrames ≤ 2 ^ 18) {entry : Nat} (hret : (k.taskCreate entry).1 ≠ 0) :
    ∃ l', Linked k l (k.taskCreate entry).1 (k.taskCreate entry).2 l' ∧
      InFrames (k.taskCreate entry).2 l' := by
  obtain ⟨heq, ht, vm, task, hready, hnone, hpfa, hk'⟩ := taskCreate_eq k entry hret
  obtain ⟨i, hi, htook⟩ := allocTask_frame hsmall ht
  have hdiv : k.allocTask.1.toNat / 4096 = i := by omega
  have hfits := htook.fits
  have hnew : k.allocTask.1 ∉ l := by
    intro hmem
    have hused := (hin _ hmem).2
    rw [hdiv, htook.free i le_rfl (by omega)] at hused
    cases hused
  have hk : OneCpu { k with vm := vm, nextPid := k.nextPid + 1 } l :=
    h.congr ⟨rfl, rfl, rfl, fun _ => rfl, fun _ => rfl, fun _ => rfl⟩
  obtain ⟨l', hl'⟩ := linked_of_not_mem hk ht hnew hready hnone
  rw [heq, hk']
  refine ⟨l', ⟨hl'.oneCpu, hl'.perm, hl'.fresh, hl'.current, hl'.state, hl'.assigned, hl'.new⟩,
    fun u hu => ?_⟩
  have hvm : (schedStep (.enqueue k.allocTask.1 task)
      { k with vm := vm, nextPid := k.nextPid + 1 }).vm = vm := enqueue_vm ..
  rw [hvm, hpfa]
  refine testBit_allocFrames ?_
  rcases List.mem_cons.mp (hl'.perm.mem_iff.mp hu) with rfl | hold
  · rw [hdiv, htook.total, htook.bits i (by omega), if_pos (by omega)]
    exact ⟨by omega, rfl⟩
  · exact testBit_of_took htook (hin u hold)

/-- With sixteen of thirty-two frames free, a third task is linked in. -/
theorem taskCreate_links_twoTasks :
    let k := { twoTasks with vm := ⟨fun _ => 0, ⟨fun a => if a < 2 then 255 else 0, 32⟩, 0⟩ }
    (k.taskCreate 0).1 = 0x10000 ∧ ∃ l', Linked k [0x1000, 0x2000] 0x10000 (k.taskCreate 0).2 l' ∧
      InFrames (k.taskCreate 0).2 l' := by
  intro k
  have hret : (k.taskCreate 0).1 = 0x10000 := by decide
  have hk : OneCpu k [0x1000, 0x2000] :=
    oneCpu_twoTasks.congr ⟨rfl, rfl, rfl, fun _ => rfl, fun _ => rfl, fun _ => rfl⟩
  have hsome : (k.taskCreate 0).1 ≠ 0 := by
    rw [hret]
    decide
  have hin : InFrames k [0x1000, 0x2000] := by
    intro t ht
    rcases List.mem_pair.mp ht with rfl | rfl
    · exact ⟨by decide, by decide⟩
    · exact ⟨by decide, by decide⟩
  have hlinks := taskCreate_links hk hin (by decide) hsome
  rw [hret] at hlinks
  exact ⟨hret, hlinks⟩

end

end Noverix.Sched
