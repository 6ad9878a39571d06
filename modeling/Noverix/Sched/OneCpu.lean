/-
  One CPU per task.

  Whatever the CPUs do, the tasks stay linked in one ring that has `ready_head`
  and every current task on it, each current task is RUNNING and assigned to its
  CPU, and so no task is current on two CPUs.  A CPU takes only READY tasks, and
  only tasks that are not RUNNING are taken out of the ring.
-/

import Noverix.Sched.Task
import Noverix.Lib.Runs
import Mathlib.Data.Fintype.Card

namespace Noverix.Sched

open Lib Memory

/-! ## The invariant -/

/-- The tasks `l` form the ring. -/
structure OneCpu (k : Kernel) (l : List Tid) : Prop where
  ring : Ring k.next l
  null : 0 ∉ l
  head : k.readyHead ∈ l ∨ (k.readyHead = 0 ∧ l = [])
  current : ∀ cpu, k.current cpu ≠ 0 → k.current cpu ∈ l ∧
    (k.tasks (k.current cpu)).state = .running ∧ (k.tasks (k.current cpu)).cpuAssigned = some cpu

/-- What scheduling looks at is the same in both states. -/
structure SameSched (k k' : Kernel) : Prop where
  next : k'.next = k.next
  head : k'.readyHead = k.readyHead
  current : k'.current = k.current
  state : ∀ t, (k'.tasks t).state = (k.tasks t).state
  assigned : ∀ t, (k'.tasks t).cpuAssigned = (k.tasks t).cpuAssigned
  esp : ∀ t, (k'.tasks t).kernelEsp = (k.tasks t).kernelEsp

namespace Kernel

variable {k : Kernel} {t u : Tid} {f : Task → Task}

theorem setTask_self : (k.setTask t f).tasks t = f (k.tasks t) := update_self ..

theorem setTask_of_ne (h : u ≠ t) :
    (k.setTask t f).tasks u = k.tasks u := update_of_ne h ..

theorem next_setTask : (k.setTask t f).next = update k.next t (f (k.tasks t)).next := by
  funext u
  unfold Kernel.next
  by_cases h : u = t
  · subst h
    rw [setTask_self, update_self]
  · rw [setTask_of_ne h, update_of_ne h]

theorem setTask_field {α : Type*} (g : Task → α) (h : g (f (k.tasks t)) = g (k.tasks t)) (u : Tid) :
    g ((k.setTask t f).tasks u) = g (k.tasks u) := by
  by_cases hu : u = t
  · subst hu
    rw [setTask_self, h]
  · rw [setTask_of_ne hu]

theorem next_setTask_same (h : (f (k.tasks t)).next = (k.tasks t).next) :
    (k.setTask t f).next = k.next := by
  rw [next_setTask, h]
  exact update_eq_self t k.next

theorem dispatch_tasks (k : Kernel) (cpu : Cpu) (t : Tid) :
    (k.dispatch cpu t).tasks = (k.setTask t (Task.runOn cpu)).tasks := rfl

theorem next_dispatch (k : Kernel) (cpu : Cpu) (t : Tid) : (k.dispatch cpu t).next = k.next :=
  next_setTask_same (f := Task.runOn cpu) rfl

end Kernel

section

variable {k k' : Kernel} {l r : List Tid} {cpu : Cpu} {t : Tid}

theorem OneCpu.congr (h : OneCpu k l) (hs : SameSched k k') : OneCpu k' l where
  ring := hs.next ▸ h.ring
  null := h.null
  head := hs.head ▸ h.head
  current cpu hc := by
    rw [hs.current] at hc ⊢
    rw [hs.state, hs.assigned]
    exact h.current cpu hc

theorem OneCpu.unique (h : OneCpu k l) {c c' : Cpu} (hc : k.current c ≠ 0)
    (heq : k.current c = k.current c') : c = c' := by
  have h1 := (h.current c hc).2.2
  have h2 := (h.current c' (heq ▸ hc)).2.2
  rw [heq, h2] at h1
  exact (some.inj h1).symm

theorem length_lt_ringFuel (h : (t :: r).Nodup) : r.length < ringFuel := by
  have hnodup : ((t :: r).map UInt32.toFin).Nodup :=
    h.map fun _ _ heq => UInt32.toFin_inj.mp heq
  have hcard := hnodup.length_le_card
  rw [Fintype.card_fin, length_map, length_cons] at hcard
  exact hcard

theorem OneCpu.head_ne (h : OneCpu k l) (ht : t ∈ l) : k.readyHead ∈ l ∧ k.readyHead ≠ 0 := by
  rcases h.head with hhead | ⟨-, rfl⟩
  · exact ⟨hhead, fun h0 => h.null (h0 ▸ hhead)⟩
  · exact absurd ht not_mem_nil

/-- The invariant but for the current task of `cpu`, which no other CPU runs. -/
structure Others (k : Kernel) (l : List Tid) (cpu : Cpu) : Prop where
  ring : Ring k.next l
  null : 0 ∉ l
  head : k.readyHead ∈ l ∨ (k.readyHead = 0 ∧ l = [])
  current : ∀ c, c ≠ cpu → k.current c ≠ 0 → k.current c ∈ l ∧ k.current c ≠ k.current cpu ∧
    (k.tasks (k.current c)).state = .running ∧ (k.tasks (k.current c)).cpuAssigned = some c

theorem Others.congr (h : Others k l cpu) (hs : SameSched k k') : Others k' l cpu where
  ring := hs.next ▸ h.ring
  null := h.null
  head := hs.head ▸ h.head
  current c hne hc := by
    rw [hs.current] at hc ⊢
    rw [hs.state, hs.assigned]
    exact h.current c hne hc

theorem OneCpu.others (h : OneCpu k l) (cpu : Cpu) : Others k l cpu where
  ring := h.ring
  null := h.null
  head := h.head
  current c hne hc := by
    obtain ⟨hmem, hstate, hassigned⟩ := h.current c hc
    exact ⟨hmem, fun heq => hne (h.unique hc heq), hstate, hassigned⟩

theorem Others.setTask (h : Others k l cpu) {f : Task → Task}
    (hf : (f (k.tasks (k.current cpu))).next = (k.tasks (k.current cpu)).next) :
    Others (k.setTask (k.current cpu) f) l cpu where
  ring := by
    rw [Kernel.next_setTask_same hf]
    exact h.ring
  null := h.null
  head := h.head
  current c hne hc := by
    obtain ⟨hmem, hother, hstate, hassigned⟩ := h.current c hne hc
    have htask : (k.setTask (k.current cpu) f).tasks (k.current c) = k.tasks (k.current c) :=
      Kernel.setTask_of_ne hother
    refine ⟨hmem, hother, ?_, ?_⟩
    · exact (congrArg Task.state htask).trans hstate
    · exact (congrArg Task.cpuAssigned htask).trans hassigned

theorem Others.resume (h : Others k l cpu) (hmem : k.current cpu ∈ l) :
    OneCpu (k.resume cpu) l := by
  have h' : Others (k.resume cpu) l cpu := h.setTask rfl
  refine ⟨h'.ring, h'.null, h'.head, fun c hc => ?_⟩
  by_cases hcpu : c = cpu
  · subst hcpu
    have htask : (k.resume c).tasks ((k.resume c).current c) = _ := Kernel.setTask_self
    rw [htask]
    exact ⟨hmem, rfl, rfl⟩
  obtain ⟨hmem, -, hrest⟩ := h'.current c hcpu hc
  exact ⟨hmem, hrest⟩

theorem Others.dispatch (h : Others k l cpu) (ht : t ∈ l) (hstate : (k.tasks t).state ≠ .running) :
    OneCpu (k.dispatch cpu t) l := by
  have hcurrent : (k.dispatch cpu t).current = update k.current cpu t := rfl
  refine ⟨k.next_dispatch cpu t ▸ h.ring, h.null, h.head, fun c hc => ?_⟩
  rw [Kernel.dispatch_tasks]
  rw [hcurrent] at hc ⊢
  by_cases hcpu : c = cpu
  · subst hcpu
    rw [update_self, Kernel.setTask_self]
    exact ⟨ht, rfl, rfl⟩
  rw [update_of_ne hcpu] at hc ⊢
  obtain ⟨hmem, -, hrun, hassigned⟩ := h.current c hcpu hc
  have hne : k.current c ≠ t := by
    intro heq
    rw [heq] at hrun
    exact hstate hrun
  rw [Kernel.setTask_of_ne hne]
  exact ⟨hmem, hrun, hassigned⟩

theorem Others.idle (h : Others k l cpu) (dir : Nat) :
    OneCpu { k with
      current := update k.current cpu 0
      cr3 := update k.cr3 cpu dir } l := by
  refine ⟨h.ring, h.null, h.head, fun c hc => ?_⟩
  by_cases hcpu : c = cpu
  · subst hcpu
    exact absurd (update_self ..) hc
  have hcurrent : update k.current cpu 0 c = k.current c := update_of_ne hcpu ..
  show update k.current cpu 0 c ∈ l ∧
    (k.tasks (update k.current cpu 0 c)).state = .running ∧
    (k.tasks (update k.current cpu 0 c)).cpuAssigned = some c
  change update k.current cpu 0 c ≠ 0 at hc
  rw [hcurrent] at hc ⊢
  obtain ⟨hmem, -, hrest⟩ := h.current c hcpu hc
  exact ⟨hmem, hrest⟩

end

/-! ## Loops along the ring -/

section

variable {k : Kernel} {l r : List Tid} {cpu : Cpu} {t : Tid}

/-- `pick_next_locked` takes the first task behind the current one that it may take, then the
    current one. -/
theorem pickNextLocked_spec (hring : Ring k.next (k.current cpu :: r)) (hcurr : k.current cpu ≠ 0)
    (hhead : k.readyHead ≠ 0) :
    k.pickNextLocked cpu = some (match r.find? (k.pickable cpu) with
      | some t => t
      | none => if k.pickable cpu (k.current cpu) then k.current cpu else 0) := by
  unfold Kernel.pickNextLocked
  rw [if_neg (not_or.mpr ⟨hcurr, hhead⟩), hring.seek_lap (length_lt_ringFuel hring.nodup)]
  cases hfind : r.find? (k.pickable cpu) with
  | none =>
    show (if k.current cpu ≠ k.current cpu then _ else _) = _
    rw [if_neg (not_not.mpr rfl)]
    split <;> rfl
  | some t =>
    have hne : t ≠ k.current cpu := by
      rintro rfl
      exact (nodup_cons.mp hring.nodup).1 (mem_of_find?_eq_some hfind)
    show (if t ≠ k.current cpu then some t else _) = _
    rw [if_pos hne]

theorem firstOf_spec {p : Tid → Bool} (hring : Ring k.next (k.readyHead :: r)) :
    k.firstOf p = some (((k.readyHead :: r).find? p).getD 0) := by
  unfold Kernel.firstOf
  rw [find?_cons]
  cases hp : p k.readyHead with
  | true => rfl
  | false =>
    rw [hring.seek_lap (length_lt_ringFuel hring.nodup)]
    cases hfind : r.find? p with
    | none => exact congrArg some (if_pos rfl)
    | some t =>
      have hne : t ≠ k.readyHead := by
        rintro rfl
        exact (nodup_cons.mp hring.nodup).1 (mem_of_find?_eq_some hfind)
      exact congrArg some (if_neg hne)

theorem pickable_iff : k.pickable cpu t = true ↔ (k.tasks t).state = .ready ∧
    ((k.tasks t).cpuAssigned = none ∨ (k.tasks t).cpuAssigned = some cpu) ∧
    (k.tasks t).kernelEsp ≠ 0 := by
  unfold Kernel.pickable
  simp [and_assoc]

theorem exitPickable_iff {curr : Tid} : k.exitPickable curr t = true ↔ (k.tasks t).state = .ready ∧
    (k.tasks t).cpuAssigned = none ∧ (k.tasks t).kernelEsp ≠ 0 ∧ t ≠ curr := by
  unfold Kernel.exitPickable
  simp [and_assoc]

theorem OneCpu.perm (h : OneCpu k l) (hring : Ring k.next r) (hperm : r.Perm l) : OneCpu k r where
  ring := hring
  null hmem := h.null (hperm.mem_iff.mp hmem)
  head := h.head.imp hperm.mem_iff.mpr fun h0 => ⟨h0.1, (h0.2 ▸ hperm).eq_nil⟩
  current c hc := ⟨hperm.mem_iff.mpr (h.current c hc).1, (h.current c hc).2⟩

section

variable (h : OneCpu k (k.current cpu :: r)) (hcurr : k.current cpu ≠ 0) (esp : UInt32)
  (st : TaskState) (wake : UInt32)
include h hcurr esp st wake

theorem suspend_pick : (k.suspend cpu esp st wake).pickNextLocked cpu =
      some (match r.find? ((k.suspend cpu esp st wake).pickable cpu) with
        | some t => t
        | none => if (k.suspend cpu esp st wake).pickable cpu (k.current cpu) then k.current cpu
          else 0) := by
  have hnext : (k.suspend cpu esp st wake).next = k.next := Kernel.next_setTask_same rfl
  exact pickNextLocked_spec (hnext ▸ h.ring) hcurr (h.head_ne mem_cons_self).2

/-- `task_switch_from` dispatches the first task behind the current one that it may take, or
    goes on with the current one. -/
theorem taskSwitchFrom_ring :
    (∃ t, r.find? ((k.suspend cpu esp st wake).pickable cpu) = some t ∧
      k.taskSwitchFrom cpu esp st wake = some (((k.suspend cpu esp st wake).tasks t).kernelEsp,
        (k.suspend cpu esp st wake).dispatch cpu t)) ∨
    (r.find? ((k.suspend cpu esp st wake).pickable cpu) = none ∧
      k.taskSwitchFrom cpu esp st wake = some (0, (k.suspend cpu esp st wake).resume cpu)) := by
  unfold Kernel.taskSwitchFrom
  rw [if_neg hcurr]
  simp only [suspend_pick h hcurr]
  cases hfind : r.find? ((k.suspend cpu esp st wake).pickable cpu) with
  | some t =>
    have ht := mem_of_find?_eq_some hfind
    have hne : ¬ (t = 0 ∨ t = k.current cpu) := by
      rintro (rfl | rfl)
      · exact h.null (mem_cons_of_mem _ ht)
      · exact (nodup_cons.mp h.ring.nodup).1 ht
    exact .inl ⟨t, rfl, if_neg hne⟩
  | none =>
    refine .inr ⟨rfl, if_pos ?_⟩
    -- the current task, or none: in both cases it goes on
    show (if _ then k.current cpu else 0) = 0 ∨ (if _ then k.current cpu else 0) = k.current cpu
    split
    · exact .inr rfl
    · exact .inl rfl

end

theorem taskSwitchFrom_spec (h : OneCpu k l) (hcurr : k.current cpu ≠ 0) (esp : UInt32)
    (st : TaskState) (wake : UInt32) :
    ∃ r, Ring k.next (k.current cpu :: r) ∧ (k.current cpu :: r).Perm l ∧
      ((∃ t, r.find? ((k.suspend cpu esp st wake).pickable cpu) = some t ∧
          k.taskSwitchFrom cpu esp st wake = some (((k.suspend cpu esp st wake).tasks t).kernelEsp,
            (k.suspend cpu esp st wake).dispatch cpu t)) ∨
        (r.find? ((k.suspend cpu esp st wake).pickable cpu) = none ∧
          k.taskSwitchFrom cpu esp st wake = some (0, (k.suspend cpu esp st wake).resume cpu))) := by
  obtain ⟨r, hring, hperm⟩ := h.ring.from (h.current cpu hcurr).1
  exact ⟨r, hring, hperm, taskSwitchFrom_ring (h.perm hring hperm) hcurr esp st wake⟩

/-- The pick of a CPU that suspends its task is none, that task, or a task of the ring that the CPU
    may take. -/
theorem suspend_pickNextLocked (h : OneCpu k l) (hcurr : k.current cpu ≠ 0) (esp : UInt32)
    (st : TaskState) (wake : UInt32) :
    ∃ n, (k.suspend cpu esp st wake).pickNextLocked cpu = some n ∧ (n = 0 ∨ n = k.current cpu ∨
      (n ∈ l ∧ n ≠ k.current cpu ∧ (k.tasks n).state = .ready ∧
        ((k.tasks n).cpuAssigned = none ∨ (k.tasks n).cpuAssigned = some cpu))) := by
  obtain ⟨r, hring, hperm⟩ := h.ring.from (h.current cpu hcurr).1
  rw [suspend_pick (h.perm hring hperm) hcurr]
  refine ⟨_, rfl, ?_⟩
  cases hfind : r.find? ((k.suspend cpu esp st wake).pickable cpu) with
  | some n =>
    right; right
    have hn := mem_of_find?_eq_some hfind
    have hne : n ≠ k.current cpu := by
      rintro rfl
      exact (nodup_cons.mp hring.nodup).1 hn
    have htask : (k.suspend cpu esp st wake).tasks n = k.tasks n := Kernel.setTask_of_ne hne
    obtain ⟨hready, hassigned, -⟩ := pickable_iff.mp (find?_some hfind)
    rw [htask] at hready hassigned
    exact ⟨hperm.mem_iff.mp (mem_cons_of_mem _ hn), hne, hready, hassigned⟩
  | none =>
    show (if _ then k.current cpu else 0) = 0 ∨ (if _ then k.current cpu else 0) = _ ∨ _
    split
    · exact .inr (.inl rfl)
    · exact .inl rfl

theorem taskSwitchFrom_keeps (h : OneCpu k l) (cpu : Cpu) (esp : UInt32) (st : TaskState)
    (wake : UInt32) : ∃ r k', k.taskSwitchFrom cpu esp st wake = some (r, k') ∧ OneCpu k' l := by
  by_cases hcurr : k.current cpu = 0
  · refine ⟨0, k, ?_, h⟩
    unfold Kernel.taskSwitchFrom
    rw [if_pos hcurr]
  have hsusp : Others (k.suspend cpu esp st wake) l cpu := (h.others cpu).setTask rfl
  obtain ⟨r, -, hperm, ⟨t, hfind, heq⟩ | ⟨-, heq⟩⟩ := taskSwitchFrom_spec h hcurr esp st wake
  · refine ⟨_, _, heq, hsusp.dispatch ?_ ?_⟩
    · exact hperm.mem_iff.mp (mem_cons_of_mem _ (mem_of_find?_eq_some hfind))
    · rw [(pickable_iff.mp (find?_some hfind)).1]
      decide
  · exact ⟨_, _, heq, hsusp.resume (h.current cpu hcurr).1⟩

end

/-! ## The timer -/

section

variable {k : Kernel} {l r : List Tid} {t : Tid}

/-- The wake-up scan changes BLOCKED tasks only. -/
structure Woken (k k' : Kernel) : Prop where
  next : k'.next = k.next
  head : k'.readyHead = k.readyHead
  current : k'.current = k.current
  tasks : ∀ t, k'.tasks t = k.tasks t ∨
    ((k.tasks t).state = .blocked ∧ k'.tasks t = { k.tasks t with state := .ready, wakeupTick := 0 })

/-- The state after the scan has looked at the tasks `l`. -/
def Kernel.wakeAll (k : Kernel) (l : List Tid) : Kernel :=
  { k with tasks := fun t => if t ∈ l ∧ k.due t = true then
      { k.tasks t with state := .ready, wakeupTick := 0 } else k.tasks t }

theorem wakeAll_tasks (k : Kernel) (l : List Tid) (t : Tid) : (k.wakeAll l).tasks t =
    if t ∈ l ∧ k.due t = true then { k.tasks t with state := .ready, wakeupTick := 0 }
    else k.tasks t := rfl

theorem woken_wakeAll (k : Kernel) (l : List Tid) : Woken k (k.wakeAll l) := by
  refine ⟨funext fun t => ?_, rfl, rfl, fun t => ?_⟩
  · unfold Kernel.next
    rw [wakeAll_tasks]
    split <;> rfl
  · rw [wakeAll_tasks]
    split
    · next hdue =>
      unfold Kernel.due at hdue
      simp only [Bool.and_eq_true, decide_eq_true_eq] at hdue
      exact .inr ⟨hdue.2.1.1, rfl⟩
    · exact .inl rfl

theorem eq_wakeAll {f : Tid → Task} (hf : ∀ u, f u = (k.wakeAll l).tasks u) :
    { k with tasks := f } = k.wakeAll l := by
  rw [funext hf]
  rfl

theorem wakeAll_singleton (k : Kernel) (t : Tid) :
    (if k.due t then k.setTask t fun task => { task with state := .ready, wakeupTick := 0 }
      else k) = k.wakeAll [t] := by
  split
  · next hdue =>
    refine eq_wakeAll fun u => ?_
    by_cases hu : u = t
    · subst hu
      rw [update_self]
      exact (if_pos ⟨mem_singleton_self u, hdue⟩).symm
    rw [update_of_ne hu]
    exact (if_neg fun hmem => hu (mem_singleton.mp hmem.1)).symm
  next hdue =>
  refine eq_wakeAll (f := k.tasks) fun u => (if_neg fun hmem => hdue ?_).symm
  rw [← mem_singleton.mp hmem.1]
  exact hmem.2

theorem wakeAll_cons (ht : t ∉ r) : (k.wakeAll [t]).wakeAll r = k.wakeAll (t :: r) := by
  refine eq_wakeAll (k := k) (f := ((k.wakeAll [t]).wakeAll r).tasks) fun u => ?_
  by_cases hu : u = t
  · subst hu
    simp [wakeAll_tasks, ht]
  have hcount : (k.wakeAll [t]).tickCount = k.tickCount := rfl
  simp [wakeAll_tasks, Kernel.due, hu, hcount]

theorem wakeLoop_spec {start : Tid} {fuel : Nat} (hlinks : Links k.next (t :: r) start)
    (hnodup : (t :: r).Nodup) (hstart : start ∉ r) (hfuel : r.length < fuel) :
    Kernel.wakeLoop start fuel t k = some (k.wakeAll (t :: r)) := by
  induction r generalizing k t fuel with
  | nil =>
    obtain ⟨n, rfl⟩ : ∃ n, fuel = n + 1 := ⟨fuel - 1, by omega⟩
    unfold Kernel.wakeLoop
    rw [wakeAll_singleton]
    exact if_pos hlinks.1
  | cons u r ih =>
    rw [length_cons] at hfuel
    obtain ⟨n, rfl⟩ : ∃ n, fuel = n + 1 := ⟨fuel - 1, by omega⟩
    obtain ⟨hnext, hrest⟩ : k.next t = u ∧ Links k.next (u :: r) start := hlinks
    obtain ⟨ht, hnodup'⟩ := nodup_cons.mp hnodup
    have hne : k.next t ≠ start := by
      rw [hnext]
      rintro rfl
      exact hstart mem_cons_self
    have heq := ih ((woken_wakeAll k [t]).next ▸ hrest) hnodup'
      (fun hmem => hstart (mem_cons_of_mem u hmem)) (show r.length < n by omega)
    unfold Kernel.wakeLoop
    rw [wakeAll_singleton]
    rw [if_neg hne, hnext, heq, wakeAll_cons ht]

variable {k' : Kernel}

theorem OneCpu.woken (h : OneCpu k l) (hw : Woken k k') : OneCpu k' l where
  ring := hw.next ▸ h.ring
  null := h.null
  head := hw.head ▸ h.head
  current cpu hc := by
    rw [hw.current] at hc ⊢
    obtain ⟨hmem, hrun, hassigned⟩ := h.current cpu hc
    rcases hw.tasks (k.current cpu) with heq | ⟨hblocked, -⟩
    · rw [heq]
      exact ⟨hmem, hrun, hassigned⟩
    rw [hrun] at hblocked
    cases hblocked

theorem OneCpu.of_fields (h : OneCpu k l) (htasks : k'.tasks = k.tasks)
    (hhead : k'.readyHead = k.readyHead) (hcurrent : k'.current = k.current) : OneCpu k' l := by
  have hnext : k'.next = k.next := by
    funext t
    exact congrArg Task.next (congrFun htasks t)
  refine h.congr ⟨hnext, hhead, hcurrent, fun t => ?_, fun t => ?_, fun t => ?_⟩
  · rw [htasks]
  · rw [htasks]
  · rw [htasks]

/-- The tasks that `timer_handler` looks at. -/
def scanned (cpu : Cpu) (locked : Bool) (l : List Tid) : List Tid :=
  if cpu = 0 ∧ locked = true then l else []

theorem timerHandler_eq (h : OneCpu k l) (cpu : Cpu) (locked : Bool) :
    k.timerHandler cpu locked = some
      { (if cpu = 0 then { k with tickCount := k.tickCount + 1 } else k).wakeAll
          (scanned cpu locked l) with
        reschedPending := update k.reschedPending cpu true } := by
  have hnone : ∀ k : Kernel, k.wakeAll [] = k := fun k =>
    (eq_wakeAll (f := k.tasks) fun t => (if_neg fun hmem => not_mem_nil hmem.1).symm).symm
  unfold Kernel.timerHandler scanned
  by_cases h0 : cpu = 0 ∧ locked = true
  · obtain ⟨rfl, rfl⟩ := h0
    simp only [true_and, if_true]
    rcases h.head with hmem | ⟨hzero, rfl⟩
    · obtain ⟨r, hring, hperm⟩ := h.ring.from hmem
      have hloop := wakeLoop_spec (k := { k with tickCount := k.tickCount + 1 }) hring.cons_links
        hring.nodup (nodup_cons.mp hring.nodup).1 (length_lt_ringFuel hring.nodup)
      have h0 : k.readyHead ≠ 0 := (h.head_ne hmem).2
      rw [if_pos h0, hloop]
      simp only [map_some, Kernel.wakeAll, hperm.mem_iff]
    rw [if_neg (not_not.mpr hzero), hnone]
    rfl
  · rw [if_neg h0, hnone]
    simp only [← and_assoc, h0, false_and, if_false, map_some]
    split <;> rfl

theorem timerHandler_woken (h : OneCpu k l) (cpu : Cpu) (locked : Bool) :
    ∃ k', k.timerHandler cpu locked = some k' ∧ Woken k k' := by
  refine ⟨_, timerHandler_eq h cpu locked, ?_⟩
  split
  · obtain ⟨hnext, hhead, hcurrent, htasks⟩ :=
      woken_wakeAll { k with tickCount := k.tickCount + 1 } (scanned cpu locked l)
    exact ⟨hnext, hhead, hcurrent, htasks⟩
  obtain ⟨hnext, hhead, hcurrent, htasks⟩ := woken_wakeAll k (scanned cpu locked l)
  exact ⟨hnext, hhead, hcurrent, htasks⟩

end

/-! ## Ending tasks -/

section

variable {k : Kernel} {l r : List Tid} {cpu : Cpu} {t : Tid}

theorem SameSched.refl (k : Kernel) : SameSched k k :=
  ⟨rfl, rfl, rfl, fun _ => rfl, fun _ => rfl, fun _ => rfl⟩

theorem SameSched.trans {k' k'' : Kernel} (h : SameSched k k') (h' : SameSched k' k'') :
    SameSched k k'' where
  next := h'.next.trans h.next
  head := h'.head.trans h.head
  current := h'.current.trans h.current
  state t := (h'.state t).trans (h.state t)
  assigned t := (h'.assigned t).trans (h.assigned t)
  esp t := (h'.esp t).trans (h.esp t)

theorem sameSched_setTask (k : Kernel) (t : Tid) {f : Task → Task} (vm : Vm)
    (hnext : (f (k.tasks t)).next = (k.tasks t).next)
    (hstate : (f (k.tasks t)).state = (k.tasks t).state)
    (hassigned : (f (k.tasks t)).cpuAssigned = (k.tasks t).cpuAssigned)
    (hesp : (f (k.tasks t)).kernelEsp = (k.tasks t).kernelEsp) :
    SameSched k { k.setTask t f with vm := vm } :=
  ⟨Kernel.next_setTask_same hnext, rfl, rfl, Kernel.setTask_field _ hstate,
    Kernel.setTask_field _ hassigned, Kernel.setTask_field _ hesp⟩

theorem sameSched_releaseDir (k : Kernel) (t : Tid) (dir : Nat) :
    SameSched k (k.releaseDir t dir) := by
  unfold Kernel.releaseDir
  split
  · exact sameSched_setTask k t _ rfl rfl rfl rfl
  · exact .refl k

theorem sameSched_releaseStack (k : Kernel) (t : Tid) : SameSched k (k.releaseStack t) := by
  unfold Kernel.releaseStack
  split
  · exact sameSched_setTask k t _ rfl rfl rfl rfl
  · exact .refl k

theorem sameSched_freeTaskResources (k : Kernel) (t : Tid) :
    SameSched k (k.freeTaskResources t) :=
  (sameSched_releaseDir k t _).trans (sameSched_releaseStack _ t)

theorem unlink_spec (h : OneCpu k l) (hring : Ring k.next (t :: r)) (hperm : (t :: r).Perm l)
    (hstate : (k.tasks t).state ≠ .running) :
    ∃ k', k.unlink t = some k' ∧ OneCpu k' r ∧ t ∉ r := by
  obtain ⟨htr, -⟩ := nodup_cons.mp hring.nodup
  have hnull : 0 ∉ r := fun hmem => h.null (hperm.mem_iff.mp (mem_cons_of_mem t hmem))
  have hcurrent : ∀ c, k.current c ≠ 0 → k.current c ∈ r ∧
      (k.tasks (k.current c)).state = .running ∧ (k.tasks (k.current c)).cpuAssigned = some c := by
    intro c hc
    obtain ⟨hmem, hrun, hassigned⟩ := h.current c hc
    refine ⟨(mem_cons.mp (hperm.mem_iff.mpr hmem)).resolve_left fun heq => ?_, hrun, hassigned⟩
    rw [heq] at hrun
    exact hstate hrun
  unfold Kernel.unlink
  rcases List.eq_nil_or_concat r with rfl | ⟨m, p, rfl⟩
  · -- the only task
    have hself : k.next t = t := hring.cons_links.1
    rw [if_pos hself]
    refine ⟨_, rfl, ⟨⟨nodup_nil, fun a ha => absurd ha (by simp)⟩, hnull, .inr ⟨rfl, rfl⟩,
      fun c hc => ?_⟩, htr⟩
    exact absurd (hcurrent c hc).1 not_mem_nil
  rw [List.concat_eq_append] at hring hperm htr hnull hcurrent ⊢
  have hhead : k.next t = (m ++ [p]).headD t := hring.cons_links.1
  have hbehind : k.next t ∈ m ++ [p] := by
    rw [hhead]
    cases m <;> simp
  have hnself : k.next t ≠ t := fun heq => htr (heq ▸ hbehind)
  have hp : p ≠ t := by
    rintro rfl
    exact htr (mem_append_right _ mem_cons_self)
  have hprev := hring.seek_prev (show m.length + 1 < ringFuel by
    have := length_lt_ringFuel hring.nodup
    simpa using this)
  rw [if_neg hnself, hprev]
  have hnext : (k.setTask p fun task => { task with next := k.next t }).next
      = update k.next p (k.next t) := Kernel.next_setTask
  have htasks : ∀ c, k.current c ≠ 0 → k.current c ∈ m ++ [p] ∧
      ((k.setTask p fun task => { task with next := k.next t }).tasks (k.current c)).state = .running ∧
      ((k.setTask p fun task => { task with next := k.next t }).tasks (k.current c)).cpuAssigned
        = some c := by
    intro c hc
    rw [Kernel.setTask_field Task.state (by rfl), Kernel.setTask_field Task.cpuAssigned (by rfl)]
    exact hcurrent c hc
  have hrest : Ring (k.setTask p fun task => { task with next := k.next t }).next (m ++ [p]) := by
    rw [hnext]
    exact hring.remove
  refine ⟨_, rfl, ?_, htr⟩
  show OneCpu (if k.readyHead = t then _ else _) (m ++ [p])
  split
  · refine ⟨hrest, hnull, .inl ?_, htasks⟩
    rw [hnext, update_of_ne hp.symm]
    exact hbehind
  next hne =>
  refine ⟨hrest, hnull, .inl ?_, htasks⟩
  have hmem := (h.head_ne (hperm.mem_iff.mp mem_cons_self)).1
  exact (mem_cons.mp (hperm.mem_iff.mpr hmem)).resolve_left hne

theorem OneCpu.setTask_outside (h : OneCpu k l) (ht : t ∉ l) (f : Task → Task) :
    OneCpu (k.setTask t f) l where
  ring := by
    rw [Kernel.next_setTask]
    refine ⟨h.ring.nodup, fun a ha => (h.ring.links a ha).congr fun b hb => ?_⟩
    have hbt : b ≠ t := by
      rintro rfl
      exact ht hb
    exact update_of_ne hbt ..
  null := h.null
  head := h.head
  current c hc := by
    obtain ⟨hmem, hrest⟩ := h.current c hc
    have hne : k.current c ≠ t := by
      intro heq
      rw [heq] at hmem
      exact ht hmem
    have htask : (k.setTask t f).tasks (k.current c) = k.tasks (k.current c) :=
      Kernel.setTask_of_ne hne
    show k.current c ∈ l ∧ ((k.setTask t f).tasks (k.current c)).state = _ ∧
      ((k.setTask t f).tasks (k.current c)).cpuAssigned = _
    rw [htask]
    exact ⟨hmem, hrest⟩

/-- The task that `task_kill` takes out of the ring, if it does. -/
def Kernel.victim (k : Kernel) (pid : UInt32) : Option Tid :=
  if k.readyHead = 0 then none
  else
    (k.firstOf fun t => decide ((k.tasks t).pid = pid)).filter fun t =>
      decide (t ≠ 0 ∧ (k.tasks t).state ≠ .running)

theorem taskKill_spec (h : OneCpu k l) (pid : UInt32) :
    (k.victim pid = none ∧ ∃ r, k.taskKill pid = some (r, k)) ∨
      ∃ t r k1, k.victim pid = some t ∧ (k.tasks t).state ≠ .running ∧ (t :: r).Perm l ∧ t ∉ r ∧
        k.unlink t = some k1 ∧ OneCpu k1 r ∧
        k.taskKill pid = some (0, ((k1.setTask t fun task =>
          { task with state := .free, cpuAssigned := none }).releaseDir t 0).releaseStack t) := by
  unfold Kernel.taskKill Kernel.victim
  by_cases hhead : k.readyHead = 0
  · rw [if_pos hhead, if_pos hhead]
    exact .inl ⟨rfl, _, rfl⟩
  rw [if_neg hhead, if_neg hhead]
  have hmem : k.readyHead ∈ l := h.head.resolve_right fun h0 => hhead h0.1
  obtain ⟨r, hring, hperm⟩ := h.ring.from hmem
  rw [firstOf_spec hring]
  cases hfind : (k.readyHead :: r).find? fun t => decide ((k.tasks t).pid = pid) with
  | none => exact .inl ⟨rfl, _, if_pos rfl⟩
  | some t =>
    have ht : t ∈ l := hperm.mem_iff.mp (mem_of_find?_eq_some hfind)
    have ht0 : t ≠ 0 := fun h0 => h.null (h0 ▸ ht)
    simp only [getD_some]
    rw [if_neg ht0]
    by_cases hstate : (k.tasks t).state = .running
    · rw [if_pos hstate]
      exact .inl ⟨Option.filter_some_neg (by simp [hstate]), _, rfl⟩
    rw [if_neg hstate]
    obtain ⟨r', hring', hperm'⟩ := h.ring.from ht
    obtain ⟨k', heq, hk', htr⟩ := unlink_spec h hring' hperm' hstate
    rw [heq]
    exact .inr ⟨t, r', k', Option.filter_some_pos (by simp [ht0, hstate]), hstate, hperm', htr,
      heq, hk', rfl⟩

theorem taskKill_keeps (h : OneCpu k l) (pid : UInt32) :
    ∃ r k' l', k.taskKill pid = some (r, k') ∧ OneCpu k' l' := by
  rcases taskKill_spec h pid with ⟨-, r, heq⟩ | ⟨t, r, k1, -, -, -, htr, -, hk1, heq⟩
  · exact ⟨r, k, l, heq, h⟩
  have hfreed := hk1.setTask_outside htr
    fun task => { task with state := .free, cpuAssigned := none }
  exact ⟨_, _, r, heq,
    (hfreed.congr (sameSched_releaseDir _ t 0)).congr (sameSched_releaseStack _ t)⟩

/-- `SYS_EXIT` dispatches the first task of the ring that it may take, or leaves the CPU
    without one. -/
theorem sysExit_spec (h : OneCpu k l) (hcurr : k.current cpu ≠ 0) :
    ∃ k1 r, SameSched k k1 ∧ Ring k.next (k.readyHead :: r) ∧ (k.readyHead :: r).Perm l ∧
      let k2 := k1.setTask (k.current cpu) fun task => { task with state := .free, cpuAssigned := none }
      ((∃ t, (k.readyHead :: r).find? (k2.exitPickable (k.current cpu)) = some t ∧
          k.sysExit cpu = some ((k2.tasks t).kernelEsp, k2.dispatch cpu t)) ∨
        ((k.readyHead :: r).find? (k2.exitPickable (k.current cpu)) = none ∧
          k.sysExit cpu = some (0, { k2 with
            current := update k2.current cpu 0
            cr3 := update k2.cr3 cpu k2.vm.kernelDir }))) := by
  obtain ⟨hhead, hhead0⟩ := h.head_ne (h.current cpu hcurr).1
  obtain ⟨r, hring, hperm⟩ := h.ring.from hhead
  have hs := sameSched_freeTaskResources k (k.current cpu)
  refine ⟨k.freeTaskResources (k.current cpu), r, hs, hring, hperm, ?_⟩
  unfold Kernel.sysExit
  rw [if_neg hcurr]
  generalize k.freeTaskResources (k.current cpu) = k1 at hs ⊢
  intro k2
  have hnext : k2.next = k.next := (Kernel.next_setTask_same rfl).trans hs.next
  have hk2head : k2.readyHead = k.readyHead := hs.head
  have hfirst : (if k2.readyHead = 0 then some 0 else k2.firstOf (k2.exitPickable (k.current cpu)))
      = some (((k.readyHead :: r).find? (k2.exitPickable (k.current cpu))).getD 0) := by
    rw [if_neg (hk2head ▸ hhead0), ← hk2head]
    exact firstOf_spec (by rw [hnext, hk2head]; exact hring)
  simp only [k2] at hfirst ⊢
  simp only [hfirst]
  cases hfind : (k.readyHead :: r).find? (k2.exitPickable (k.current cpu)) with
  | some t =>
    have ht0 : t ≠ 0 := by
      rintro rfl
      exact h.null (hperm.mem_iff.mp (mem_of_find?_eq_some hfind))
    exact .inl ⟨t, rfl, if_neg ht0⟩
  | none => exact .inr ⟨rfl, if_pos rfl⟩

theorem sysExit_keeps (h : OneCpu k l) (cpu : Cpu) :
    ∃ r k', k.sysExit cpu = some (r, k') ∧ OneCpu k' l := by
  by_cases hcurr : k.current cpu = 0
  · refine ⟨0, k, ?_, h⟩
    unfold Kernel.sysExit
    rw [if_pos hcurr]
  obtain ⟨k1, r, hs, -, hperm, hcases⟩ := sysExit_spec h hcurr
  have hothers : Others k1 l cpu := (h.others cpu).congr hs
  have hended := hothers.setTask (f := fun task => { task with state := .free, cpuAssigned := none })
    rfl
  rw [hs.current] at hended
  rcases hcases with ⟨t, hfind, heq⟩ | ⟨-, heq⟩
  · refine ⟨_, _, heq, hended.dispatch (hperm.mem_iff.mp (mem_of_find?_eq_some hfind)) ?_⟩
    rw [(exitPickable_iff.mp (find?_some hfind)).1]
    decide
  · exact ⟨_, _, heq, hended.idle _⟩

end

/-! ## Linking in -/

section

variable {k : Kernel} {l : List Tid} {t : Tid}

/-- The task is met by following `next` from `ready_head`. -/
def OnRing (k : Kernel) (t : Tid) : Prop := k.readyHead ≠ 0 ∧ ∃ n, k.next^[n] k.readyHead = t

theorem OneCpu.onRing_of_mem (h : OneCpu k l) (ht : t ∈ l) : OnRing k t := by
  obtain ⟨hmem, hne⟩ := h.head_ne ht
  obtain ⟨r, hring, hperm⟩ := h.ring.from hmem
  exact ⟨hne, hring.exists_iterate (hperm.mem_iff.mpr ht)⟩

theorem enqueue_field {α : Type*} (g : Task → α) (hg : ∀ task next, g { task with next } = g task)
    (k : Kernel) (t u : Tid) : g ((k.enqueue t).tasks u) = g (k.tasks u) := by
  have hlink : ∀ (k : Kernel) (v : Tid) (next : Tid),
      g ((k.setTask v fun task => { task with next }).tasks u) = g (k.tasks u) :=
    fun k v next => Kernel.setTask_field g (hg (k.tasks v) next) u
  unfold Kernel.enqueue
  split
  · exact hlink k t t
  · exact (hlink _ _ t).trans (hlink k t _)

theorem enqueue_vm (k : Kernel) (t : Tid) : (k.enqueue t).vm = k.vm := by
  unfold Kernel.enqueue
  split <;> rfl

theorem enqueue_keeps (h : OneCpu k l) (ht0 : t ≠ 0) (ht : t ∉ l) :
    ∃ l', OneCpu (k.enqueue t) l' ∧ l'.Perm (t :: l) := by
  unfold Kernel.enqueue
  split
  · next hhead =>
    -- the first task of the ring
    have hl : l = [] := by
      rcases h.head with hmem | ⟨-, hnil⟩
      · rw [hhead] at hmem
        exact absurd hmem h.null
      · exact hnil
    subst hl
    have hnext : (k.setTask t fun task => { task with next := t }).next t = t := by
      rw [Kernel.next_setTask, update_self]
    refine ⟨[t], ⟨ring_cons (List.nodup_singleton t) ⟨hnext, trivial⟩, ?_, .inl ?_, fun c hc => ?_⟩,
      .refl [t]⟩
    · rw [mem_singleton]
      exact ht0.symm
    · exact mem_singleton_self t
    · exact absurd (h.current c hc).1 not_mem_nil
  next hhead =>
  have hmem : k.readyHead ∈ l := h.head.resolve_right fun h0 => hhead h0.1
  obtain ⟨r, hring, hperm⟩ := h.ring.from hmem
  have htr : t ∉ k.readyHead :: r := fun hin => ht (hperm.mem_iff.mp hin)
  have hins := hring.insert htr
  have hnext : ((k.setTask t fun task => { task with next := k.next k.readyHead }).setTask
      k.readyHead fun task => { task with next := t }).next
      = update (update k.next t (k.next k.readyHead)) k.readyHead t := by
    rw [Kernel.next_setTask, Kernel.next_setTask]
  refine ⟨k.readyHead :: t :: r, ⟨?_, ?_, .inl mem_cons_self, fun c hc => ?_⟩,
    (List.Perm.swap ..).trans (hperm.cons t)⟩
  · show Ring ((k.setTask t _).setTask k.readyHead _).next _
    rw [hnext]
    exact hins
  · rw [mem_cons, mem_cons, not_or, not_or]
    refine ⟨fun h0 => hhead h0.symm, ht0.symm, fun h0 => ?_⟩
    exact h.null (hperm.mem_iff.mp (mem_cons_of_mem _ h0))
  · obtain ⟨hin, hrun, hassigned⟩ := h.current c hc
    refine ⟨?_, ?_, ?_⟩
    · rcases mem_cons.mp (hperm.mem_iff.mpr hin) with heq | hin'
      · exact heq ▸ mem_cons_self
      · exact mem_cons_of_mem _ (mem_cons_of_mem _ hin')
    · refine Eq.trans ?_ hrun
      exact (Kernel.setTask_field Task.state rfl _).trans (Kernel.setTask_field Task.state rfl _)
    · refine Eq.trans ?_ hassigned
      exact (Kernel.setTask_field Task.cpuAssigned rfl _).trans
        (Kernel.setTask_field Task.cpuAssigned rfl _)

end

/-! ## Whole runs -/

/-- The sections under the lock, on any CPU. -/
inductive SchedOp where
  /-- `task_create` or `elf_exec` links in the task it has set up. -/
  | enqueue (t : Tid) (task : Task)
  | switchTick (cpu : Cpu) (esp : UInt32)
  | yield (cpu : Cpu) (esp : UInt32)
  | blockAndSwitch (cpu : Cpu) (esp wakeupTick : UInt32)
  | timer (cpu : Cpu) (locked : Bool)
  | reschedIpi (cpu : Cpu)
  | kill (pid : UInt32)
  | exit (cpu : Cpu)

/-- The state after a section, `none` if it does not end. -/
def SchedOp.run : SchedOp → Kernel → Option Kernel
  | .enqueue t task, k => some ((k.setTask t fun _ => task).enqueue t)
  | .switchTick cpu esp, k => (k.taskSwitchTick cpu esp).map Prod.snd
  | .yield cpu esp, k => (k.taskYield cpu esp).map Prod.snd
  | .blockAndSwitch cpu esp wakeupTick, k => (k.taskBlockAndSwitch cpu esp wakeupTick).map Prod.snd
  | .timer cpu locked, k => k.timerHandler cpu locked
  | .reschedIpi cpu, k =>
    some { k with reschedPending := Function.update k.reschedPending cpu true }
  | .kill pid, k => (k.taskKill pid).map Prod.snd
  | .exit cpu, k => (k.sysExit cpu).map Prod.snd

def schedStep (op : SchedOp) (k : Kernel) : Kernel := (op.run k).getD k

/-- A task that is linked in is a new one. -/
def SchedAllowed : SchedOp → Kernel → Prop
  | .enqueue t task, k =>
    t ≠ 0 ∧ ¬ OnRing k t ∧ task.state = .ready ∧ task.cpuAssigned = none
  | _, _ => True

/-- Every section ends, and keeps the invariant. -/
theorem sched_keeps {k : Kernel} {l : List Tid} (h : OneCpu k l) (op : SchedOp)
    (hop : SchedAllowed op k) : ∃ k' l', op.run k = some k' ∧ OneCpu k' l' := by
  have hswitch : ∀ (k : Kernel), OneCpu k l → ∀ cpu esp st wake, ∃ k' l',
      (k.taskSwitchFrom cpu esp st wake).map Prod.snd = some k' ∧ OneCpu k' l' := by
    intro k h cpu esp st wake
    obtain ⟨r, k', heq, hk'⟩ := taskSwitchFrom_keeps h cpu esp st wake
    rw [heq]
    exact ⟨k', l, rfl, hk'⟩
  cases op with
  | enqueue t task =>
    have ht : t ∉ l := fun hmem => hop.2.1 (h.onRing_of_mem hmem)
    obtain ⟨l', hl', -⟩ := enqueue_keeps (h.setTask_outside ht fun _ => task) hop.1 ht
    exact ⟨_, l', rfl, hl'⟩
  | switchTick cpu esp =>
    show ∃ k' l', (k.taskSwitchTick cpu esp).map Prod.snd = some k' ∧ OneCpu k' l'
    unfold Kernel.taskSwitchTick
    split
    · exact ⟨k, l, rfl, h⟩
    split
    · exact ⟨k, l, rfl, h⟩
    have hflag : OneCpu
        { k with reschedPending := update k.reschedPending cpu false } l :=
      h.of_fields rfl rfl rfl
    exact hswitch _ hflag cpu esp _ _
  | yield cpu esp => exact hswitch k h cpu esp _ _
  | blockAndSwitch cpu esp wakeupTick => exact hswitch k h cpu esp _ _
  | timer cpu locked =>
    obtain ⟨k', heq, hwoken⟩ := timerHandler_woken h cpu locked
    exact ⟨k', l, heq, h.woken hwoken⟩
  | reschedIpi cpu => exact ⟨_, l, rfl, h.of_fields rfl rfl rfl⟩
  | kill pid =>
    obtain ⟨r, k', l', heq, hk'⟩ := taskKill_keeps h pid
    show ∃ k'' l'', (k.taskKill pid).map Prod.snd = some k'' ∧ OneCpu k'' l''
    rw [heq]
    exact ⟨k', l', rfl, hk'⟩
  | exit cpu =>
    obtain ⟨r, k', heq, hk'⟩ := sysExit_keeps h cpu
    show ∃ k'' l'', (k.sysExit cpu).map Prod.snd = some k'' ∧ OneCpu k'' l''
    rw [heq]
    exact ⟨k', l, rfl, hk'⟩

theorem oneCpu_of_reach {k0 k : Kernel} (h0 : ∃ l, OneCpu k0 l)
    (hk : Reach schedStep SchedAllowed k0 k) : ∃ l, OneCpu k l := by
  refine hk.invariant (fun k => ∃ l, OneCpu k l) h0 fun op k h hop => ?_
  obtain ⟨l, h⟩ := h
  obtain ⟨k', l', heq, hk'⟩ := sched_keeps h op hop
  refine ⟨l', ?_⟩
  unfold schedStep
  rw [heq]
  exact hk'

/-- From a state in which the tasks form one ring with `ready_head` and the current tasks on
    it, each RUNNING and assigned to its CPU, every interleaving of the sections leads to
    such a state: the ring has no repeats (it is empty only when `ready_head` is NULL and no
    CPU has a task), no task is current on two CPUs, and every section ends. -/
theorem one_cpu_per_task (k₀ : Kernel) (l₀ : List Tid) (h₀ : OneCpu k₀ l₀) (k : Kernel)
    (hk : Reach schedStep SchedAllowed k₀ k) :
    (∃ l, l.Nodup ∧ Ring k.next l ∧ (k.readyHead ∈ l ∨ (k.readyHead = 0 ∧ l = [])) ∧
      ∀ cpu, k.current cpu ≠ 0 → k.current cpu ∈ l ∧
        (k.tasks (k.current cpu)).state = .running ∧
        (k.tasks (k.current cpu)).cpuAssigned = some cpu) ∧
    (∀ c c', k.current c ≠ 0 → k.current c = k.current c' → c = c') ∧
    ∀ op, SchedAllowed op k → (op.run k).isSome := by
  obtain ⟨l, h⟩ := oneCpu_of_reach ⟨l₀, h₀⟩ hk
  refine ⟨⟨l, h.ring.nodup, h.ring, h.head, h.current⟩, fun c c' => h.unique, fun op hop => ?_⟩
  obtain ⟨k', l', heq, -⟩ := sched_keeps h op hop
  rw [heq]
  rfl

/-- Two tasks, at 0x1000 and 0x2000; the first runs on CPU 0. -/
def twoTasks : Kernel where
  vm := ⟨fun _ => 0, ⟨fun _ => 0, 0⟩, 0⟩
  tasks t :=
    if t = 0x1000 then ⟨1, .running, some 0, 0, 0x5000, 0x4000, 0, 0x2000⟩
    else ⟨2, .ready, none, 0, 0x9000, 0x8000, 0, 0x1000⟩
  readyHead := 0x1000
  nextPid := 3
  current cpu := if cpu = 0 then 0x1000 else 0
  reschedPending _ := false
  tickCount := 0
  cr3 _ := 0
  esp0 _ := 0

theorem oneCpu_twoTasks : OneCpu twoTasks [0x1000, 0x2000] where
  ring := ring_cons (by decide) ⟨by decide, by decide, trivial⟩
  null := by decide
  head := .inl (by decide)
  current cpu hc := by
    by_cases h0 : cpu = 0
    · subst h0
      decide
    · exact absurd (if_neg h0) hc

/-- After the first yields, a task is current on CPU 0, and on no other. -/
theorem one_cpu_per_task_yield :
    (schedStep (.yield 0 0x5000) twoTasks).current 0 = 0x2000 ∧
      ∀ c, (schedStep (.yield 0 0x5000) twoTasks).current c = 0x2000 → 0 = c := by
  have hcurrent : (schedStep (.yield 0 0x5000) twoTasks).current 0 = 0x2000 := by decide
  obtain ⟨-, hunique, -⟩ := one_cpu_per_task twoTasks _ oneCpu_twoTasks _
    (.next (SchedOp.yield 0 0x5000) .start trivial)
  refine ⟨hcurrent, fun c hc => hunique 0 c ?_ (hcurrent.trans hc.symm)⟩
  rw [hcurrent]
  decide

export Kernel (setTask_self setTask_of_ne dispatch_tasks)

end Noverix.Sched
