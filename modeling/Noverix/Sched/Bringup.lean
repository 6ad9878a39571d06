/-
  Starting a CPU (ap_main of kernel/ap_startup.c, the end of kernel_main).

  A CPU that starts makes its idle task in two steps: `task_create` links it into
  the ring, READY and for any CPU, and then stores without the lock make it the
  CPU's own.  In between every other CPU may take it.
-/

import Noverix.Sched.Effects

namespace Noverix.Sched

open Lib

/-! ## The steps -/

/-- The kernel, and for each CPU the idle task it has created, 0 for none, and whether it has yet
    to make that task its own. -/
structure Bringup where
  k : Kernel
  idle : Cpu → Tid
  pending : Cpu → Bool

/-- What CPUs that start do, and the sections of CPUs that have a task. -/
inductive BringupOp where
  /-- `task_create(task_idle_loop)` links in the CPU's idle task. -/
  | create (cpu : Cpu) (t : Tid) (task : Task)
  /-- The unlocked stores that follow. -/
  | claim (cpu : Cpu)
  /-- `task_create` for another task, such as the shell. -/
  | spawn (t : Tid) (task : Task)
  | timer (cpu : Cpu) (locked : Bool)
  | tick (cpu : Cpu) (esp : UInt32)
  /-- `task_switch_from`, for a task that yields or blocks. -/
  | switch (cpu : Cpu) (esp : UInt32) (st : TaskState) (wake : UInt32)

def bringupStep : BringupOp → Bringup → Bringup
  | .create cpu t task, s =>
    -- from here on `pick_next_locked` of any CPU may return the task
    { k := schedStep (.enqueue t task) s.k
      idle := Function.update s.idle cpu t
      pending := Function.update s.pending cpu true }
  | .claim cpu, s =>
    -- `idle->state`, `idle->cpu_assigned` and `current_task`, whatever another CPU has made of them
    { s with
      k := s.k.claim cpu (s.idle cpu)
      pending := Function.update s.pending cpu false }
  | .spawn t task, s => { s with k := schedStep (.enqueue t task) s.k }
  | .timer cpu locked, s => { s with k := schedStep (.timer cpu locked) s.k }
  | .tick cpu esp, s => { s with k := schedStep (.switchTick cpu esp) s.k }
  | .switch cpu esp st wake, s =>
    { s with k := ((s.k.taskSwitchFrom cpu esp st wake).map Prod.snd).getD s.k }

/-- A CPU creates one idle task, while it has no task, and then makes it its own. -/
def BringupAllowed : BringupOp → Bringup → Prop
  | .create cpu t task, s =>
    s.k.current cpu = 0 ∧ s.idle cpu = 0 ∧ SchedAllowed (.enqueue t task) s.k
  | .claim cpu, s => s.pending cpu = true
  | .spawn t task, s => SchedAllowed (.enqueue t task) s.k
  | _, _ => True

/-- What `pick_next_locked` gives to `task_switch_from`. -/
def picks (k : Kernel) (cpu : Cpu) (esp : UInt32) (st : TaskState) (wake : UInt32) : Option Tid :=
  if k.current cpu = 0 then some 0 else (k.suspend cpu esp st wake).pickNextLocked cpu

/-- An idle task that its CPU has not made its own yet is not picked. -/
def NotTaken : BringupOp → Bringup → Prop
  | .tick cpu esp, s => s.k.reschedPending cpu = true →
      ∀ c, s.pending c = true → picks s.k cpu esp .ready 0 ≠ some (s.idle c)
  | .switch cpu esp st wake, s =>
    ∀ c, s.pending c = true → picks s.k cpu esp st wake ≠ some (s.idle c)
  | _, _ => True

/-- An idle task is RUNNING for no CPU but its own, and current on no other. -/
def IdleOwn (s : Bringup) : Prop :=
  ∀ c, s.idle c ≠ 0 →
    ((s.k.tasks (s.idle c)).state = .running → (s.k.tasks (s.idle c)).cpuAssigned = some c) ∧
    ∀ c', s.k.current c' = s.idle c → c' = c

/-! ## The invariant -/

structure BringupInv (s : Bringup) (l : List Tid) : Prop where
  oneCpu : OneCpu s.k l
  mem : ∀ c, s.idle c ≠ 0 → s.idle c ∈ l
  inj : ∀ c c', s.idle c ≠ 0 → s.idle c = s.idle c' → c = c'
  /-- An idle task that is not claimed yet. -/
  waiting : ∀ c, s.pending c = true → s.idle c ≠ 0 ∧ s.k.current c = 0 ∧
    (s.k.tasks (s.idle c)).state = .ready ∧ (s.k.tasks (s.idle c)).cpuAssigned = none
  claimed : ∀ c, s.idle c ≠ 0 → s.pending c = false →
    (s.k.tasks (s.idle c)).cpuAssigned = some c

section

variable {s : Bringup} {k k' : Kernel} {l : List Tid} {cpu : Cpu} {t : Tid}

section

variable (h : BringupInv s l)
include h

theorem BringupInv.idleOwn : IdleOwn s := by
  intro c hidle
  have hown : (s.k.tasks (s.idle c)).state = .running →
      (s.k.tasks (s.idle c)).cpuAssigned = some c := by
    intro hrun
    cases hpending : s.pending c with
    | true =>
      obtain ⟨-, -, hready, -⟩ := h.waiting c hpending
      exact absurd (hready.symm.trans hrun) TaskState.noConfusion
    | false => exact h.claimed c hidle hpending
  refine ⟨hown, fun c' hcurr => ?_⟩
  obtain ⟨-, hrun, hassigned⟩ := h.oneCpu.current c' (hcurr ▸ hidle)
  rw [hcurr] at hrun hassigned
  exact some.inj (hassigned.symm.trans (hown hrun))

theorem BringupInv.switched {next : Tid} (hcurr : s.k.current cpu ≠ 0) (hk' : OneCpu k' l)
    (hsw : Switched s.k cpu next k')
    (hnext : next = s.k.current cpu ∨ (s.k.tasks next).cpuAssigned = none ∨
      (s.k.tasks next).cpuAssigned = some cpu)
    (hnot : ∀ c, s.pending c = true → next ≠ s.idle c) : BringupInv { s with k := k' } l where
  oneCpu := hk'
  mem := h.mem
  inj := h.inj
  waiting c hpending := by
    obtain ⟨hidle, hfree, hready, hnone⟩ := h.waiting c hpending
    have hc : c ≠ cpu := by
      rintro rfl
      exact hcurr hfree
    have hother : s.idle c ≠ s.k.current cpu := by
      intro heq
      have hrun := (h.oneCpu.current cpu hcurr).2.1
      rw [← heq, hready] at hrun
      exact TaskState.noConfusion hrun
    have htask : k'.tasks (s.idle c) = s.k.tasks (s.idle c) :=
      hsw.rest _ hother (hnot c hpending).symm
    refine ⟨hidle, ?_, ?_, ?_⟩
    · show k'.current c = 0
      rw [hsw.current, update_of_ne hc]
      exact hfree
    · exact (congrArg Task.state htask).trans hready
    · exact (congrArg Task.cpuAssigned htask).trans hnone
  claimed c hidle hpending := by
    have hown := h.claimed c hidle hpending
    by_cases hleft : s.idle c = s.k.current cpu
    · -- its own CPU switches away from it
      have hassigned := (h.oneCpu.current cpu hcurr).2.2
      rw [← hleft, hown] at hassigned
      rw [hleft, hsw.left, hassigned]
    by_cases htaken : s.idle c = next
    · rw [htaken] at hleft hown ⊢
      have hcpu : (some c : Option Cpu) = some cpu := by
        rcases hnext.resolve_left hleft with hnone | hsome
        · exact absurd (hown.symm.trans hnone) (some_ne_none c)
        · exact hown.symm.trans hsome
      rw [hsw.taken, hcpu]
    rw [hsw.rest _ hleft htaken]
    exact hown

/-- `task_switch_from`: an idle task stays its CPU's own exactly if the pick is none that waits. -/
theorem BringupInv.switch (cpu : Cpu) (esp : UInt32) (st : TaskState) (wake : UInt32) :
    ∃ k', (s.k.taskSwitchFrom cpu esp st wake).map Prod.snd = some k' ∧
      ((∀ c, s.pending c = true → picks s.k cpu esp st wake ≠ some (s.idle c)) →
        BringupInv { s with k := k' } l) ∧
      (IdleOwn { s with k := k' } →
        ∀ c, s.pending c = true → picks s.k cpu esp st wake ≠ some (s.idle c)) := by
  by_cases hcurr : s.k.current cpu = 0
  · have hpicks : picks s.k cpu esp st wake = some 0 := if_pos hcurr
    refine ⟨s.k, ?_, fun _ => h, fun _ c hpending heq => ?_⟩
    · unfold Kernel.taskSwitchFrom
      rw [if_pos hcurr]
      rfl
    · rw [hpicks] at heq
      exact (h.waiting c hpending).1 (some.inj heq).symm
  obtain ⟨n, next, r, k', hpick, heq, hsw, hcases⟩ :=
    taskSwitchFrom_switched h.oneCpu hcurr esp st wake
  have hpicks : picks s.k cpu esp st wake = some n := (if_neg hcurr).trans hpick
  obtain ⟨r', k'', heq', hk'⟩ := taskSwitchFrom_keeps h.oneCpu cpu esp st wake
  obtain ⟨rfl, rfl⟩ := Prod.mk.inj (some.inj (heq.symm.trans heq'))
  refine ⟨k', by rw [heq]; rfl, fun hnot => ?_, fun hown c hpending hidle' => ?_⟩
  · refine h.switched hcurr hk' hsw ?_ fun c hpending hidle => ?_
    · rcases hcases with ⟨hgo, -⟩ | ⟨rfl, -, -, -, hassigned⟩
      · exact .inl hgo
      · exact .inr hassigned
    · rcases hcases with ⟨hgo, -⟩ | ⟨rfl, -⟩
      · -- the current task is RUNNING, the waiting one is READY
        have hrun := (h.oneCpu.current cpu hcurr).2.1
        rw [← hgo, hidle, (h.waiting c hpending).2.2.1] at hrun
        exact TaskState.noConfusion hrun
      · exact hnot c hpending (hpicks.trans (congrArg some hidle))
  · -- the picked task is the one that waits for CPU c, which has none, and so is not this one
    obtain ⟨hidle, hfree, hready, -⟩ := h.waiting c hpending
    have hn : n = s.idle c := some.inj (hpicks.symm.trans hidle')
    rcases hcases with ⟨-, h0 | hgo⟩ | ⟨rfl, -⟩
    · exact hidle (hn.symm.trans h0)
    · have hrun := (h.oneCpu.current cpu hcurr).2.1
      rw [← hgo, hn, hready] at hrun
      exact TaskState.noConfusion hrun
    have hcpu : cpu = c := by
      refine (hown c hidle).2 cpu ?_
      rw [hsw.current, update_self]
      exact hn
    exact hcurr (hcpu ▸ hfree)

/-- A step that leaves the tasks of the ring with their CPUs and the READY ones READY. -/
theorem BringupInv.keep {l' : List Tid} (hk' : OneCpu k' l') (hcurrent : k'.current = s.k.current)
    (hl : ∀ t ∈ l, t ∈ l')
    (hassigned : ∀ t ∈ l, (k'.tasks t).cpuAssigned = (s.k.tasks t).cpuAssigned)
    (hready : ∀ t ∈ l, (s.k.tasks t).state = .ready → (k'.tasks t).state = .ready) :
    BringupInv { s with k := k' } l' where
  oneCpu := hk'
  mem c hidle := hl _ (h.mem c hidle)
  inj := h.inj
  waiting c hpending := by
    obtain ⟨hidle, hfree, hst, hnone⟩ := h.waiting c hpending
    have hmem := h.mem c hidle
    exact ⟨hidle, (congrFun hcurrent c).trans hfree, hready _ hmem hst,
      (hassigned _ hmem).trans hnone⟩
  claimed c hidle hpending :=
    (hassigned _ (h.mem c hidle)).trans (h.claimed c hidle hpending)

theorem BringupInv.spawn {task : Task} (hop : SchedAllowed (.enqueue t task) s.k) :
    ∃ l', BringupInv { s with k := schedStep (.enqueue t task) s.k } l' ∧
      Linked s.k l t (schedStep (.enqueue t task) s.k) l' := by
  obtain ⟨l', hlinked⟩ := enqueue_linked h.oneCpu hop
  refine ⟨l', h.keep hlinked.oneCpu hlinked.current ?_ hlinked.assigned fun u hu hready => ?_, hlinked⟩
  · exact fun u hu => hlinked.perm.mem_iff.mpr (mem_cons_of_mem t hu)
  · rw [hlinked.state u hu]
    exact hready

/-- The first step of a CPU that starts: its idle task is there, for any CPU. -/
theorem BringupInv.create {task : Task} (hop : BringupAllowed (.create cpu t task) s) :
    ∃ l', BringupInv (bringupStep (.create cpu t task) s) l' := by
  obtain ⟨hfree, hnone, hnew⟩ := hop
  obtain ⟨l', h', hlinked⟩ := h.spawn hnew
  obtain ⟨hready, hassigned⟩ := hlinked.new
  have ht : t ∈ l' := hlinked.perm.mem_iff.mpr mem_cons_self
  -- a task that was not in the ring is the idle task of no CPU
  have hfresh : ∀ c, s.idle c ≠ 0 → s.idle c ≠ t := by
    intro c hidle heq
    exact hlinked.fresh (heq ▸ h.mem c hidle)
  have ht0 : t ≠ 0 := hnew.1
  refine ⟨l', h'.oneCpu, fun c hidle => ?_, fun c c' hidle heq => ?_, fun c hpending => ?_,
    fun c hidle hpending => ?_⟩
  · change update s.idle cpu t c ≠ 0 at hidle
    show update s.idle cpu t c ∈ l'
    by_cases hc : c = cpu
    · rw [hc, update_self]
      exact ht
    rw [update_of_ne hc] at hidle ⊢
    exact h'.mem c hidle
  · change update s.idle cpu t c ≠ 0 at hidle
    change update s.idle cpu t c = update s.idle cpu t c' at heq
    by_cases hc : c = cpu <;> by_cases hc' : c' = cpu
    · exact hc.trans hc'.symm
    · rw [hc, update_self, update_of_ne hc'] at heq
      exact absurd heq.symm (hfresh c' (heq ▸ ht0))
    · rw [hc', update_self, update_of_ne hc] at heq
      exact absurd heq (hfresh c (heq ▸ ht0))
    · rw [update_of_ne hc] at hidle heq
      rw [update_of_ne hc'] at heq
      exact h.inj c c' hidle heq
  · change update s.pending cpu true c = true at hpending
    show update s.idle cpu t c ≠ 0 ∧ (schedStep (.enqueue t task) s.k).current c = 0 ∧
      ((schedStep (.enqueue t task) s.k).tasks (update s.idle cpu t c)).state = .ready ∧
      ((schedStep (.enqueue t task) s.k).tasks (update s.idle cpu t c)).cpuAssigned = none
    by_cases hc : c = cpu
    · rw [hc, update_self, hlinked.current]
      exact ⟨ht0, hfree, hready, hassigned⟩
    rw [update_of_ne hc] at hpending ⊢
    exact h'.waiting c hpending
  · change update s.idle cpu t c ≠ 0 at hidle
    change update s.pending cpu true c = false at hpending
    show ((schedStep (.enqueue t task) s.k).tasks (update s.idle cpu t c)).cpuAssigned = _
    by_cases hc : c = cpu
    · rw [hc, update_self] at hpending
      exact absurd hpending Bool.noConfusion
    rw [update_of_ne hc] at hidle hpending ⊢
    exact h'.claimed c hidle hpending

theorem BringupInv.claim (hpending : s.pending cpu = true) :
    BringupInv (bringupStep (.claim cpu) s) l := by
  obtain ⟨hidle, hfree, hready, hnone⟩ := h.waiting cpu hpending
  have hstate : (s.k.tasks (s.idle cpu)).state ≠ .running := by
    rw [hready]
    exact TaskState.noConfusion
  have hdispatch := (h.oneCpu.others cpu).dispatch (h.mem cpu hidle) hstate
  have htasks : (s.k.claim cpu (s.idle cpu)).tasks
      = (s.k.setTask (s.idle cpu) (Task.runOn cpu)).tasks := rfl
  have hother : ∀ c ≠ cpu, s.idle c ≠ 0 →
      (s.k.claim cpu (s.idle cpu)).tasks (s.idle c) = s.k.tasks (s.idle c) := by
    intro c hc hc0
    rw [htasks]
    exact setTask_of_ne fun heq => hc (h.inj c cpu hc0 heq)
  refine ⟨hdispatch.of_fields rfl rfl rfl, h.mem, h.inj, fun c hp => ?_, fun c hc0 hp => ?_⟩
  · change update s.pending cpu false c = true at hp
    have hc : c ≠ cpu := by
      rintro rfl
      rw [update_self] at hp
      exact Bool.noConfusion hp
    rw [update_of_ne hc] at hp
    obtain ⟨hc0, hcfree, hcready, hcnone⟩ := h.waiting c hp
    refine ⟨hc0, ?_, ?_, ?_⟩
    · exact (update_of_ne hc ..).trans hcfree
    · exact (congrArg Task.state (hother c hc hc0)).trans hcready
    · exact (congrArg Task.cpuAssigned (hother c hc hc0)).trans hcnone
  · change update s.pending cpu false c = false at hp
    show ((s.k.claim cpu (s.idle cpu)).tasks (s.idle c)).cpuAssigned = some c
    by_cases hc : c = cpu
    · rw [hc, htasks, setTask_self]
      rfl
    rw [update_of_ne hc] at hp
    rw [hother c hc hc0]
    exact h.claimed c hc0 hp

theorem BringupInv.timer (cpu : Cpu) (locked : Bool) :
    BringupInv (bringupStep (.timer cpu locked) s) l := by
  obtain ⟨k', heq, hwoken⟩ := timerHandler_woken h.oneCpu cpu locked
  have hstep : schedStep (.timer cpu locked) s.k = k' := congrArg (·.getD s.k) heq
  show BringupInv { s with k := schedStep (.timer cpu locked) s.k } l
  rw [hstep]
  refine h.keep (h.oneCpu.woken hwoken) hwoken.current (fun _ ht => ht) (fun t _ => ?_)
    fun t _ hready => ?_
  · rcases hwoken.tasks t with hsame | ⟨-, hwake⟩
    · rw [hsame]
    · rw [hwake]
  · rcases hwoken.tasks t with hsame | ⟨-, hwake⟩
    · rw [hsame]
      exact hready
    · rw [hwake]

/-- A tick switches like `task_switch_from`, if a reschedule is pending. -/
theorem BringupInv.tick (cpu : Cpu) (esp : UInt32) :
    (NotTaken (.tick cpu esp) s → BringupInv (bringupStep (.tick cpu esp) s) l) ∧
      (IdleOwn (bringupStep (.tick cpu esp) s) → NotTaken (.tick cpu esp) s) := by
  show (_ → BringupInv { s with k := ((s.k.taskSwitchTick cpu esp).map Prod.snd).getD s.k } l) ∧
    (IdleOwn { s with k := ((s.k.taskSwitchTick cpu esp).map Prod.snd).getD s.k } → _)
  unfold Kernel.taskSwitchTick
  split
  · next hcurr =>
    refine ⟨fun _ => h, fun _ _ c hpending heq => ?_⟩
    have hpicks : picks s.k cpu esp .ready 0 = some 0 := if_pos hcurr
    rw [hpicks] at heq
    exact (h.waiting c hpending).1 (some.inj heq).symm
  split
  · next hquiet =>
    refine ⟨fun _ => h, fun _ hresched => ?_⟩
    rw [hquiet] at hresched
    exact absurd hresched Bool.noConfusion
  next hresched =>
  rw [Bool.not_eq_false] at hresched
  let k1 : Kernel := { s.k with reschedPending := update s.k.reschedPending cpu false }
  have h1 : BringupInv { s with k := k1 } l :=
    h.keep (h.oneCpu.of_fields rfl rfl rfl) rfl (fun _ ht => ht) (fun _ _ => rfl)
      fun _ _ hready => hready
  obtain ⟨k', heq, hkeep, htaken⟩ := h1.switch cpu esp .ready 0
  have hstep : (((k1.taskSwitchFrom cpu esp .ready 0).map Prod.snd).getD s.k) = k' :=
    congrArg (·.getD s.k) heq
  rw [hstep]
  exact ⟨fun hnot => hkeep (hnot hresched), fun hown _ => htaken hown⟩

end

end

/-! ## Whole runs -/

/-- Every step keeps the invariant, and an idle task its CPU, exactly if it takes none that waits. -/
theorem bringup_keeps {s : Bringup} {l : List Tid} (h : BringupInv s l) (op : BringupOp)
    (hop : BringupAllowed op s) :
    (NotTaken op s → ∃ l', BringupInv (bringupStep op s) l') ∧
      (IdleOwn (bringupStep op s) → NotTaken op s) := by
  cases op with
  | create cpu t task => exact ⟨fun _ => h.create hop, fun _ => trivial⟩
  | claim cpu => exact ⟨fun _ => ⟨l, h.claim hop⟩, fun _ => trivial⟩
  | spawn t task =>
    obtain ⟨l', h', -⟩ := h.spawn hop
    exact ⟨fun _ => ⟨l', h'⟩, fun _ => trivial⟩
  | timer cpu locked => exact ⟨fun _ => ⟨l, h.timer cpu locked⟩, fun _ => trivial⟩
  | tick cpu esp =>
    obtain ⟨hkeep, htaken⟩ := h.tick cpu esp
    exact ⟨fun hnot => ⟨l, hkeep hnot⟩, htaken⟩
  | switch cpu esp st wake =>
    obtain ⟨k', heq, hkeep, htaken⟩ := h.switch cpu esp st wake
    have hstep : ((s.k.taskSwitchFrom cpu esp st wake).map Prod.snd).getD s.k = k' :=
      congrArg (·.getD s.k) heq
    show (_ → ∃ l', BringupInv
        { s with k := ((s.k.taskSwitchFrom cpu esp st wake).map Prod.snd).getD s.k } l') ∧
      (IdleOwn { s with k := ((s.k.taskSwitchFrom cpu esp st wake).map Prod.snd).getD s.k } → _)
    rw [hstep]
    exact ⟨fun hnot => ⟨l, hkeep hnot⟩, htaken⟩

/-- From a state in which no CPU has an idle task yet, over every interleaving in which no CPU
    picks an idle task before its own CPU has claimed it: an idle task is RUNNING for its own CPU
    only, and current on no other; and the next step keeps that exactly if it makes no such pick. -/
theorem idle_own_iff (s₀ : Bringup) (l₀ : List Tid) (h₀ : OneCpu s₀.k l₀)
    (hnone : ∀ c, s₀.idle c = 0 ∧ s₀.pending c = false) (s : Bringup)
    (hs : Reach bringupStep (fun op s => BringupAllowed op s ∧ NotTaken op s) s₀ s) :
    IdleOwn s ∧ ∀ op, BringupAllowed op s → (IdleOwn (bringupStep op s) ↔ NotTaken op s) := by
  have hstart : ∃ l, BringupInv s₀ l := by
    refine ⟨l₀, h₀, fun c hidle => ?_, fun c _ hidle _ => ?_, fun c hpending => ?_, fun c hidle _ => ?_⟩
    · exact absurd (hnone c).1 hidle
    · exact absurd (hnone c).1 hidle
    · exact absurd ((hnone c).2.symm.trans hpending) Bool.noConfusion
    · exact absurd (hnone c).1 hidle
  obtain ⟨l, h⟩ : ∃ l, BringupInv s l := by
    refine hs.invariant (fun s => ∃ l, BringupInv s l) hstart fun op s hinv hop => ?_
    obtain ⟨l, h⟩ := hinv
    exact (bringup_keeps h op hop.1).1 hop.2
  refine ⟨h.idleOwn, fun op hop => ?_⟩
  obtain ⟨hkeep, htaken⟩ := bringup_keeps h op hop
  refine ⟨htaken, fun hnot => ?_⟩
  obtain ⟨l', h'⟩ := hkeep hnot
  exact h'.idleOwn

/-- The machine before any CPU has a task. -/
def noTasks : Bringup where
  k := { twoTasks with
    tasks := fun _ => Task.blank
    readyHead := 0
    nextPid := 1
    current := fun _ => 0 }
  idle _ := 0
  pending _ := false

/-- The idle task that a CPU creates, with its stack from `stack` on. -/
def idleTask (pid : UInt32) (stack : Nat) : Task :=
  ⟨pid, .ready, none, 0, UInt32.ofNat (stack + taskStackSize - 68), stack, 0, 0⟩

theorem oneCpu_noTasks : OneCpu noTasks.k [] where
  ring := ⟨nodup_nil, fun _ ha => absurd ha (Option.not_mem_none _)⟩
  null := not_mem_nil
  head := .inr ⟨rfl, rfl⟩
  current _ hc := absurd rfl hc

/-- CPU 1 has its idle task, at 0x1000, and runs it. -/
def oneStarted : Bringup :=
  bringupStep (.claim 1) (bringupStep (.create 1 0x1000 (idleTask 1 0x4000)) noTasks)

theorem reach_oneStarted :
    Reach bringupStep (fun op s => BringupAllowed op s ∧ NotTaken op s) noTasks oneStarted := by
  have hcreate : BringupAllowed (.create 1 0x1000 (idleTask 1 0x4000)) noTasks :=
    ⟨rfl, rfl, by decide, fun hring => hring.1 rfl, rfl, rfl⟩
  have hclaim : BringupAllowed (.claim 1)
      (bringupStep (.create 1 0x1000 (idleTask 1 0x4000)) noTasks) :=
    show update noTasks.pending 1 true 1 = true from update_self ..
  exact .next (BringupOp.claim 1) (.next (BringupOp.create 1 0x1000 (idleTask 1 0x4000)) .start
    ⟨hcreate, trivial⟩) ⟨hclaim, trivial⟩

theorem idle_own_iff_oneStarted : IdleOwn oneStarted :=
  (idle_own_iff noTasks [] oneCpu_noTasks (fun _ => ⟨rfl, rfl⟩) oneStarted reach_oneStarted).1

theorem oneStarted_new : ¬ OnRing oneStarted.k 0x2000 := by
  rintro ⟨-, n, hn⟩
  have hself : oneStarted.k.next 0x1000 = 0x1000 := by decide
  have hhead : oneStarted.k.readyHead = 0x1000 := by decide
  rw [hhead, Function.iterate_fixed hself] at hn
  contradiction

/-- CPU 0 creates its idle task, at 0x2000.  A timer interrupt on CPU 1 before CPU 0 claims it takes
    the task, and in the end it is current on both. -/
theorem oneStarted_takes_idle :
    (BringupAllowed (.create 0 0x2000 (idleTask 2 0x8000)) oneStarted) ∧
    (let s := bringupStep (.tick 1 0x7f00) (bringupStep (.timer 1 true)
        (bringupStep (.create 0 0x2000 (idleTask 2 0x8000)) oneStarted));
      ¬ IdleOwn s ∧ s.idle 0 = 0x2000 ∧ s.pending 0 = true ∧
      (s.k.tasks 0x2000).state = .running ∧ (s.k.tasks 0x2000).cpuAssigned = some 1 ∧
      (bringupStep (.claim 0) s).k.current 0 = 0x2000 ∧
      (bringupStep (.claim 0) s).k.current 1 = 0x2000) := by
  refine ⟨⟨rfl, rfl, by decide, oneStarted_new, rfl, rfl⟩, fun hown => ?_, ?_⟩
  · exact absurd ((hown 0 (by decide)).2 1 (by decide)) (by decide)
  · decide

end Noverix.Sched
