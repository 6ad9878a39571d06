/-
  Who spins on `nvfs_lock` (kernel/sync/sync.h, the entry points of
  kernel/drivers/nvfs.c, the gate of vector 128 in kernel/cpu/idt.c).

  The entry points take the lock with `spinlock_lock`, which leaves interrupts as
  they are.  A kernel task, such as the shell, calls them with interrupts enabled
  and may be preempted while it holds the lock.  A user task calls them through
  vector 128, whose gate disables interrupts: if it finds the lock taken, nothing
  on this CPU runs but its own loop.
-/

import Noverix.Sched.Effects

namespace Noverix.Sched

open Lib

/-! ## The model -/

/-- Where a task is with regard to the lock. -/
inductive Place where
  /-- In none of the entry points of NVFS. -/
  | away
  /-- In the loop of `spinlock_lock(&nvfs_lock)`. -/
  | spinning
  /-- Between `spinlock_lock` and `spinlock_unlock`. -/
  | inside
deriving DecidableEq

/-- The kernel, `nvfs_lock.locked`, and for each task whether it is a user task and where it is. -/
structure Locking where
  k : Kernel
  locked : Bool
  user : Tid → Bool
  place : Tid → Place

/-- The flags of vector 128, from `idt_set_entry(128, isr128, 0x08, 0xEE)`. -/
def syscallGate : Nat := 0xEE

/-- An interrupt gate (type 0xE) clears the interrupt flag, a trap gate (0xF) does not. -/
def clearsInterrupts (flags : Nat) : Bool := decide (flags % 16 = 0xE)

/-- The interrupt flag of a task, as it is while the task runs. -/
def Locking.interrupts (s : Locking) (t : Tid) : Bool :=
  !(s.user t && decide (s.place t ≠ .away) && clearsInterrupts syscallGate)

/-- What happens on the CPU. -/
inductive LockOp where
  /-- The current task calls an entry point of NVFS. -/
  | call
  /-- One round of `spinlock_lock`: `xchgl`, and a look at what it gives. -/
  | xchg
  | unlock
  /-- A timer interrupt: `timer_handler`, then `task_switch_tick`. -/
  | tick (locked : Bool) (esp : UInt32)
  /-- `SYS_YIELD` or `SYS_SLEEP_MS`. -/
  | switch (esp : UInt32) (st : TaskState) (wake : UInt32)
  /-- `task_create` or `elf_exec` links in a new task. -/
  | spawn (t : Tid) (task : Task) (user : Bool)

def lockStep (cpu : Cpu) : LockOp → Locking → Locking
  | .call, s => { s with place := Function.update s.place (s.k.current cpu) .spinning }
  | .xchg, s =>
    -- a 1 comes back: `pause`, and round again
    if s.locked then s
    else { s with locked := true, place := Function.update s.place (s.k.current cpu) .inside }
  | .unlock, s =>
    { s with locked := false, place := Function.update s.place (s.k.current cpu) .away }
  | .tick locked esp, s =>
    -- the places stay: a task is preempted wherever it is, with the lock or without
    { s with k := schedStep (.switchTick cpu esp) (schedStep (.timer cpu locked) s.k) }
  | .switch esp st wake, s =>
    { s with k := ((s.k.taskSwitchFrom cpu esp st wake).map Prod.snd).getD s.k }
  | .spawn t task user, s =>
    { s with k := schedStep (.enqueue t task) s.k, user := Function.update s.user t user }

/-- A task takes its steps in their order, and ticks come only while interrupts are enabled. -/
def LockAllowed (cpu : Cpu) : LockOp → Locking → Prop
  | .call, s => s.k.current cpu ≠ 0 ∧ s.place (s.k.current cpu) = .away
  | .xchg, s => s.k.current cpu ≠ 0 ∧ s.place (s.k.current cpu) = .spinning
  | .unlock, s => s.k.current cpu ≠ 0 ∧ s.place (s.k.current cpu) = .inside
  | .tick _ _, s => s.interrupts (s.k.current cpu) = true
  | .switch _ _ _, s => s.place (s.k.current cpu) = .away
  | .spawn t task _, s =>
    s.place (s.k.current cpu) = .away ∧ SchedAllowed (.enqueue t task) s.k

/-- A task spins with interrupts disabled, for a lock whose holder is not the current task and is
    pinned to this CPU. -/
def SelfDeadlock (cpu : Cpu) (s : Locking) : Prop :=
  ∃ t h, s.interrupts t = false ∧ s.place t = .spinning ∧ s.place h = .inside ∧
    h ≠ s.k.current cpu ∧ (s.k.tasks h).cpuAssigned = some cpu

/-- No user task calls NVFS while a task that was preempted there holds the lock. -/
def CallsFree (cpu : Cpu) : LockOp → Locking → Prop
  | .call, s => s.user (s.k.current cpu) = true → ∀ h, s.place h ≠ .inside
  | _, _ => True

/-! ## The invariant -/

structure LockInv (cpu : Cpu) (s : Locking) (l : List Tid) : Prop where
  oneCpu : OneCpu s.k l
  /-- A task that is in NVFS has run on this CPU, and stays on it. -/
  pinned : ∀ t, s.place t ≠ .away → t ∈ l ∧ (s.k.tasks t).cpuAssigned = some cpu
  /-- A user task in NVFS is the current one. -/
  user : ∀ t, s.user t = true → s.place t ≠ .away → t = s.k.current cpu
  held : s.locked = true ↔ ∃ t, s.place t = .inside
  holder : ∀ t u, s.place t = .inside → s.place u = .inside → t = u
  /-- A user task that spins finds the lock free. -/
  free : ∀ t, s.user t = true → s.place t = .spinning → s.locked = false

section

variable {cpu : Cpu} {s : Locking} {k' : Kernel} {l : List Tid} {t : Tid}

theorem interrupts_eq_false : s.interrupts t = false ↔ s.user t = true ∧ s.place t ≠ .away := by
  unfold Locking.interrupts
  have hgate : clearsInterrupts syscallGate = true := by decide
  simp [hgate]

theorem LockInv.not_selfDeadlock (h : LockInv cpu s l) : ¬ SelfDeadlock cpu s := by
  rintro ⟨t, u, hoff, hspin, hin, -, -⟩
  have huser := (interrupts_eq_false.mp hoff).1
  have hfree := h.free t huser hspin
  exact Bool.noConfusion (hfree.symm.trans (h.held.mpr ⟨u, hin⟩))

/-- Another task may run now, when no user task is in NVFS. -/
theorem LockInv.resched {l' : List Tid} (h : LockInv cpu s l) (hk' : OneCpu k' l')
    (hl : ∀ t ∈ l, t ∈ l')
    (hassigned : ∀ t ∈ l, (s.k.tasks t).cpuAssigned = some cpu → (k'.tasks t).cpuAssigned = some cpu)
    (hnone : ∀ t, s.user t = true → s.place t = .away) : LockInv cpu { s with k := k' } l' := by
  refine ⟨hk', fun t ht => ?_, fun t huser hplace => ?_, h.held, h.holder, h.free⟩
  · obtain ⟨hmem, hpin⟩ := h.pinned t ht
    exact ⟨hl t hmem, hassigned t hmem hpin⟩
  · exact absurd (hnone t huser) hplace

theorem LockInv.users_away (h : LockInv cpu s l)
    (hcurr : s.user (s.k.current cpu) = true → s.place (s.k.current cpu) = .away) :
    ∀ t, s.user t = true → s.place t = .away := by
  intro t huser
  by_contra hplace
  have heq := h.user t huser hplace
  exact hplace (heq ▸ hcurr (heq ▸ huser))

variable {k : Kernel}

theorem taskSwitchFrom_pinned (h : OneCpu k l) (cpu : Cpu) (esp : UInt32)
    (st : TaskState) (wake : UInt32) :
    ∃ k', (k.taskSwitchFrom cpu esp st wake).map Prod.snd = some k' ∧ OneCpu k' l ∧
      ∀ t, (k.tasks t).cpuAssigned = some cpu → (k'.tasks t).cpuAssigned = some cpu := by
  obtain ⟨r, k', heq, hk'⟩ := taskSwitchFrom_keeps h cpu esp st wake
  refine ⟨k', by rw [heq]; rfl, hk', ?_⟩
  by_cases hcurr : k.current cpu = 0
  · unfold Kernel.taskSwitchFrom at heq
    rw [if_pos hcurr] at heq
    rw [← (Prod.mk.inj (some.inj heq)).2]
    exact fun _ ht => ht
  obtain ⟨n, next, r', k'', -, heq', hsw, -⟩ := taskSwitchFrom_switched h hcurr esp st wake
  rw [(Prod.mk.inj (some.inj (heq.symm.trans heq'))).2]
  exact fun t ht => hsw.assigned ht

theorem tick_pinned (h : OneCpu k l) (cpu : Cpu) (locked : Bool) (esp : UInt32) :
    OneCpu (schedStep (.switchTick cpu esp) (schedStep (.timer cpu locked) k)) l ∧
      ∀ t, (k.tasks t).cpuAssigned = some cpu →
        ((schedStep (.switchTick cpu esp) (schedStep (.timer cpu locked) k)).tasks t).cpuAssigned
          = some cpu := by
  obtain ⟨k1, htimer, hwoken⟩ := timerHandler_woken h cpu locked
  have hstep : schedStep (.timer cpu locked) k = k1 := congrArg (·.getD k) htimer
  have h1 : OneCpu k1 l := h.woken hwoken
  have hassigned : ∀ t, (k1.tasks t).cpuAssigned = (k.tasks t).cpuAssigned := by
    intro t
    rcases hwoken.tasks t with hsame | ⟨-, hwake⟩
    · rw [hsame]
    · rw [hwake]
  rw [hstep]
  simp only [← hassigned]
  show OneCpu (((k1.taskSwitchTick cpu esp).map Prod.snd).getD k1) l ∧ ∀ t, _ →
    ((((k1.taskSwitchTick cpu esp).map Prod.snd).getD k1).tasks t).cpuAssigned = _
  unfold Kernel.taskSwitchTick
  split
  · exact ⟨h1, fun _ ht => ht⟩
  split
  · exact ⟨h1, fun _ ht => ht⟩
  have hflag : OneCpu
      { k1 with reschedPending := update k1.reschedPending cpu false } l :=
    h1.of_fields rfl rfl rfl
  obtain ⟨k2, heq, hk2, hpinned⟩ := taskSwitchFrom_pinned hflag cpu esp .ready 0
  rw [heq]
  exact ⟨hk2, hpinned⟩

section

variable (h : LockInv cpu s l)
include h

/-- Wherever the current task goes, it is on this CPU, and it is the current one. -/
theorem LockInv.move (hcurr : s.k.current cpu ≠ 0) (p : Place) :
    (∀ t, update s.place (s.k.current cpu) p t ≠ .away →
      t ∈ l ∧ (s.k.tasks t).cpuAssigned = some cpu) ∧
    (∀ t, s.user t = true → update s.place (s.k.current cpu) p t ≠ .away →
      t = s.k.current cpu) := by
  obtain ⟨hmem, -, hassigned⟩ := h.oneCpu.current cpu hcurr
  refine ⟨fun t ht => ?_, fun t huser ht => ?_⟩
  · by_cases hself : t = s.k.current cpu
    · rw [hself]
      exact ⟨hmem, hassigned⟩
    rw [update_of_ne hself] at ht
    exact h.pinned t ht
  · by_contra hother
    rw [update_of_ne hother] at ht
    exact hother (h.user t huser ht)

theorem LockInv.call (hop : LockAllowed cpu .call s) (hfree : CallsFree cpu .call s) :
    LockInv cpu (lockStep cpu .call s) l := by
  obtain ⟨hcurr, haway⟩ := hop
  obtain ⟨hpinned, huser⟩ := h.move hcurr .spinning
  have hinside : ∀ t, update s.place (s.k.current cpu) .spinning t = .inside ↔
      s.place t = .inside := by
    intro t
    by_cases hself : t = s.k.current cpu
    · rw [hself, update_self, haway]
      decide
    · rw [update_of_ne hself]
  refine ⟨h.oneCpu, hpinned, huser, ?_, fun t u ht hu => ?_, fun t hut hspin => ?_⟩
  · exact h.held.trans (exists_congr fun t => (hinside t).symm)
  · exact h.holder t u ((hinside t).mp ht) ((hinside u).mp hu)
  · -- the task that spins is the current one, and no task is inside
    have hself : t = s.k.current cpu :=
      huser t hut fun haway' => Place.noConfusion (haway'.symm.trans hspin)
    show s.locked = false
    rw [← Bool.not_eq_true, h.held]
    rintro ⟨u, hu⟩
    exact hfree (hself ▸ hut) u hu

theorem LockInv.xchg (hop : LockAllowed cpu .xchg s) : LockInv cpu (lockStep cpu .xchg s) l := by
  obtain ⟨hcurr, -⟩ := hop
  obtain ⟨hpinned, huser⟩ := h.move hcurr .inside
  show LockInv cpu (if s.locked then s else
    { s with locked := true, place := update s.place (s.k.current cpu) .inside }) l
  cases hlocked : s.locked with
  | true => exact h
  | false =>
    have hself : ∀ t, update s.place (s.k.current cpu) .inside t = .inside →
        t = s.k.current cpu := by
      intro t ht
      by_contra hother
      rw [update_of_ne hother] at ht
      exact Bool.noConfusion (hlocked.symm.trans (h.held.mpr ⟨t, ht⟩))
    refine ⟨h.oneCpu, hpinned, huser, ?_, fun t u ht hu => ?_, fun t hut hspin => ?_⟩
    · exact iff_of_true rfl ⟨s.k.current cpu, update_self ..⟩
    · exact (hself t ht).trans (hself u hu).symm
    · -- a user task that spins is the current one, which is inside now
      change update s.place (s.k.current cpu) .inside t = .spinning at hspin
      have heq : t = s.k.current cpu :=
        huser t hut fun haway => Place.noConfusion (haway.symm.trans hspin)
      rw [heq, update_self] at hspin
      exact Place.noConfusion hspin

theorem LockInv.unlock (hop : LockAllowed cpu .unlock s) :
    LockInv cpu (lockStep cpu .unlock s) l := by
  obtain ⟨hcurr, hin⟩ := hop
  obtain ⟨hpinned, huser⟩ := h.move hcurr .away
  have hnone : ∀ t, update s.place (s.k.current cpu) .away t ≠ .inside := by
    intro t ht
    by_cases hself : t = s.k.current cpu
    · rw [hself, update_self] at ht
      exact Place.noConfusion ht
    rw [update_of_ne hself] at ht
    exact hself (h.holder t _ ht hin)
  refine ⟨h.oneCpu, hpinned, huser, ?_, fun t _ ht _ => absurd ht (hnone t), fun _ _ _ => rfl⟩
  exact iff_of_false Bool.noConfusion fun ⟨t, ht⟩ => hnone t ht

theorem LockInv.spawn {task : Task} {user : Bool} (hop : LockAllowed cpu (.spawn t task user) s) :
    ∃ l', LockInv cpu (lockStep cpu (.spawn t task user) s) l' := by
  obtain ⟨l', hlinked⟩ := enqueue_linked h.oneCpu hop.2
  have haway : s.place t = .away := by
    by_contra hplace
    exact hlinked.fresh (h.pinned t hplace).1
  have hold : ∀ u, s.place u ≠ .away → update s.user t user u = s.user u := by
    intro u hu
    refine update_of_ne ?_ ..
    rintro rfl
    exact hu haway
  refine ⟨l', hlinked.oneCpu, fun u hu => ?_, fun u huser hu => ?_, h.held, h.holder,
    fun u huser hspin => ?_⟩
  · obtain ⟨hmem, hassigned⟩ := h.pinned u hu
    exact ⟨hlinked.perm.mem_iff.mpr (mem_cons_of_mem t hmem),
      (hlinked.assigned u hmem).trans hassigned⟩
  · show u = (schedStep (.enqueue t task) s.k).current cpu
    rw [hlinked.current]
    exact h.user u ((hold u hu).symm.trans huser) hu
  · have hu : s.place u ≠ .away := fun haway' => Place.noConfusion (haway'.symm.trans hspin)
    exact h.free u ((hold u hu).symm.trans huser) hspin

end

end

/-! ## Whole runs -/

variable {cpu : Cpu}

/-- Every step keeps the invariant if no user task calls into a lock that is held, and such a call
    deadlocks. -/
theorem lock_keeps {s : Locking} {l : List Tid} (h : LockInv cpu s l) (op : LockOp)
    (hop : LockAllowed cpu op s) :
    (CallsFree cpu op s → ∃ l', LockInv cpu (lockStep cpu op s) l') ∧
      (¬ SelfDeadlock cpu (lockStep cpu op s) → CallsFree cpu op s) := by
  cases op with
  | call =>
    refine ⟨fun hfree => ⟨l, h.call hop hfree⟩, fun hlive huser u hin => hlive ?_⟩
    -- the holder is another task, since the caller was not in NVFS
    have hother : u ≠ s.k.current cpu := by
      rintro rfl
      exact Place.noConfusion (hop.2.symm.trans hin)
    have hspin : update s.place (s.k.current cpu) .spinning (s.k.current cpu) = .spinning :=
      update_self ..
    refine ⟨s.k.current cpu, u, interrupts_eq_false.mpr ⟨huser, ?_⟩, hspin, ?_, hother, ?_⟩
    · intro haway
      exact Place.noConfusion (haway.symm.trans hspin)
    · exact (update_of_ne hother ..).trans hin
    · exact (h.pinned u fun haway => Place.noConfusion (haway.symm.trans hin)).2
  | xchg => exact ⟨fun _ => ⟨l, h.xchg hop⟩, fun _ => trivial⟩
  | unlock => exact ⟨fun _ => ⟨l, h.unlock hop⟩, fun _ => trivial⟩
  | tick locked esp =>
    refine ⟨fun _ => ⟨l, ?_⟩, fun _ => trivial⟩
    have hcurr : s.user (s.k.current cpu) = true → s.place (s.k.current cpu) = .away := by
      intro huser
      by_contra hplace
      have hoff := interrupts_eq_false.mpr ⟨huser, hplace⟩
      exact Bool.noConfusion (hoff.symm.trans hop)
    obtain ⟨hone, hpinned⟩ := tick_pinned h.oneCpu cpu locked esp
    exact h.resched hone (fun _ ht => ht) (fun t _ => hpinned t) (h.users_away hcurr)
  | switch esp st wake =>
    refine ⟨fun _ => ⟨l, ?_⟩, fun _ => trivial⟩
    obtain ⟨k', heq, hone, hpinned⟩ := taskSwitchFrom_pinned h.oneCpu cpu esp st wake
    show LockInv cpu { s with k := ((s.k.taskSwitchFrom cpu esp st wake).map Prod.snd).getD s.k } l
    rw [heq]
    exact h.resched hone (fun _ ht => ht) (fun t _ => hpinned t) (h.users_away fun _ => hop)
  | spawn t task user => exact ⟨fun _ => h.spawn hop, fun _ => trivial⟩

/-- A user task that spins for a lock that is taken goes on forever: no other step is possible on this
    CPU. -/
theorem hung_forever {s s' : Locking} (huser : s.user (s.k.current cpu) = true)
    (hspin : s.place (s.k.current cpu) = .spinning) (hlocked : s.locked = true)
    (hs : Reach (lockStep cpu) (LockAllowed cpu) s s') : s' = s := by
  have hplace : s.place (s.k.current cpu) ≠ .away := fun haway =>
    Place.noConfusion (haway.symm.trans hspin)
  refine hs.invariant (· = s) rfl fun op s' heq hop => ?_
  subst heq
  cases op with
  | call => exact absurd hop.2 hplace
  | xchg => exact if_pos hlocked
  | unlock => exact Place.noConfusion (hspin.symm.trans hop.2)
  | tick locked esp =>
    have hoff := interrupts_eq_false.mpr ⟨huser, hplace⟩
    exact Bool.noConfusion (hoff.symm.trans hop)
  | switch esp st wake => exact absurd hop hplace
  | spawn t task user => exact absurd hop.1 hplace

/-- From a state in which no task is in NVFS and the lock is free, over every run on the CPU in which
    no user task calls NVFS while a preempted task holds the lock: no task spins with interrupts
    disabled for a lock that a descheduled task of this CPU holds; and the next step keeps that
    exactly if it is no such call. -/
theorem no_self_deadlock_iff (cpu : Cpu) (s₀ : Locking) (l₀ : List Tid) (h₀ : OneCpu s₀.k l₀)
    (haway : ∀ t, s₀.place t = .away) (hfree : s₀.locked = false) (s : Locking)
    (hs : Reach (lockStep cpu) (fun op s => LockAllowed cpu op s ∧ CallsFree cpu op s) s₀ s) :
    ¬ SelfDeadlock cpu s ∧
      ∀ op, LockAllowed cpu op s → (¬ SelfDeadlock cpu (lockStep cpu op s) ↔ CallsFree cpu op s) := by
  have hstart : LockInv cpu s₀ l₀ := by
    refine ⟨h₀, fun t ht => absurd (haway t) ht, fun t _ ht => absurd (haway t) ht, ?_, ?_, ?_⟩
    · rw [hfree]
      refine iff_of_false Bool.noConfusion fun ⟨t, ht⟩ => ?_
      exact Place.noConfusion ((haway t).symm.trans ht)
    · intro t u ht
      exact Place.noConfusion ((haway t).symm.trans ht)
    · exact fun _ _ _ => hfree
  obtain ⟨l, h⟩ : ∃ l, LockInv cpu s l := by
    refine hs.invariant (fun s => ∃ l, LockInv cpu s l) ⟨l₀, hstart⟩ fun op s hinv hop => ?_
    obtain ⟨l, h⟩ := hinv
    exact (lock_keeps h op hop.1).1 hop.2
  refine ⟨h.not_selfDeadlock, fun op hop => ?_⟩
  obtain ⟨hkeep, hcalls⟩ := lock_keeps h op hop
  refine ⟨hcalls, fun hok => ?_⟩
  obtain ⟨l', h'⟩ := hkeep hok
  exact h'.not_selfDeadlock

/-- The shell at 0x1000, and a user task at 0x2000. -/
def shellAndUser : Locking := ⟨twoTasks, false, fun t => decide (t = 0x2000), fun _ => .away⟩

/-- The shell is preempted before it calls NVFS, and the user task reads a file. -/
theorem no_self_deadlock_iff_shellAndUser :
    ¬ SelfDeadlock 0 (lockStep 0 .call (lockStep 0 (.tick true 0x7f00) shellAndUser)) := by
  have htick : shellAndUser.interrupts 0x1000 = true := by decide
  have hcall : LockAllowed 0 .call (lockStep 0 (.tick true 0x7f00) shellAndUser) :=
    ⟨by decide, rfl⟩
  have hfree : CallsFree 0 .call (lockStep 0 (.tick true 0x7f00) shellAndUser) :=
    fun _ _ => Place.noConfusion
  exact (no_self_deadlock_iff 0 shellAndUser _ oneCpu_twoTasks (fun _ => rfl) rfl _
    (.next LockOp.call (.next (LockOp.tick true 0x7f00) .start ⟨htick, trivial⟩) ⟨hcall, hfree⟩)).1

/-- The shell holds the lock when a timer interrupt switches to the user task. -/
def shellPreempted : Locking :=
  lockStep 0 (.tick true 0x7f00) (lockStep 0 .xchg (lockStep 0 .call shellAndUser))

theorem reach_shellPreempted : Reach (lockStep 0) (LockAllowed 0) shellAndUser shellPreempted := by
  have hcall : LockAllowed 0 .call shellAndUser := ⟨by decide, rfl⟩
  have hxchg : LockAllowed 0 .xchg (lockStep 0 .call shellAndUser) := ⟨by decide, by decide⟩
  have htick : (lockStep 0 .xchg (lockStep 0 .call shellAndUser)).interrupts 0x1000 = true := by
    decide
  exact .next (LockOp.tick true 0x7f00) (.next LockOp.xchg (.next LockOp.call .start hcall) hxchg) htick

/-- The user task reads a file then, and this CPU never does anything else. -/
theorem shellPreempted_deadlocks :
    Reach (lockStep 0) (LockAllowed 0) shellAndUser (lockStep 0 .call shellPreempted) ∧
      SelfDeadlock 0 (lockStep 0 .call shellPreempted) ∧
      ∀ s, Reach (lockStep 0) (LockAllowed 0) (lockStep 0 .call shellPreempted) s →
        s = lockStep 0 .call shellPreempted := by
  have hcall : LockAllowed 0 .call shellPreempted := ⟨by decide, by decide⟩
  refine ⟨.next LockOp.call reach_shellPreempted hcall, ?_, fun s hs => ?_⟩
  · exact ⟨0x2000, 0x1000, by decide, by decide, by decide, by decide, by decide⟩
  · exact hung_forever (by decide) (by decide) (by decide) hs

end Noverix.Sched
