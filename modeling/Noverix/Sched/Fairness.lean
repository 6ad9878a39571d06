/-
  What a task may count on (`task_switch_tick` in kernel/task.c, `timer_handler`
  in kernel/cpu/timer.c, SYS_SLEEP_MS in kernel/elf.c).

  * The tasks that a CPU may run are taken in turn: as many preemptive switches
    as there are such tasks run each of them once, in the order of the ring.
  * A task that sleeps has a deadline, the tick of its call plus the ticks to
    sleep, and both sums wrap.  The timer compares it with the counter as a plain
    number, and takes 0 for no deadline.
-/

import Noverix.Sched.Syscall

namespace Noverix.Sched

open Lib Memory

/-! ## Taking turns -/

section

variable {k : Kernel} {cpu : Cpu} {S : Finset Tid} {pre post q : List Tid} {curr x y : Tid}
  {n i : Nat} {s : Nat → Kernel}

/-- A task that the CPU may run: its own, or a READY one that is assigned to no other CPU. -/
def Schedulable (k : Kernel) (cpu : Cpu) (t : Tid) : Prop :=
  (t = k.current cpu ∨ (k.tasks t).state = .ready) ∧
    ((k.tasks t).cpuAssigned = none ∨ (k.tasks t).cpuAssigned = some cpu) ∧
    (k.tasks t).kernelEsp ≠ 0

/-- The states `s 0, s 1, ...` in which the CPU calls `task_switch_tick`, `n` times and each time
    with a switch pending.  Whatever happens between the calls, the tasks are linked in this
    order, and those of `S` are the ones that the CPU may run. -/
structure Turns (cpu : Cpu) (l : List Tid) (S : Finset Tid) (n : Nat) (s : Nat → Kernel) :
    Prop where
  ring : ∀ i < n, OneCpu (s i) l
  mem : ∀ i < n, ∀ t ∈ l, t ∈ S ↔ Schedulable (s i) cpu t
  pending : ∀ i < n, (s i).reschedPending cpu = true
  switch : ∀ i < n, ∃ esp r k', (s i).taskSwitchTick cpu esp = some (r, k') ∧
    (s (i + 1)).current cpu = k'.current cpu

/-- The next task to run is the first of `S` behind the one that runs. -/
theorem Turns.next (h : Turns cpu (pre ++ x :: post) S n s) (hi : i < n)
    (hx : (s i).current cpu = x) (hxS : x ∈ S)
    (hfind : (post ++ (pre ++ [x])).find? (fun t => decide (t ∈ S)) = some y) :
    (s (i + 1)).current cpu = y := by
  obtain ⟨esp, r, k', heq, hcurrent⟩ := h.switch i hi
  rw [hcurrent]
  have hperm : (x :: post ++ pre).Perm (pre ++ x :: post) := List.perm_append_comm
  have hone : OneCpu (s i) (x :: (post ++ pre)) := (h.ring i hi).perm (h.ring i hi).ring.rotate hperm
  have hx0 : x ≠ 0 := fun h0 => hone.null (h0 ▸ mem_cons_self)
  subst hx
  unfold Kernel.taskSwitchTick at heq
  rw [if_neg hx0, if_neg (by rw [h.pending i hi]; decide)] at heq
  generalize hk : ({ s i with
    reschedPending := update (s i).reschedPending cpu false } : Kernel) = k at heq
  have hsame : k.tasks = (s i).tasks ∧ k.readyHead = (s i).readyHead ∧
      k.current = (s i).current := hk ▸ ⟨rfl, rfl, rfl⟩
  -- of the others, the CPU takes those of `S`
  have hpick : ∀ t ∈ post ++ pre, (k.suspend cpu esp .ready 0).pickable cpu t
      = decide (t ∈ S) := by
    intro t ht
    have hne : t ≠ (s i).current cpu := by
      rintro rfl
      exact (nodup_cons.mp hone.ring.nodup).1 ht
    rw [suspend_pickable (by rwa [hsame.2.2]), Bool.eq_iff_iff, decide_eq_true_eq, pickable_iff,
      h.mem i hi t (hperm.mem_iff.mp (mem_cons_of_mem _ ht)), hsame.1]
    exact and_congr_left fun _ => (or_iff_right hne).symm
  have hring : OneCpu k (k.current cpu :: (post ++ pre)) := by
    rw [hsame.2.2]
    exact hone.of_fields hsame.1 hsame.2.1 hsame.2.2
  rw [← append_assoc, find?_append, ← List.find?_congr hpick] at hfind
  rcases taskSwitchFrom_ring hring (hsame.2.2 ▸ hx0) esp .ready 0 with ⟨t, ht, hsw⟩ | ⟨hnone, hsw⟩
  · rw [ht, Option.some_or, Option.some.injEq] at hfind
    rw [hsw, Option.some.injEq, Prod.mk.injEq] at heq
    rw [← heq.2, ← hfind]
    exact update_self ..
  rw [hnone, none_or, List.find?_singleton, if_pos (decide_eq_true hxS),
    Option.some.injEq] at hfind
  rw [hsw, Option.some.injEq, Prod.mk.injEq] at heq
  rw [← heq.2, ← hfind, ← hsame.2.2]
  rfl

/-- From a task on, the tasks of `S` behind it are run, and then the one the round began with.
    The induction is on the tasks of `S` behind it. -/
theorem Turns.walk (h : Turns cpu (pre ++ x :: post) S n s) (hx : (s i).current cpu = x)
    (hxS : x ∈ S) (hfirst : (pre ++ [x]).head? = some curr) (hcurr : curr ∈ S)
    (hn : i + (post.filter (· ∈ S)).length < n) :
    (range ((post.filter (· ∈ S)).length + 1)).map (fun j => (s (i + j + 1)).current cpu)
      = post.filter (· ∈ S) ++ [curr] := by
  induction hys : post.filter (· ∈ S) generalizing pre x post i with
  | nil =>
    rw [hys] at hn
    obtain ⟨q, hq⟩ := List.head?_eq_some_iff.mp hfirst
    have hnone : post.find? (fun t => decide (t ∈ S)) = none :=
      find?_eq_none.mpr fun t ht => List.filter_eq_nil_iff.mp hys t ht
    have hnext := h.next (by simpa using hn) hx hxS (y := curr) (by
      rw [find?_append, hnone, hq, none_or]
      exact List.find?_cons_of_pos (decide_eq_true hcurr))
    simpa using hnext
  | cons y ys ih =>
    obtain ⟨p, q, rfl, hp, hy, hq⟩ := List.filter_eq_cons_iff.mp hys
    have hyS : y ∈ S := of_decide_eq_true hy
    rw [hys, length_cons] at hn
    have hfind : (p ++ y :: q ++ (pre ++ [x])).find? (fun t => decide (t ∈ S)) = some y := by
      have hnone : p.find? (fun t => decide (t ∈ S)) = none :=
        find?_eq_none.mpr fun t ht => hp t ht
      rw [append_assoc, find?_append, hnone, none_or]
      exact List.find?_cons_of_pos hy
    have hnext := h.next (by omega) hx hxS hfind
    have hsplit : pre ++ x :: (p ++ y :: q) = (pre ++ x :: p) ++ y :: q := by simp
    have hrest := ih (hsplit ▸ h) hnext hyS (by
      rw [← hfirst]
      cases pre <;> rfl) (by rw [hq]; omega) hq
    rw [length_cons, range_succ_eq_map, map_cons, map_map, cons_append]
    refine congrArg₂ List.cons hnext ?_
    rw [← hrest]
    refine map_congr_left fun j _ => ?_
    show (s (i + (j + 1) + 1)).current cpu = _
    rw [show i + (j + 1) + 1 = i + 1 + j + 1 by omega]

/-- As many preemptive switches as there are tasks that the CPU may run give each of them its
    turn, once and in the order of the ring. -/
theorem round_robin (cpu : Cpu) (curr : Tid) (r : List Tid) (S : Finset Tid) (s : Nat → Kernel)
    (hS : ∀ t ∈ S, t ∈ curr :: r) (hcurr : curr ∈ S) (hfirst : (s 0).current cpu = curr)
    (h : Turns cpu (curr :: r) S S.card s) :
    (List.range S.card).map (fun i => (s (i + 1)).current cpu) = (r ++ [curr]).filter (· ∈ S) := by
  have hcard : S.card = (r.filter (· ∈ S)).length + 1 := by
    have hnodup := (h.ring 0 (Finset.card_pos.mpr ⟨curr, hcurr⟩)).ring.nodup
    have hset : ((curr :: r).filter (· ∈ S)).toFinset = S := by
      ext t
      simp only [List.mem_toFinset, List.mem_filter, decide_eq_true_eq]
      exact ⟨fun ht => ht.2, fun ht => ⟨hS t ht, ht⟩⟩
    rw [← congrArg Finset.card hset, List.toFinset_card_of_nodup (hnodup.filter _),
      List.filter_cons_of_pos (p := (· ∈ S)) (decide_eq_true hcurr)]
    rfl
  have hfrom : Turns cpu ([] ++ curr :: r) S S.card s := h
  have hwalk := hfrom.walk (i := 0) hfirst hcurr rfl hcurr (by omega)
  rw [hcard, List.filter_append, List.filter_cons_of_pos (p := (· ∈ S)) (decide_eq_true hcurr)]
  simpa using hwalk

end

/-- Two tasks of CPU 0 that run in turn. -/
def alternating (i : Nat) : Kernel :=
  { twoTasks with
    tasks := fun t =>
      if t = 0x1000 then
        ⟨1, if i % 2 = 0 then .running else .ready, some 0, 0, 0x5000, 0x4000, 0, 0x2000⟩
      else ⟨2, if i % 2 = 0 then .ready else .running, some 0, 0, 0x9000, 0x8000, 0, 0x1000⟩
    current := fun cpu => if cpu = 0 then if i % 2 = 0 then 0x1000 else 0x2000 else 0
    reschedPending := fun _ => true }

theorem oneCpu_alternating (i : Nat) : OneCpu (alternating i) [0x1000, 0x2000] where
  ring := ring_cons (by decide) ⟨rfl, rfl, trivial⟩
  null := by decide
  head := .inl mem_cons_self
  current cpu hc := by
    obtain rfl : cpu = 0 := not_not.mp fun h0 => hc (if_neg h0)
    rcases Nat.mod_two_eq_zero_or_one i with hi | hi <;> simp [alternating, hi]

theorem round_robin_alternating :
    (List.range 2).map (fun i => (alternating (i + 1)).current 0) = [0x2000, 0x1000] := by
  have hturns : Turns 0 [0x1000, 0x2000] {0x1000, 0x2000} 2 alternating := by
    refine ⟨fun i _ => oneCpu_alternating i, fun i hi => ?_, fun _ _ => rfl, fun i hi => ?_⟩
    · intro t ht
      rcases Nat.mod_two_eq_zero_or_one i with hi | hi <;>
        rcases List.mem_pair.mp ht with rfl | rfl <;> simp [Schedulable, alternating, hi]
    · obtain rfl | rfl : i = 0 ∨ i = 1 := by omega
      · exact ⟨0x5000, _, _, rfl, by decide⟩
      · exact ⟨0x9000, _, _, rfl, by decide⟩
  exact round_robin 0 0x1000 [0x2000] {0x1000, 0x2000} alternating (by simp) (by simp) rfl hturns

/-! ## Sleeping -/

section

variable {k k' : Kernel} {t : Tid} {b : Bool} {l : List Tid} {cpu : Cpu} {n i : Nat}
  {free : Nat → Bool} {s : Nat → Kernel}

/-- The ticks that SYS_SLEEP_MS is to sleep. -/
def sleepTicks (ms : UInt32) : Nat := (ms.toNat + 9) / 10

/-- `timer_handler` on CPU 0, with `free` for the result of `spinlock_try_lock`.  Whatever has
    happened since `k`, the task is in the ring, and its state and its deadline are the same. -/
def Tick (t : Tid) (free : Bool) (k k' : Kernel) : Prop :=
  ∃ k₁ l, OneCpu k₁ l ∧ t ∈ l ∧ (k₁.tasks t).state = (k.tasks t).state ∧
    (k₁.tasks t).wakeupTick = (k.tasks t).wakeupTick ∧ k₁.tickCount = k.tickCount ∧
    k₁.timerHandler 0 free = some k'

/-- The timer finds that the deadline has been reached. -/
def Reached (wake now : UInt32) : Prop := wake ≠ 0 ∧ wake ≤ now

/-- Tick `j` finds the deadline reached that the task has in the state `s 0`. -/
def DueAt (s : Nat → Kernel) (t : Tid) (j : Nat) : Prop :=
  Reached ((s 0).tasks t).wakeupTick ((s 0).tickCount + UInt32.ofNat j)

theorem Tick.cases (h : Tick t b k k') : k'.tickCount = k.tickCount + 1 ∧
    ((k.tasks t).state = .ready → (k'.tasks t).state = .ready) ∧
    ((k.tasks t).state = .blocked →
      (b = true ∧ Reached (k.tasks t).wakeupTick k'.tickCount ∧ (k'.tasks t).state = .ready) ∨
      (¬ (b = true ∧ Reached (k.tasks t).wakeupTick k'.tickCount) ∧
        (k'.tasks t).state = .blocked ∧ (k'.tasks t).wakeupTick = (k.tasks t).wakeupTick)) := by
  obtain ⟨k1, l, hone, ht, hstate, hwake, hcount, heq⟩ := h
  rw [timerHandler_eq hone, Option.some.injEq] at heq
  subst heq
  rw [← hstate, ← hwake, ← hcount]
  have hscan : t ∈ scanned 0 b l ↔ b = true := by
    cases b <;> simp [scanned, ht]
  refine ⟨rfl, fun hready => ?_, fun hblocked => ?_⟩
  · simp [wakeAll_tasks, Kernel.due, hready]
  · by_cases hdue : b = true ∧ Reached (k1.tasks t).wakeupTick (k1.tickCount + 1)
    · refine .inl ⟨hdue.1, hdue.2, ?_⟩
      simp [wakeAll_tasks, Kernel.due, hscan.mpr hdue.1, hblocked, hdue.2.1, hdue.2.2]
    have hno : ¬ (t ∈ scanned 0 b l ∧
        ({ k1 with tickCount := k1.tickCount + 1 } : Kernel).due t = true) := by
      rw [hscan]
      simpa [Kernel.due, hblocked, Reached] using hdue
    refine .inr ⟨hdue, ?_⟩
    simp [wakeAll_tasks, hno, hblocked]

section

variable (hticks : ∀ i < n, Tick t (free (i + 1)) (s i) (s (i + 1)))
  (h0 : ((s 0).tasks t).state = .blocked)
include hticks h0

/-- After `i` ticks the task is READY if it was due at one of them, and sleeps on if not. -/
theorem asleep (hi : i ≤ n) :
    (s i).tickCount = (s 0).tickCount + UInt32.ofNat i ∧
    (((s i).tasks t).state = .ready ∧ (∃ j, 0 < j ∧ j ≤ i ∧ free j = true ∧ DueAt s t j) ∨
      ((s i).tasks t).state = .blocked ∧
        ((s i).tasks t).wakeupTick = ((s 0).tasks t).wakeupTick ∧
        ∀ j, 0 < j → j ≤ i → free j = true → ¬ DueAt s t j) := by
  induction i with
  | zero => exact ⟨(UInt32.add_zero _).symm, .inr ⟨h0, rfl, fun j h1 h2 => absurd h1 (by omega)⟩⟩
  | succ i ih =>
    obtain ⟨hcount, hstate⟩ := ih (by omega)
    obtain ⟨hsucc, hready, hblocked⟩ := (hticks i (by omega)).cases
    have hnow : (s (i + 1)).tickCount = (s 0).tickCount + UInt32.ofNat (i + 1) := by
      rw [hsucc, hcount, UInt32.add_assoc, UInt32.ofNat_add]
      rfl
    refine ⟨hnow, ?_⟩
    rcases hstate with ⟨hst, j, hj, hji, hdue⟩ | ⟨hst, hwake, hno⟩
    · exact .inl ⟨hready hst, j, hj, by omega, hdue⟩
    rw [hwake, hnow] at hblocked
    rcases hblocked hst with ⟨hfree, hdue, hst'⟩ | ⟨hnot, hst', hwake'⟩
    · exact .inl ⟨hst', i + 1, by omega, by omega, hfree, hdue⟩
    refine .inr ⟨hst', hwake', fun j hj hji hf => ?_⟩
    rcases Nat.lt_or_eq_of_le hji with hlt | rfl
    · exact hno j hj (by omega) hf
    · exact fun hdue => hnot ⟨hf, hdue⟩

/-- The task is made READY at tick `n` exactly when its deadline has been reached then, and had
    not been at any tick before that found the lock free. -/
theorem wakes_iff (hn : 0 < n) (hfree : free n = true) :
    ((∀ i < n, ((s i).tasks t).state = .blocked) ∧ ((s n).tasks t).state = .ready) ↔
      (∀ j, 0 < j → j < n → free j = true → ¬ DueAt s t j) ∧ DueAt s t n := by
  have hstate := fun i (hi : i ≤ n) => (asleep hticks h0 hi).2
  constructor
  · rintro ⟨hbefore, hready⟩
    have hno : ∀ j, 0 < j → j < n → free j = true → ¬ DueAt s t j := by
      intro j hj hjn
      rcases hstate j (by omega) with ⟨hst, -⟩ | ⟨-, -, hno⟩
      · exact absurd (hst.symm.trans (hbefore j hjn)) (by decide)
      · exact hno j hj le_rfl
    refine ⟨hno, ?_⟩
    rcases hstate n le_rfl with ⟨-, j, hj, hjn, hf, hdue⟩ | ⟨hst, -⟩
    · rcases Nat.lt_or_eq_of_le hjn with hlt | rfl
      · exact absurd hdue (hno j hj hlt hf)
      · exact hdue
    · exact absurd (hst.symm.trans hready) (by decide)
  · rintro ⟨hno, hdue⟩
    refine ⟨fun i hi => ?_, ?_⟩
    · rcases hstate i (by omega) with ⟨-, j, hj, hji, hf, hdue'⟩ | ⟨hst, -⟩
      · exact absurd hdue' (hno j hj (by omega) hf)
      · exact hst
    · rcases hstate n le_rfl with ⟨hst, -⟩ | ⟨-, -, hnot⟩
      · exact hst
      · exact absurd hdue (hnot n hn le_rfl hfree)

end

/-- The task that called SYS_SLEEP_MS and is BLOCKED has its deadline set. -/
theorem sleep_deadline (h : OneCpu k l) (hcurr : k.current cpu ≠ 0) {regs ms r : UInt32}
    (hcall : k.syscallHandler cpu regs sysSleepMsNum ms = some (r, k'))
    (hblocked : (k'.tasks (k.current cpu)).state = .blocked) :
    (k'.tasks (k.current cpu)).wakeupTick = k.tickCount + (ms + 9) / 10 ∧
      k'.tickCount = k.tickCount := by
  have hsleep : k.taskSwitchFrom cpu regs .blocked (k.tickCount + (ms + 9) / 10) = some (r, k') := hcall
  obtain ⟨q, hring, -, ⟨u, hfind, heq⟩ | ⟨-, heq⟩⟩ := taskSwitchFrom_spec h hcurr regs .blocked
    (k.tickCount + (ms + 9) / 10)
  · rw [heq, Option.some.injEq, Prod.mk.injEq] at hsleep
    have hne : k.current cpu ≠ u := by
      rintro rfl
      exact (nodup_cons.mp hring.nodup).1 (mem_of_find?_eq_some hfind)
    rw [← hsleep.2, dispatch_tasks, setTask_of_ne hne]
    exact ⟨congrArg Task.wakeupTick setTask_self, rfl⟩
  · -- no other task could run
    rw [heq, Option.some.injEq, Prod.mk.injEq] at hsleep
    rw [← hsleep.2] at hblocked
    have hrun := congrArg Task.state (setTask_self (k := k.suspend cpu regs .blocked
      (k.tickCount + (ms + 9) / 10)) (t := k.current cpu) (f := Task.runOn cpu))
    exact absurd (hrun.symm.trans hblocked) (by rintro ⟨⟩)

theorem reached_iff (t0 ms : UInt32) (j : Nat) :
    Reached (t0 + (ms + 9) / 10) (t0 + UInt32.ofNat j) ↔
      0 < (t0.toNat + (ms.toNat + 9) % 2 ^ 32 / 10) % 2 ^ 32 ∧
      (t0.toNat + (ms.toNat + 9) % 2 ^ 32 / 10) % 2 ^ 32 ≤ (t0.toNat + j) % 2 ^ 32 := by
  have hwake : (t0 + (ms + 9) / 10).toNat = (t0.toNat + (ms.toNat + 9) % 2 ^ 32 / 10) % 2 ^ 32 := by
    rw [UInt32.toNat_add, UInt32.toNat_div, UInt32.toNat_add]
    rfl
  have hnow : (t0 + UInt32.ofNat j).toNat = (t0.toNat + j) % 2 ^ 32 := by
    rw [UInt32.toNat_add, UInt32.toNat_ofNat', Nat.add_mod_mod]
  unfold Reached
  rw [UInt32.le_iff_toNat_le, hwake, hnow, ← hwake, Nat.pos_iff_ne_zero, ne_eq, ne_eq,
    ← UInt32.toNat_inj]
  rfl

end

/-- A task sleeps in SYS_SLEEP_MS from the tick `T` on, and tick `n` from there is the first that
    finds the lock free with the ticks to sleep elapsed.  It is made READY then and not before,
    exactly when: the deadline is not 0 and the counter has not wrapped; or the deadline has
    wrapped, is not 0, and no tick before the counter wraps finds the lock free; or `ms + 9` wraps,
    so that the deadline is `T`, it is not 0, the counter has not wrapped and no earlier tick finds
    the lock free. -/
theorem sleep_wakes_iff (k : Kernel) (l : List Tid) (h : OneCpu k l) (cpu : Cpu)
    (hcurr : k.current cpu ≠ 0) (regs ms r : UInt32) (n : Nat) (free : Nat → Bool)
    (s : Nat → Kernel) (hcall : k.syscallHandler cpu regs sysSleepMsNum ms = some (r, s 0))
    (hblocked : ((s 0).tasks (k.current cpu)).state = .blocked)
    (hticks : ∀ i < n, Tick (k.current cpu) (free (i + 1)) (s i) (s (i + 1)))
    (hn : 0 < n) (hfree : free n = true) (hdue : sleepTicks ms ≤ n % 2 ^ 32)
    (hfirst : ∀ i, 0 < i → i < n → free i = true → i % 2 ^ 32 < sleepTicks ms) :
    ((∀ i < n, ((s i).tasks (k.current cpu)).state = .blocked) ∧
      ((s n).tasks (k.current cpu)).state = .ready) ↔
    let T := k.tickCount.toNat
    (ms.toNat + 9 < 2 ^ 32 ∧ 0 < T + sleepTicks ms ∧ T + sleepTicks ms < 2 ^ 32 ∧
        T + n % 2 ^ 32 < 2 ^ 32) ∨
      (ms.toNat + 9 < 2 ^ 32 ∧ 2 ^ 32 < T + sleepTicks ms ∧
        ∀ i, 0 < i → i < n → free i = true → 2 ^ 32 ≤ T + i % 2 ^ 32) ∨
      (2 ^ 32 ≤ ms.toNat + 9 ∧ 0 < T ∧ T + n % 2 ^ 32 < 2 ^ 32 ∧
        ∀ i, 0 < i → i < n → free i = false) := by
  obtain ⟨hwake, hcount⟩ := sleep_deadline h hcurr hcall hblocked
  rw [wakes_iff hticks hblocked hn hfree]
  simp only [DueAt, hwake, hcount, reached_iff]
  have hT := k.tickCount.toNat_lt
  have hms := ms.toNat_lt
  unfold sleepTicks at hdue hfirst ⊢
  generalize k.tickCount.toNat = T at hT ⊢
  constructor
  · rintro ⟨hno, hpos, hle⟩
    by_cases hwrap : ms.toNat + 9 < 2 ^ 32
    · rcases Nat.lt_or_ge (T + (ms.toNat + 9) / 10) (2 ^ 32) with hT' | hT'
      · exact .inl (by omega)
      refine .inr (.inl ⟨hwrap, by omega, fun i hi hin hf => ?_⟩)
      have := hno i hi hin hf
      omega
    refine .inr (.inr ⟨by omega, by omega, by omega, fun i hi hin => ?_⟩)
    by_contra hf
    have := hno i hi hin (by simpa using hf)
    have := hfirst i hi hin (by simpa using hf)
    omega
  · rintro (⟨hwrap, hpos, hlt, hle⟩ | ⟨hwrap, hlt, hlate⟩ | ⟨hwrap, hpos, hle, hlate⟩)
    · refine ⟨fun j hj hjn hf => ?_, by omega, by omega⟩
      have := hfirst j hj hjn hf
      omega
    · refine ⟨fun j hj hjn hf => ?_, by omega, by omega⟩
      have := hfirst j hj hjn hf
      have := hlate j hj hjn hf
      omega
    · refine ⟨fun j hj hjn hf => ?_, by omega, by omega⟩
      rw [hlate j hj hjn] at hf
      cases hf

/-- The first of two tasks sleeps until `wake`, and the second runs. -/
def oneAsleep (wake : UInt32) : Kernel :=
  (twoTasks.suspend 0 0x5000 .blocked wake).dispatch 0 0x2000

theorem tick_oneAsleep (wake : UInt32) :
    ∃ k', Tick 0x1000 true (oneAsleep wake) k' := by
  have hone : OneCpu (oneAsleep wake) [0x1000, 0x2000] :=
    ((oneCpu_twoTasks.others 0).setTask rfl).dispatch (by decide) (by
      rw [setTask_of_ne (by decide)]
      decide)
  obtain ⟨k', heq, -⟩ := timerHandler_woken hone 0 true
  exact ⟨k', _, _, hone, by decide, rfl, rfl, rfl, heq⟩

/-- At tick 0, a sleep of 10 ms ends with the next tick. -/
theorem sleep_wakes_iff_oneTick : ∃ k',
    twoTasks.syscallHandler 0 0x5000 sysSleepMsNum 10 = some (0x9000, oneAsleep 1) ∧
    Tick 0x1000 true (oneAsleep 1) k' ∧ (k'.tasks 0x1000).state = .ready := by
  have hcall : twoTasks.syscallHandler 0 0x5000 sysSleepMsNum 10 = some (0x9000, oneAsleep 1) := rfl
  obtain ⟨k', htick⟩ := tick_oneAsleep 1
  refine ⟨k', hcall, htick, ?_⟩
  have hiff := sleep_wakes_iff twoTasks _ oneCpu_twoTasks 0 (by decide) 0x5000 10 0x9000 1
    (fun _ => true) (fun i => if i = 0 then oneAsleep 1 else k') hcall rfl
    (fun i hi => by
      obtain rfl : i = 0 := by omega
      exact htick) (by decide) rfl (by decide) (fun i h1 h2 => by omega)
  exact (hiff.mpr (.inl (by decide))).2

/-- At tick 0, a sleep of 0 ms has the deadline 0 and never ends. -/
theorem sleep_never_wakes :
    twoTasks.syscallHandler 0 0x5000 sysSleepMsNum 0 = some (0x9000, oneAsleep 0) ∧
    sleepTicks 0 = 0 ∧ (∃ k', Tick 0x1000 true (oneAsleep 0) k') ∧
    ∀ (n : Nat) (free : Nat → Bool) (s : Nat → Kernel), s 0 = oneAsleep 0 →
      (∀ i < n, Tick 0x1000 (free (i + 1)) (s i) (s (i + 1))) →
        ((s n).tasks 0x1000).state = .blocked := by
  refine ⟨rfl, rfl, tick_oneAsleep 0, fun n free s h0 hticks => ?_⟩
  have hblocked : ((s 0).tasks 0x1000).state = .blocked := by
    rw [h0]
    decide
  have hwake : ((s 0).tasks 0x1000).wakeupTick = 0 := by
    rw [h0]
    decide
  rcases (asleep hticks hblocked (Nat.le_refl n)).2 with ⟨-, j, -, -, -, hdue⟩ | ⟨hst, -⟩
  · exact absurd hwake hdue.1
  · exact hst

end Noverix.Sched
