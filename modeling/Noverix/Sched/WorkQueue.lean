/-
  The queue of jobs for the other CPUs (kernel/scheduler/scheduler.c).

  A job is submitted to one of 64 slots and to a CPU.  A CPU that looks for work
  claims a slot of its own under the lock, runs the job without it, and frees
  the slot under the lock again.  So the steps that interleave are the sections
  under the lock; what a running job does in between is more such steps, its
  own submissions among them.  A context is whatever can be inside
  `scheduler_step`: it has a frame for each job it is running, the inner ones
  started by the outer ones.

  The state also has the history: which submission each slot is for, and what
  has been submitted, claimed and finished so far.  Nothing reads it.
-/

import Noverix.Lib.Runs
import Mathlib.Algebra.Group.Nat.Defs
import Mathlib.Data.List.FinRange
import Mathlib.Tactic.Cases

namespace Noverix.Sched.WorkQueue

open Lib

variable {cpu ctx c : Nat} {id fn arg : UInt32} {i j : Fin maxTasks}

/-! ## The queue -/

abbrev maxTasks : Nat := 64

/-- The values 0, 1 and 2 of `state`. -/
inductive SlotState where
  | free
  | submitted
  | running
deriving DecidableEq

/-- `task_entry_t`. -/
structure Entry where
  fn : UInt32
  arg : UInt32
  state : SlotState
  cpuId : Nat

/-- `tasks`, `next_id` and `next_task_cpu`. -/
structure Queue where
  tasks : Fin maxTasks → Entry
  nextId : UInt32
  nextTaskCpu : Nat

namespace Queue

/-- `scheduler_init`. -/
def init : Queue := ⟨fun _ => ⟨0, 0, .free, 0⟩, 1, 0⟩

/-- A loop over the slots that stops at the first one with `p`. -/
def firstSlot (q : Queue) (p : Entry → Bool) : Option (Fin maxTasks) :=
  (List.finRange maxTasks).find? fun i => p (q.tasks i)

def setSlot (q : Queue) (i : Fin maxTasks) (e : Entry) : Queue :=
  { q with tasks := Function.update q.tasks i e }

/-- The slot that `scheduler_submit` takes. -/
def freeSlot (q : Queue) : Option (Fin maxTasks) := q.firstSlot fun e => decide (e.state = .free)

/-- `scheduler_submit`: the id, 0 if no slot is free. -/
def schedulerSubmit (q : Queue) (cpuCount : Nat) (fn arg : UInt32) : UInt32 × Queue :=
  match q.freeSlot with
  | none => (0, q)
  | some i =>
    (q.nextId, { q.setSlot i ⟨fn, arg, .submitted, q.nextTaskCpu⟩ with
      nextTaskCpu := if 1 < cpuCount then (q.nextTaskCpu + 1) % cpuCount else q.nextTaskCpu
      nextId := q.nextId + 1 })

/-- The slot that `scheduler_step` takes on a CPU. -/
def claimSlot (q : Queue) (cpu : Nat) : Option (Fin maxTasks) :=
  q.firstSlot fun e => decide (e.state = .submitted) && decide (e.cpuId = cpu)

/-- The first section of `scheduler_step`, for the slot it takes. -/
def claim (q : Queue) (i : Fin maxTasks) : Queue :=
  q.setSlot i { q.tasks i with state := .running }

/-- The second one, when the job has returned. -/
def release (q : Queue) (i : Fin maxTasks) (cpu : Nat) : Queue :=
  q.setSlot i { q.tasks i with state := .free, cpuId := cpu }

/-- The check of `scheduler_wait_all`: it returns when nothing is pending. -/
def pending (q : Queue) : Bool :=
  (q.firstSlot fun e => decide (e.state = .submitted) || decide (e.state = .running)).isSome

section

variable {q : Queue} {p : Entry → Bool} {i j : Fin maxTasks} {e : Entry}

theorem firstSlot_some (h : q.firstSlot p = some i) : p (q.tasks i) = true :=
  @List.find?_some _ (fun i => p (q.tasks i)) i _ h

theorem firstSlot_none (h : q.firstSlot p = none) (i : Fin maxTasks) : ¬ p (q.tasks i) = true :=
  find?_eq_none.mp h i (List.mem_finRange i)

@[simp] theorem setSlot_self : (q.setSlot i e).tasks i = e := update_self ..

@[simp] theorem setSlot_of_ne (h : j ≠ i) : (q.setSlot i e).tasks j = q.tasks j :=
  update_of_ne h ..

theorem freeSlot_some (h : q.freeSlot = some i) : (q.tasks i).state = .free :=
  of_decide_eq_true (firstSlot_some h)

theorem claimSlot_some (h : q.claimSlot cpu = some i) :
    (q.tasks i).state = .submitted ∧ (q.tasks i).cpuId = cpu := by
  have hp := firstSlot_some h
  rw [Bool.and_eq_true] at hp
  exact ⟨of_decide_eq_true hp.1, of_decide_eq_true hp.2⟩

theorem state_free_of_not_pending (h : q.pending = false) (i : Fin maxTasks) :
    (q.tasks i).state = .free := by
  unfold pending at h
  rw [Option.isSome_eq_false_iff, Option.isNone_iff_eq_none] at h
  have hp := firstSlot_none h i
  cases hstate : (q.tasks i).state with
  | free => rfl
  | submitted => exact absurd (by rw [hstate]; rfl) hp
  | running => exact absurd (by rw [hstate]; rfl) hp

end

end Queue

/-! ## Interleavings -/

/-- What has happened. -/
inductive Event where
  | submitted (id : UInt32) (cpu : Nat) (fn arg : UInt32)
  | claimed (id : UInt32) (cpu : Nat) (fn arg : UInt32)
  | finished (id : UInt32)

def Event.submittedId : Event → Option UInt32
  | .submitted id _ _ _ => some id
  | _ => none

def Event.claimedId : Event → Option UInt32
  | .claimed id _ _ _ => some id
  | _ => none

def Event.finishedId : Event → Option UInt32
  | .finished id => some id
  | _ => none

def submittedIds (log : List Event) : List UInt32 := log.filterMap Event.submittedId

def claimedIds (log : List Event) : List UInt32 := log.filterMap Event.claimedId

def finishedIds (log : List Event) : List UInt32 := log.filterMap Event.finishedId

/-- The queue, the frames of `scheduler_step` in each context, and the history. -/
structure Sys where
  queue : Queue
  frames : Nat → List (Fin maxTasks)
  job : Fin maxTasks → UInt32
  log : List Event

def Sys.init : Sys := ⟨.init, fun _ => [], fun _ => 0, []⟩

/-- The sections under the lock. -/
inductive Op where
  | submit (cpuCount : Nat) (fn arg : UInt32)
  | claim (ctx cpu : Nat)
  | finish (ctx cpu : Nat)

/-- `scheduler_submit`, with what it returns. -/
def submitStep (s : Sys) (cpuCount : Nat) (fn arg : UInt32) : Sys :=
  let r := s.queue.schedulerSubmit cpuCount fn arg
  match s.queue.freeSlot with
  | none => { s with queue := r.2 }
  | some i =>
    { s with
      queue := r.2
      job := Function.update s.job i r.1
      log := .submitted r.1 s.queue.nextTaskCpu fn arg :: s.log }

/-- A context claims a slot on the CPU it runs on.  It calls the function that it found there. -/
def claimStep (s : Sys) (ctx cpu : Nat) : Sys :=
  match s.queue.claimSlot cpu with
  | none => s
  | some i =>
    { s with
      queue := s.queue.claim i
      frames := Function.update s.frames ctx (i :: s.frames ctx)
      log := .claimed (s.job i) cpu (s.queue.tasks i).fn (s.queue.tasks i).arg :: s.log }

/-- The job that a context has started last returns. -/
def finishStep (s : Sys) (ctx cpu : Nat) : Sys :=
  match s.frames ctx with
  | [] => s
  | i :: rest =>
    { s with
      queue := s.queue.release i cpu
      frames := Function.update s.frames ctx rest
      log := .finished (s.job i) :: s.log }

def step : Op → Sys → Sys
  | .submit cpuCount fn arg, s => submitStep s cpuCount fn arg
  | .claim ctx cpu, s => claimStep s ctx cpu
  | .finish ctx cpu, s => finishStep s ctx cpu

/-- There are fewer than 2^31 submissions. -/
def Allowed : Op → Sys → Prop
  | .submit _ _ _, s => (submittedIds s.log).length + 1 < 2 ^ 31
  | .claim _ _, _ => True
  | .finish _ _, _ => True

/-! ## The invariant -/

/-- The slot is submitted or running. -/
def Occupied (s : Sys) (i : Fin maxTasks) : Prop := (s.queue.tasks i).state ≠ .free

structure Inv (s : Sys) : Prop where
  nextId : s.queue.nextId.toNat = (submittedIds s.log).length + 1
  ids : ∀ id ∈ submittedIds s.log, 0 < id.toNat ∧ id.toNat < s.queue.nextId.toNat
  submittedOnce : (submittedIds s.log).Nodup
  claimedOnce : (claimedIds s.log).Nodup
  claimedOwn : ∀ id cpu fn arg, .claimed id cpu fn arg ∈ s.log → .submitted id cpu fn arg ∈ s.log
  /-- What is in a slot is what was submitted. -/
  slot : ∀ i, Occupied s i → .submitted (s.job i) (s.queue.tasks i).cpuId (s.queue.tasks i).fn
    (s.queue.tasks i).arg ∈ s.log
  unclaimed : ∀ i, (s.queue.tasks i).state = .submitted → s.job i ∉ claimedIds s.log
  /-- The running slots are those in the frames, each in one frame. -/
  running : ∀ i, (s.queue.tasks i).state = .running ↔ ∃ ctx, i ∈ s.frames ctx
  nodup : ∀ ctx, (s.frames ctx).Nodup
  frame : ∀ ctx ctx' i, i ∈ s.frames ctx → i ∈ s.frames ctx' → ctx = ctx'
  inj : ∀ i j, Occupied s i → Occupied s j → s.job i = s.job j → i = j
  /-- No submission is lost. -/
  cover : ∀ id ∈ submittedIds s.log, id ∈ finishedIds s.log ∨ ∃ i, Occupied s i ∧ s.job i = id

section

variable {s s₀ : Sys}

theorem mem_submittedIds {log : List Event} (h : Event.submitted id cpu fn arg ∈ log) :
    id ∈ submittedIds log :=
  mem_filterMap.mpr ⟨_, h, rfl⟩

theorem mem_push {frames : Nat → List (Fin maxTasks)} :
    j ∈ update frames ctx (i :: frames ctx) c ↔ (c = ctx ∧ j = i) ∨ j ∈ frames c := by
  by_cases hc : c = ctx
  · subst hc
    rw [update_self, mem_cons]
    exact or_congr_left ⟨fun heq => ⟨rfl, heq⟩, And.right⟩
  rw [update_of_ne hc]
  exact ⟨.inr, fun hin => hin.resolve_left fun heq => hc heq.1⟩

theorem Inv.mem_pop (h : Inv s) {rest : List (Fin maxTasks)}
    (hframes : s.frames ctx = i :: rest) :
    j ∈ update s.frames ctx rest c ↔ j ∈ s.frames c ∧ j ≠ i := by
  have hi : i ∈ s.frames ctx := hframes ▸ mem_cons_self
  by_cases hc : c = ctx
  · subst hc
    have hnodup := h.nodup c
    rw [hframes, nodup_cons] at hnodup
    rw [update_self, hframes, mem_cons]
    constructor
    · intro hin
      exact ⟨.inr hin, fun heq => hnodup.1 (heq ▸ hin)⟩
    · rintro ⟨heq | hin, hne⟩
      · exact absurd heq hne
      · exact hin
  rw [update_of_ne hc]
  constructor
  · intro hin
    exact ⟨hin, fun heq => hc (h.frame c ctx i (heq ▸ hin) hi)⟩
  · exact And.left

theorem inv_init : Inv Sys.init where
  nextId := rfl
  ids _ h := absurd h not_mem_nil
  submittedOnce := nodup_nil
  claimedOnce := nodup_nil
  claimedOwn _ _ _ _ h := absurd h not_mem_nil
  slot _ h := absurd rfl h
  unclaimed _ h := absurd h SlotState.noConfusion
  running _ := iff_of_false SlotState.noConfusion fun ⟨_, h⟩ => not_mem_nil h
  nodup _ := nodup_nil
  frame _ _ _ h := absurd h not_mem_nil
  inj _ _ h := absurd rfl h
  cover _ h := absurd h not_mem_nil

section

variable (h : Inv s)
include h

theorem Inv.claimed_submitted (hid : id ∈ claimedIds s.log) : id ∈ submittedIds s.log := by
  obtain ⟨e, hmem, heq⟩ := mem_filterMap.mp hid
  cases e with
  | claimed id' cpu fn arg =>
    obtain rfl : id' = id := some.inj heq
    exact mem_submittedIds (h.claimedOwn _ cpu fn arg hmem)
  | submitted | finished => exact absurd heq (by simp [Event.claimedId])

theorem Inv.job_mem (hi : Occupied s i) :
    s.job i ∈ submittedIds s.log := mem_submittedIds (h.slot i hi)

theorem inv_submit (cpuCount : Nat) (fn arg : UInt32)
    (hfew : (submittedIds s.log).length + 1 < 2 ^ 31) : Inv (submitStep s cpuCount fn arg) := by
  unfold submitStep Queue.schedulerSubmit
  cases hslot : s.queue.freeSlot with
  | none => exact h
  | some i =>
    simp only
    have hfree := Queue.freeSlot_some hslot
    have hid := h.nextId
    have hnew : s.queue.nextId ∉ submittedIds s.log := fun hmem =>
      Nat.lt_irrefl _ (h.ids _ hmem).2
    have hnext : (s.queue.nextId + 1).toNat = s.queue.nextId.toNat + 1 := by
      rw [UInt32.toNat_add, UInt32.toNat_one]
      omega
    have hidle : ∀ ctx, i ∉ s.frames ctx := fun ctx hin =>
      absurd (((h.running i).mpr ⟨ctx, hin⟩).symm.trans hfree) SlotState.noConfusion
    refine ⟨?_, fun id hmem => ?_, nodup_cons.mpr ⟨hnew, h.submittedOnce⟩, h.claimedOnce,
      fun id cpu fn' arg' hmem => ?_, fun j hj => ?_, fun j hj => ?_, fun j => ?_, h.nodup, h.frame,
      fun j l hj hl heq => ?_, fun id hmem => ?_⟩
    · show (s.queue.nextId + 1).toNat = (s.queue.nextId :: submittedIds s.log).length + 1
      rw [hnext, hid, length_cons]
    · show 0 < id.toNat ∧ id.toNat < (s.queue.nextId + 1).toNat
      rcases mem_cons.mp hmem with rfl | hmem
      · omega
      have hold := h.ids id hmem
      omega
    · rcases mem_cons.mp hmem with heq | hmem
      · exact absurd heq Event.noConfusion
      · exact mem_cons_of_mem _ (h.claimedOwn id cpu fn' arg' hmem)
    · by_cases hji : j = i
      · subst hji
        simp
      simp only [Occupied, Queue.setSlot_of_ne hji] at hj
      simpa [hji] using Or.inr (h.slot j hj)
    · by_cases hji : j = i
      · subst hji
        simp only [update_self]
        exact fun hclaimed => hnew (h.claimed_submitted hclaimed)
      simp only [Queue.setSlot_of_ne hji] at hj
      simp only [update_of_ne hji]
      exact h.unclaimed j hj
    · by_cases hji : j = i
      · subst hji
        simp only [Queue.setSlot_self]
        exact iff_of_false SlotState.noConfusion fun ⟨ctx, hin⟩ => hidle ctx hin
      simp only [Queue.setSlot_of_ne hji]
      exact h.running j
    · simp only [Occupied] at hj hl
      by_cases hji : j = i
      · by_cases hli : l = i
        · rw [hji, hli]
        simp only [hji, update_self, update_of_ne hli] at heq
        simp only [Queue.setSlot_of_ne hli] at hl
        exact absurd (heq ▸ h.job_mem hl) hnew
      simp only [Queue.setSlot_of_ne hji] at hj
      by_cases hli : l = i
      · simp only [hli, update_self, update_of_ne hji] at heq
        exact absurd (heq ▸ h.job_mem hj) hnew
      simp only [Queue.setSlot_of_ne hli] at hl
      simp only [update_of_ne hji, update_of_ne hli] at heq
      exact h.inj j l hj hl heq
    · rcases mem_cons.mp hmem with rfl | hmem
      · refine .inr ⟨i, ?_, update_self ..⟩
        simp [Occupied]
      rcases h.cover id hmem with hdone | ⟨j, hj, rfl⟩
      · exact .inl hdone
      have hji : j ≠ i := fun hji => hj (hji ▸ hfree)
      refine .inr ⟨j, ?_, update_of_ne hji ..⟩
      simp only [Occupied, Queue.setSlot_of_ne hji]
      exact hj

theorem inv_claim (ctx cpu : Nat) : Inv (claimStep s ctx cpu) := by
  unfold claimStep
  cases hslot : s.queue.claimSlot cpu with
  | none => exact h
  | some i =>
    simp only
    obtain ⟨hstate, hcpu⟩ := Queue.claimSlot_some hslot
    have hocc : Occupied s i := fun hfree => absurd (hstate.symm.trans hfree) SlotState.noConfusion
    have hidle : ∀ ctx', i ∉ s.frames ctx' := fun ctx' hin =>
      absurd (((h.running i).mpr ⟨ctx', hin⟩).symm.trans hstate) SlotState.noConfusion
    have hkept : ∀ j, ((s.queue.claim i).tasks j).state ≠ .free ↔ Occupied s j := by
      intro j
      unfold Queue.claim Occupied
      by_cases hji : j = i
      · subst hji
        exact iff_of_true (by simp) hocc
      · simp only [Queue.setSlot_of_ne hji]
    refine ⟨h.nextId, h.ids, h.submittedOnce, ?_, fun id cpu' fn arg hmem => ?_, fun j hj => ?_,
      fun j hj => ?_, fun j => ?_, fun ctx' => ?_, fun c c' j hc hc' => ?_,
      fun j l hj hl heq => ?_, fun id hmem => ?_⟩
    · exact nodup_cons.mpr ⟨h.unclaimed i hstate, h.claimedOnce⟩
    · rcases mem_cons.mp hmem with heq | hmem
      · obtain ⟨rfl, rfl, rfl, rfl⟩ := Event.claimed.inj heq
        exact mem_cons_of_mem _ (hcpu ▸ h.slot i hocc)
      · exact mem_cons_of_mem _ (h.claimedOwn id cpu' fn arg hmem)
    · have hold := h.slot j ((hkept j).mp hj)
      by_cases hji : j = i
      · subst hji
        simpa [Queue.claim] using hold
      · simpa [Queue.claim, hji] using hold
    · by_cases hji : j = i
      · subst hji
        simp [Queue.claim] at hj
      simp only [Queue.claim, Queue.setSlot_of_ne hji] at hj
      intro hmem
      rcases mem_cons.mp hmem with heq | hmem
      · have hj' : Occupied s j := fun hfree =>
          absurd (hj.symm.trans hfree) SlotState.noConfusion
        exact hji (h.inj j i hj' hocc heq)
      · exact h.unclaimed j hj hmem
    · simp only [mem_push]
      by_cases hji : j = i
      · subst hji
        exact iff_of_true (by simp [Queue.claim]) ⟨ctx, .inl ⟨rfl, rfl⟩⟩
      simp only [Queue.claim, Queue.setSlot_of_ne hji, hji, and_false, false_or]
      exact h.running j
    · by_cases hc : ctx' = ctx
      · subst hc
        simp only [update_self]
        exact nodup_cons.mpr ⟨hidle ctx', h.nodup ctx'⟩
      simp only [update_of_ne hc]
      exact h.nodup ctx'
    · rcases mem_push.mp hc with ⟨rfl, rfl⟩ | hin
      · rcases mem_push.mp hc' with ⟨heq, -⟩ | hin'
        · exact heq.symm
        · exact absurd hin' (hidle c')
      rcases mem_push.mp hc' with ⟨-, rfl⟩ | hin'
      · exact absurd hin (hidle c)
      · exact h.frame c c' j hin hin'
    · exact h.inj j l ((hkept j).mp hj) ((hkept l).mp hl) heq
    · rcases h.cover id hmem with hdone | ⟨j, hj, heq⟩
      · exact .inl hdone
      · exact .inr ⟨j, (hkept j).mpr hj, heq⟩

/-- A job that returns frees its slot.  No other frame is for that slot. -/
theorem inv_finish (ctx cpu : Nat) : Inv (finishStep s ctx cpu) := by
  unfold finishStep
  cases hframes : s.frames ctx with
  | nil => exact h
  | cons i rest =>
    simp only
    have hkept : ∀ j, ((s.queue.release i cpu).tasks j).state ≠ .free ↔ Occupied s j ∧ j ≠ i := by
      intro j
      unfold Queue.release Occupied
      by_cases hji : j = i
      · subst hji
        exact iff_of_false (by simp) fun hne => hne.2 rfl
      simp only [Queue.setSlot_of_ne hji]
      exact ⟨fun hocc => ⟨hocc, hji⟩, And.left⟩
    refine ⟨h.nextId, h.ids, h.submittedOnce, h.claimedOnce, fun id cpu' fn arg hmem => ?_,
      fun j hj => ?_, fun j hj => ?_, fun j => ?_, fun ctx' => ?_, fun c c' j hc hc' => ?_,
      fun j l hj hl heq => ?_, fun id hmem => ?_⟩
    · rcases mem_cons.mp hmem with heq | hmem
      · exact absurd heq Event.noConfusion
      · exact mem_cons_of_mem _ (h.claimedOwn id cpu' fn arg hmem)
    · obtain ⟨hocc, hji⟩ := (hkept j).mp hj
      simp only [Queue.release, Queue.setSlot_of_ne hji]
      exact mem_cons_of_mem _ (h.slot j hocc)
    · have hji : j ≠ i := by
        rintro rfl
        simp [Queue.release] at hj
      simp only [Queue.release, Queue.setSlot_of_ne hji] at hj
      exact h.unclaimed j hj
    · simp only [h.mem_pop hframes]
      by_cases hji : j = i
      · subst hji
        exact iff_of_false (by simp [Queue.release]) fun ⟨_, _, hne⟩ => hne rfl
      simp only [Queue.release, Queue.setSlot_of_ne hji, h.running j]
      exact exists_congr fun _ => (and_iff_left hji).symm
    · by_cases hc : ctx' = ctx
      · subst hc
        have hnodup := h.nodup ctx'
        rw [hframes, nodup_cons] at hnodup
        simp only [update_self]
        exact hnodup.2
      simp only [update_of_ne hc]
      exact h.nodup ctx'
    · exact h.frame c c' j ((h.mem_pop hframes).mp hc).1 ((h.mem_pop hframes).mp hc').1
    · exact h.inj j l ((hkept j).mp hj).1 ((hkept l).mp hl).1 heq
    · rcases h.cover id hmem with hdone | ⟨j, hj, rfl⟩
      · exact .inl (mem_cons_of_mem _ hdone)
      by_cases hji : j = i
      · subst hji
        exact .inl mem_cons_self
      · exact .inr ⟨j, (hkept j).mpr ⟨hj, hji⟩, rfl⟩

theorem inv_step {op : Op} (hop : Allowed op s) : Inv (step op s) := by
  cases op with
  | submit cpuCount fn arg => exact inv_submit h cpuCount fn arg hop
  | claim ctx cpu => exact inv_claim h ctx cpu
  | finish ctx cpu => exact inv_finish h ctx cpu

end

theorem inv_of_reach (h : Reach step Allowed Sys.init s) : Inv s :=
  h.invariant Inv inv_init fun _ _ hs hop => inv_step hs hop

theorem log_suffix_step (op : Op) (s : Sys) : s.log <:+ (step op s).log := by
  cases op with
  | submit cpuCount fn arg =>
    show s.log <:+ (submitStep s cpuCount fn arg).log
    unfold submitStep
    split
    · exact suffix_refl _
    · exact List.suffix_cons ..
  | claim ctx cpu =>
    show s.log <:+ (claimStep s ctx cpu).log
    unfold claimStep
    split
    · exact suffix_refl _
    · exact List.suffix_cons ..
  | finish ctx cpu =>
    show s.log <:+ (finishStep s ctx cpu).log
    unfold finishStep
    split
    · exact suffix_refl _
    · exact List.suffix_cons ..

theorem log_suffix (h : Reach step Allowed s₀ s) : s₀.log <:+ s.log :=
  h.invariant (fun s => s₀.log <:+ s.log) (suffix_refl _) fun op s hs _ =>
    hs.trans (log_suffix_step op s)

/-! ## What a run does -/

/-- A slot that is taken goes from submitted to running to free. -/
def Advances : SlotState → SlotState → Prop
  | .submitted, st => st = .submitted ∨ st = .running
  | .running, st => st = .running ∨ st = .free
  | .free, _ => True

theorem Advances.refl (st : SlotState) : Advances st st := by
  cases st with
  | free => trivial
  | submitted => exact .inl rfl
  | running => exact .inl rfl

/-- A taken slot keeps its job. -/
structure SlotKept (s s' : Sys) (i : Fin maxTasks) : Prop where
  fn : (s'.queue.tasks i).fn = (s.queue.tasks i).fn
  arg : (s'.queue.tasks i).arg = (s.queue.tasks i).arg
  job : s'.job i = s.job i
  state : Advances (s.queue.tasks i).state (s'.queue.tasks i).state

theorem SlotKept.refl (s : Sys) (i : Fin maxTasks) : SlotKept s s i := ⟨rfl, rfl, rfl, .refl _⟩

theorem slotKept_step (h : Inv s) (op : Op) (hi : Occupied s i) :
    SlotKept s (step op s) i := by
  cases op with
  | submit cpuCount fn arg =>
    show SlotKept s (submitStep s cpuCount fn arg) i
    unfold submitStep Queue.schedulerSubmit
    cases hslot : s.queue.freeSlot with
    | none => exact .refl s i
    | some j =>
      have hij : i ≠ j := fun heq => hi (heq ▸ Queue.freeSlot_some hslot)
      refine ⟨?_, ?_, update_of_ne hij .., ?_⟩
      · simp only [Queue.setSlot_of_ne hij]
      · simp only [Queue.setSlot_of_ne hij]
      · simp only [Queue.setSlot_of_ne hij]
        exact .refl _
  | claim ctx cpu =>
    show SlotKept s (claimStep s ctx cpu) i
    unfold claimStep
    cases hslot : s.queue.claimSlot cpu with
    | none => exact .refl s i
    | some j =>
      simp only [Queue.claim]
      by_cases hij : i = j
      · subst hij
        refine ⟨by simp only [Queue.setSlot_self], by simp only [Queue.setSlot_self], rfl, ?_⟩
        simp only [Queue.setSlot_self, (Queue.claimSlot_some hslot).1]
        exact .inr rfl
      refine ⟨?_, ?_, rfl, ?_⟩
      · simp only [Queue.setSlot_of_ne hij]
      · simp only [Queue.setSlot_of_ne hij]
      · simp only [Queue.setSlot_of_ne hij]
        exact .refl _
  | finish ctx cpu =>
    show SlotKept s (finishStep s ctx cpu) i
    unfold finishStep
    cases hframes : s.frames ctx with
    | nil => exact .refl s i
    | cons j rest =>
      simp only [Queue.release]
      by_cases hij : i = j
      · subst hij
        have hrun := (h.running i).mpr ⟨ctx, hframes ▸ mem_cons_self⟩
        refine ⟨by simp only [Queue.setSlot_self], by simp only [Queue.setSlot_self], rfl, ?_⟩
        simp only [Queue.setSlot_self, hrun]
        exact .inr rfl
      refine ⟨?_, ?_, rfl, ?_⟩
      · simp only [Queue.setSlot_of_ne hij]
      · simp only [Queue.setSlot_of_ne hij]
      · simp only [Queue.setSlot_of_ne hij]
        exact .refl _

/-- `scheduler_submit` returns 0 only if every slot is taken. -/
theorem full_of_submit_zero (h : Inv s) (hfew : (submittedIds s.log).length + 1 < 2 ^ 31)
    {cpuCount : Nat} (hzero : (s.queue.schedulerSubmit cpuCount fn arg).1 = 0)
    (i : Fin maxTasks) : Occupied s i := by
  unfold Queue.schedulerSubmit at hzero
  cases hslot : s.queue.freeSlot with
  | none =>
    have hp := Queue.firstSlot_none hslot i
    exact fun hfree => hp (decide_eq_true hfree)
  | some j =>
    rw [hslot] at hzero
    have hid := h.nextId
    rw [show s.queue.nextId = 0 from hzero] at hid
    exact absurd hid (by show ¬ (0 = _); omega)

/-- Once nothing is pending, everything submitted so far has finished. -/
theorem finished_of_not_pending (h : Inv s) (hdone : s.queue.pending = false)
    (hid : id ∈ submittedIds s.log) : id ∈ finishedIds s.log := by
  rcases h.cover id hid with hfinished | ⟨i, hi, -⟩
  · exact hfinished
  · exact absurd (Queue.state_free_of_not_pending hdone i) hi

/-- In every run: the ids are distinct and not 0; every job is claimed at most once, on the CPU and
    with the function and argument that it was submitted with; no step puts another job in a slot
    that is taken; a submission fails only if all slots are taken; and when `scheduler_wait_all`
    returns, whatever was submitted before it was called has finished. -/
theorem jobs_exactly_once (h₀ : Reach step Allowed Sys.init s₀) (h : Reach step Allowed s₀ s) :
    ((submittedIds s.log).Nodup ∧ 0 ∉ submittedIds s.log) ∧
    (claimedIds s.log).Nodup ∧
    (∀ id cpu fn arg, .claimed id cpu fn arg ∈ s.log → .submitted id cpu fn arg ∈ s.log) ∧
    (∀ op i, Occupied s i → SlotKept s (step op s) i) ∧
    ((submittedIds s.log).length + 1 < 2 ^ 31 → ∀ cpuCount fn arg,
      (s.queue.schedulerSubmit cpuCount fn arg).1 = 0 → ∀ i, Occupied s i) ∧
    (s.queue.pending = false → ∀ id ∈ submittedIds s₀.log, id ∈ finishedIds s.log) := by
  have hinv := inv_of_reach (h₀.trans h)
  refine ⟨⟨hinv.submittedOnce, fun hzero => ?_⟩, hinv.claimedOnce, hinv.claimedOwn,
    fun op i => slotKept_step hinv op, fun hfew _ _ _ hz => full_of_submit_zero hinv hfew hz,
    fun hdone id hid => ?_⟩
  · exact Nat.lt_irrefl 0 (hinv.ids 0 hzero).1
  · refine finished_of_not_pending hinv hdone ?_
    exact (List.IsSuffix.subset ((log_suffix h).filterMap _)) hid

/-- A job is submitted; then it is claimed and finishes. -/
theorem jobs_exactly_once_one :
    (step (.finish 0 0) (step (.claim 0 0) (step (.submit 1 7 9) .init))).queue.pending = false ∧
      ∀ id ∈ submittedIds (step (.submit 1 7 9) .init).log,
        id ∈ finishedIds (step (.finish 0 0) (step (.claim 0 0) (step (.submit 1 7 9) .init))).log := by
  have hdone : (step (.finish 0 0) (step (.claim 0 0)
      (step (.submit 1 7 9) .init))).queue.pending = false := by decide
  have hsubmit : Reach step Allowed .init (step (.submit 1 7 9) .init) :=
    Reach.next (Op.submit 1 7 9) .start (show 0 + 1 < 2 ^ 31 by decide)
  have hclaim : Reach step Allowed (step (.submit 1 7 9) .init)
      (step (.claim 0 0) (step (.submit 1 7 9) .init)) := Reach.next (Op.claim 0 0) .start True.intro
  have hrun := jobs_exactly_once hsubmit (Reach.next (Op.finish 0 0) hclaim True.intro)
  exact ⟨hdone, hrun.2.2.2.2.2 hdone⟩

end

end Noverix.Sched.WorkQueue
