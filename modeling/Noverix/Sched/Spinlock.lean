/-
  The spinlock (kernel/sync/sync.h), instruction by instruction.

  What interleaves on the CPUs are the `xchgl` of a round of `spinlock_lock` or of
  `spinlock_try_lock`, the `movl` of `spinlock_unlock`, and the stores in between.  The
  other modules take a whole section under a lock for one step; here is why they may.
-/

import Noverix.Lib.Runs

namespace Noverix.Sched

open Lib

variable {ι β : Type} [DecidableEq ι]

/-- `locked`, and which CPUs have taken the lock and not released it.  The stores made
    meanwhile are recorded: all of them in order, those of each CPU since it took the lock, and
    the sections that are over. -/
structure SpinState (ι β : Type) where
  locked : UInt32
  inside : ι → Bool
  trace : List (ι × β)
  current : ι → List β
  released : List (ι × List β)

/-- Before the lock is used. -/
def spinInit : SpinState ι β := ⟨0, fun _ => false, [], fun _ => [], []⟩

inductive SpinOp (β : Type) where
  /-- A CPU that reads 0 goes on, any other tries again or gives up. -/
  | xchg
  | store (b : β)
  | unlock

def spinStep : ι × SpinOp β → SpinState ι β → SpinState ι β
  | (cpu, .xchg), s =>
    { s with locked := 1, inside := update s.inside cpu (decide (s.locked = 0)) }
  | (cpu, .store b), s =>
    { s with
      trace := s.trace ++ [(cpu, b)]
      current := update s.current cpu (s.current cpu ++ [b]) }
  | (cpu, .unlock), s =>
    { s with
      locked := 0
      inside := update s.inside cpu false
      current := update s.current cpu []
      released := s.released ++ [(cpu, s.current cpu)] }

/-- Who takes the lock has not got it; who stores or releases has. -/
def SpinAllowed : ι × SpinOp β → SpinState ι β → Prop
  | (cpu, .xchg), s => s.inside cpu = false
  | (cpu, _), s => s.inside cpu = true

/-- Sections one after another, store by store. -/
def inTurn (l : List (ι × List β)) : List (ι × β) := l.flatMap fun x => x.2.map (x.1, ·)

/-- One CPU at a time; and the stores are the sections in turn, with the one of the CPU that is
    inside, if any, at the end. -/
structure Serial (s : SpinState ι β) : Prop where
  alone : ∀ i j, s.inside i = true → s.inside j = true → i = j
  word : s.locked = 0 ↔ ∀ i, s.inside i = false
  fresh : ∀ i, s.inside i = false → s.current i = []
  trace : ∀ i, (∀ j, s.inside j = true → j = i) →
    s.trace = inTurn s.released ++ (s.current i).map (i, ·)

theorem Serial.step {s : SpinState ι β} (h : Serial s) (op : ι × SpinOp β)
    (hop : SpinAllowed op s) : Serial (spinStep op s) := by
  obtain ⟨cpu, _ | b | _⟩ := op
  · -- an exchange lets the CPU in exactly if nobody is inside
    by_cases hfree : s.locked = 0
    · have hnone := h.word.mp hfree
      have hin : ∀ i, update s.inside cpu true i = true ↔ i = cpu := by
        intro i
        by_cases hi : i = cpu
        · simp [hi]
        · simp [hi, hnone i]
      simp only [spinStep, hfree, decide_true]
      refine ⟨fun i j hi hj => ((hin i).mp hi).trans ((hin j).mp hj).symm, ?_,
        fun i _ => h.fresh i (hnone i), fun i _ => ?_⟩
      · exact iff_of_false (by simp) fun hall => by simpa using hall cpu
      · exact h.trace i fun j hj => by simp [hnone j] at hj
    · have hsame : update s.inside cpu false = s.inside := by
        rw [← show s.inside cpu = false from hop, update_eq_self]
      simp only [spinStep, hfree, decide_false, hsame]
      exact ⟨h.alone, iff_of_false (by simp) (mt h.word.mpr hfree), h.fresh, h.trace⟩
  · have hcpu : s.inside cpu = true := hop
    refine ⟨h.alone, h.word, fun i hi => ?_, fun i hi => ?_⟩
    · have hne : i ≠ cpu := fun heq => by simp [spinStep, heq, hcpu] at hi
      exact (update_of_ne hne ..).trans (h.fresh i hi)
    · obtain rfl := hi cpu hcpu
      simp [spinStep, h.trace cpu hi]
  · have hcpu : s.inside cpu = true := hop
    have hnone : ∀ i, update s.inside cpu false i = false := by
      intro i
      by_cases hi : i = cpu
      · simp [hi]
      · simpa [hi] using mt (h.alone i cpu · hcpu) hi
    have hempty : ∀ i, update s.current cpu [] i = [] := by
      intro i
      by_cases hi : i = cpu
      · simp [hi]
      · simpa [hi] using h.fresh i (by simpa [hi] using hnone i)
    refine ⟨fun i j hi => ?_, iff_of_true rfl hnone, fun i _ => hempty i, fun i _ => ?_⟩
    · exact absurd ((hnone i).symm.trans hi) (by decide)
    · have htrace := h.trace cpu fun j hj => h.alone j cpu hj hcpu
      simp [spinStep, hempty i, htrace, inTurn]

/-- Whatever the CPUs do in which order: one at a time has the lock, `locked` is 0 exactly when
    none has, and the stores made under it are whole sections, one after the other. -/
theorem spinlock_serializes (s : SpinState ι β) (hs : Reach spinStep SpinAllowed spinInit s) :
    Serial s :=
  hs.invariant Serial ⟨by simp [spinInit], by simp [spinInit], fun _ _ => rfl, fun _ _ => rfl⟩
    fun op _ h hop => h.step op hop

/-- CPU 1 tries while CPU 0 is inside. -/
theorem spinlock_serializes_contended : ∃ s : SpinState Nat Nat, s.inside 0 = true ∧
    s.inside 1 = false ∧ s.trace = inTurn s.released ++ (s.current 0).map (0, ·) := by
  have hs : Reach spinStep SpinAllowed spinInit (spinStep (1, .xchg) (spinStep (0, .store 7)
      (spinStep (0, .xchg) (spinInit : SpinState Nat Nat)))) :=
    .next _ (.next _ (.next _ .start rfl) rfl) rfl
  have h := spinlock_serializes _ hs
  exact ⟨_, rfl, rfl, h.trace 0 fun j hj => h.alone j 0 hj rfl⟩

end Noverix.Sched
