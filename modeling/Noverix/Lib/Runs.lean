/-
  Runs of a deterministic machine: the states reached from a start by steps
  that each meet a condition in the state they are taken from, and the rule
  that what a step keeps, a run keeps.
-/

import Noverix.Lib.Names

namespace Noverix.Lib

variable {σ ω : Type*} {step : ω → σ → σ} {ok ok' : ω → σ → Prop} {s₀ s : σ}

/-- The states that runs from `s₀` reach, with every step allowed by `ok`. -/
inductive Reach (step : ω → σ → σ) (ok : ω → σ → Prop) (s₀ : σ) : σ → Prop where
  | start : Reach step ok s₀ s₀
  | next {s : σ} (op : ω) : Reach step ok s₀ s → ok op s → Reach step ok s₀ (step op s)

namespace Reach

/-- What holds at the start and is kept by every allowed step holds in every
    state reached. -/
theorem invariant (Inv : σ → Prop) (h : Reach step ok s₀ s) (h0 : Inv s₀)
    (hstep : ∀ op s, Inv s → ok op s → Inv (step op s)) : Inv s := by
  induction h with
  | start => exact h0
  | next op _ hop ih => exact hstep op _ ih hop

/-- A run may go on from where another has ended. -/
theorem trans {s1 : σ} (h1 : Reach step ok s₀ s1) (h : Reach step ok s1 s) :
    Reach step ok s₀ s := by
  induction h with
  | start => exact h1
  | next op _ hop ih => exact .next op ih hop

/-- A weaker condition on steps reaches what a stronger one does. -/
theorem mono (h : Reach step ok s₀ s) (himp : ∀ op s, ok op s → ok' op s) :
    Reach step ok' s₀ s := by
  induction h with
  | start => exact .start
  | next op _ hop ih => exact .next op ih (himp op _ hop)

end Reach

end Noverix.Lib
