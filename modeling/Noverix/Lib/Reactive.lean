/-
  Programs that keep a state and ask their surroundings.

  A `Reactive σ Q A α` reads and writes a state `σ`, asks questions `q : Q` that
  are answered with an `A q`, and returns an `α`.  What the surroundings may
  answer, and when, is a parameter `ok` of every meaning of the program:

  * `Outcome` relates the states before and after one execution;
  * `Step` is a machine that runs programs one after another, each started in
    a state in which `calls` allows it, and `Reached` its configurations.

  `wp` is the weakest precondition with a condition `R` on every change of the
  state on the way.  It is a structural recursion, so specifications are proved
  by rewriting; `wp_iff` reads it as a statement about outcomes, and
  `Reached.kept` as one about every step of every run.
-/

import Noverix.Lib.Names
import Mathlib.Logic.Relation

namespace Noverix.Lib

/-- A program with state `σ`, questions `Q` and answers `A`. -/
inductive Reactive (σ Q : Type) (A : Q → Type) (α : Type) where
  | ret (a : α)
  | read (k : σ → Reactive σ Q A α)
  | write (s : σ) (k : Reactive σ Q A α)
  | query (q : Q) (k : A q → Reactive σ Q A α)

namespace Reactive

variable {σ Q : Type} {A : Q → Type} {α β : Type}

/-- Sequential composition. -/
def bind : Reactive σ Q A α → (α → Reactive σ Q A β) → Reactive σ Q A β
  | .ret a, f => f a
  | .read k, f => .read fun s => (k s).bind f
  | .write s k, f => .write s (k.bind f)
  | .query q k, f => .query q fun a => (k a).bind f

instance : Monad (Reactive σ Q A) where
  pure := .ret
  bind := .bind

theorem bind_pure_unit (p : Reactive σ Q A Unit) : (p >>= fun _ => pure ()) = p := by
  induction p with
  | ret a => rfl
  | read k ih => exact congrArg Reactive.read (funext ih)
  | write s k ih => exact congrArg (Reactive.write s) ih
  | query q k ih => exact congrArg (Reactive.query q) (funext ih)

/-- The state. -/
def getState : Reactive σ Q A σ := .read .ret

/-- Replace the state. -/
def setState (s : σ) : Reactive σ Q A Unit := .write s (.ret ())

/-- The answer to a question. -/
def ask (q : Q) : Reactive σ Q A (A q) := .query q .ret

/-! ## Executions -/

/-- One execution from `s` can return `b` in state `s'`, if the surroundings answer as
    `ok` allows. -/
def Outcome (ok : σ → (q : Q) → A q → Prop) : Reactive σ Q A α → σ → α → σ → Prop
  | .ret a, s, b, s' => b = a ∧ s' = s
  | .read k, s, b, s' => Outcome ok (k s) s b s'
  | .write t k, _, b, s' => Outcome ok k t b s'
  | .query q k, s, b, s' => ∃ a, ok s q a ∧ Outcome ok (k a) s b s'

/-- Every execution from `s` ends in `Post`, and every write on the way is allowed by `R`. -/
def wp (ok : σ → (q : Q) → A q → Prop) (R : σ → σ → Prop) :
    Reactive σ Q A α → (α → σ → Prop) → σ → Prop
  | .ret a, Post, s => Post a s
  | .read k, Post, s => wp ok R (k s) Post s
  | .write t k, Post, s => R s t ∧ wp ok R k Post t
  | .query q k, Post, s => ∀ a, ok s q a → wp ok R (k a) Post s

/-- The state after an execution in which each question has one answer. -/
def exec (answer : (q : Q) → A q) : Reactive σ Q A α → σ → σ
  | .ret _, s => s
  | .read k, s => exec answer (k s) s
  | .write t k, _ => exec answer k t
  | .query q k, s => exec answer (k (answer q)) s

/-- Each question of that execution is asked in a state that passes `check`. -/
def execAll (check : σ → Q → Bool) (answer : (q : Q) → A q) : Reactive σ Q A α → σ → Bool
  | .ret _, _ => true
  | .read k, s => execAll check answer (k s) s
  | .write t k, _ => execAll check answer k t
  | .query q k, s => check s q && execAll check answer (k (answer q)) s

section

variable {ok : σ → (q : Q) → A q → Prop} {R R' : σ → σ → Prop} {Post Post' : α → σ → Prop} {s : σ}

@[simp] theorem wp_getState {P : σ → σ → Prop} :
    wp ok R (getState : Reactive σ Q A σ) P s ↔ P s s := .rfl

@[simp] theorem wp_setState {t : σ} {P : Unit → σ → Prop} :
    wp ok R (setState t : Reactive σ Q A Unit) P s ↔ R s t ∧ P () t := .rfl

@[simp] theorem wp_bind {p : Reactive σ Q A α} {f : α → Reactive σ Q A β}
    {P : β → σ → Prop} :
    wp ok R (p >>= f) P s ↔ wp ok R p (fun a t => wp ok R (f a) P t) s := by
  induction p generalizing s with
  | ret a => exact .rfl
  | read k ih => exact ih s
  | write t k ih => exact and_congr_right fun _ => ih
  | query q k ih => exact forall_congr' fun a => imp_congr_right fun _ => ih a

theorem wp_mono {p : Reactive σ Q A α} (hR : ∀ s t, R s t → R' s t)
    (hPost : ∀ a t, Post a t → Post' a t) (h : wp ok R p Post s) : wp ok R' p Post' s := by
  induction p generalizing s with
  | ret a => exact hPost a s h
  | read k ih => exact ih s h
  | write t k ih => exact ⟨hR s t h.1, ih h.2⟩
  | query q k ih => exact fun a ha => ih a (h a ha)

/-- A specification, used where more is to be shown of the outcome. -/
theorem wp_imp {p : Reactive σ Q A α} (h : wp ok R p Post s)
    (hPost : ∀ a t, Post a t → Post' a t) : wp ok R p Post' s :=
  wp_mono (fun _ _ h => h) hPost h

/-- Without a condition on the writes, `wp` speaks about the outcomes. -/
theorem wp_iff {p : Reactive σ Q A α} :
    wp ok (fun _ _ => True) p Post s ↔ ∀ b t, Outcome ok p s b t → Post b t := by
  induction p generalizing s with
  | ret a =>
    constructor
    · rintro h b t ⟨rfl, rfl⟩
      exact h
    · exact fun h => h a s ⟨rfl, rfl⟩
  | read k ih => exact ih s
  | write t k ih => exact (and_iff_right trivial).trans ih
  | query q k ih =>
    constructor
    · rintro h b t ⟨a, ha, hout⟩
      exact (ih a).mp (h a ha) b t hout
    · exact fun h a ha => (ih a).mpr fun b t hout => h b t ⟨a, ha, hout⟩

theorem exists_outcome (hok : ∀ s q, ∃ a, ok s q a) (p : Reactive σ Q A α) (s : σ) :
    ∃ b t, Outcome ok p s b t := by
  induction p generalizing s with
  | ret a => exact ⟨a, s, rfl, rfl⟩
  | read k ih => exact ih s s
  | write t k ih => exact ih t
  | query q k ih =>
    obtain ⟨a, ha⟩ := hok s q
    obtain ⟨b, t, hout⟩ := ih a s
    exact ⟨b, t, a, ha, hout⟩

end

/-! ## Runs -/

/-- A machine between two instructions of a program. -/
structure Conf (σ Q : Type) (A : Q → Type) where
  st : σ
  prog : Reactive σ Q A Unit

/-- One step: an idle machine is given a program, or the next instruction is executed. -/
inductive Step (calls : σ → Reactive σ Q A Unit → Prop) (ok : σ → (q : Q) → A q → Prop) :
    Conf σ Q A → Conf σ Q A → Prop where
  | call {s : σ} {p : Reactive σ Q A Unit} : calls s p → Step calls ok ⟨s, .ret ()⟩ ⟨s, p⟩
  | read {s : σ} {k : σ → Reactive σ Q A Unit} : Step calls ok ⟨s, .read k⟩ ⟨s, k s⟩
  | write {s t : σ} {k : Reactive σ Q A Unit} : Step calls ok ⟨s, .write t k⟩ ⟨t, k⟩
  | query {s : σ} {q : Q} {k : A q → Reactive σ Q A Unit} {a : A q} :
      ok s q a → Step calls ok ⟨s, .query q k⟩ ⟨s, k a⟩

/-- The configurations of the runs from `s₀`. -/
def Reached (calls : σ → Reactive σ Q A Unit → Prop) (ok : σ → (q : Q) → A q → Prop) (s₀ : σ) :
    Conf σ Q A → Prop :=
  Relation.ReflTransGen (Step calls ok) ⟨s₀, .ret ()⟩

section

variable {calls : σ → Reactive σ Q A Unit → Prop} {ok : σ → (q : Q) → A q → Prop}
  {R : σ → σ → Prop} {I : σ → Prop} {s₀ : σ} {c c' : Conf σ Q A}

theorem Step.wp {Post : Unit → σ → Prop}
    (hcall : ∀ s p, Post () s → calls s p → wp ok R p Post s)
    (h : Reactive.wp ok R c.prog Post c.st) (hstep : Step calls ok c c') :
    Reactive.wp ok R c'.prog Post c'.st ∧ (c'.st = c.st ∨ R c.st c'.st) := by
  cases hstep with
  | call hc => exact ⟨hcall _ _ h hc, .inl rfl⟩
  | read => exact ⟨h, .inl rfl⟩
  | write => exact ⟨h.2, .inr h.1⟩
  | query ha => exact ⟨h _ ha, .inl rfl⟩

theorem Reached.wp {Post : Unit → σ → Prop} (h0 : Post () s₀)
    (hcall : ∀ s p, Post () s → calls s p → Reactive.wp ok R p Post s)
    (h : Reached calls ok s₀ c) : Reactive.wp ok R c.prog Post c.st := by
  induction h with
  | refl => exact h0
  | tail _ hstep ih => exact (hstep.wp hcall ih).1

/-- If every program keeps `I` and writes as `R` allows, then every step of a run is as `R`
    allows. -/
theorem Reached.kept (h0 : I s₀)
    (hcall : ∀ s p, I s → calls s p → Reactive.wp ok R p (fun _ => I) s)
    (h : Reached calls ok s₀ c) (hstep : Step calls ok c c') : c'.st = c.st ∨ R c.st c'.st := by
  have hwp : Reactive.wp ok R c.prog (fun _ => I) c.st := Reached.wp h0 hcall h
  exact (hstep.wp hcall hwp).2

/-- What holds at the start and is kept by every write holds throughout. -/
theorem Reached.invariant {J : σ → Prop} (hJ : J s₀) (hR : ∀ s t, J s → R s t → J t) (h0 : I s₀)
    (hcall : ∀ s p, I s → calls s p → Reactive.wp ok R p (fun _ => I) s)
    (h : Reached calls ok s₀ c) : J c.st := by
  induction h with
  | refl => exact hJ
  | tail hreach hstep ih =>
    rcases Reached.kept h0 hcall hreach hstep with heq | hr
    · rw [heq]
      exact ih
    · exact hR _ _ ih hr

/-- One execution as a run, if its questions may be answered where `check` passes. -/
theorem Reached.exec_of_check {s : σ} {p : Reactive σ Q A Unit} {answer : (q : Q) → A q}
    {check : σ → Q → Bool} (h : Reached calls ok s₀ ⟨s, .ret ()⟩) (hcall : calls s p)
    (hok : ∀ t q, check t q = true → ok t q (answer q))
    (hcheck : p.execAll check answer s = true) :
    Reached calls ok s₀ ⟨p.exec answer s, .ret ()⟩ := by
  refine Relation.ReflTransGen.trans (h.tail (Step.call hcall)) ?_
  clear h hcall
  induction p generalizing s with
  | ret a => exact .refl
  | read k ih => exact (Relation.ReflTransGen.single Step.read).trans (ih s hcheck)
  | write t k ih => exact (Relation.ReflTransGen.single Step.write).trans (ih hcheck)
  | query q k ih =>
    obtain ⟨hq, hrest⟩ := Bool.and_eq_true_iff.mp hcheck
    exact (Relation.ReflTransGen.single (Step.query (hok s q hq))).trans (ih _ hrest)

theorem Reached.exec {s : σ} {p : Reactive σ Q A Unit} (answer : (q : Q) → A q)
    (hok : ∀ t q, ok t q (answer q)) (h : Reached calls ok s₀ ⟨s, .ret ()⟩) (hcall : calls s p) :
    Reached calls ok s₀ ⟨p.exec answer s, .ret ()⟩ := by
  refine h.exec_of_check hcall (fun t q (_ : (fun _ _ => true) t q = true) => hok t q) ?_
  clear h hcall
  induction p generalizing s with
  | ret a => rfl
  | read k ih => exact ih s
  | write t k ih => exact ih
  | query q k ih => exact ih _

end

end Reactive

export Reactive (Outcome exists_outcome wp_iff wp_imp)

end Noverix.Lib
