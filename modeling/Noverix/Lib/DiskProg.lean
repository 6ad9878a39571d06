/-
  Programs over a block device, as a free monad of device commands.

  A `DiskProg σ S ε α` keeps a private state `σ`, reads and writes sectors of
  type `S`, reports events of type `ε` and returns an `α`.  The program is one
  text with several meanings:

  * `run` executes it on a fault-free disk of `n` sectors (accesses in range
    succeed, accesses past the end fail);
  * `writes` is the sequence of sector writes of that execution, so that
    `cut k` is the disk a power failure after the first `k` writes leaves.

  `wp` is the weakest precondition with a crash condition: the execution ends
  in `Q`, and every disk on the way satisfies `C`.  It is a structural
  recursion, so specifications are proved by rewriting, and `wp_sound` and
  `wp_cut` read the two halves back as statements about `run` and `cut`.
-/

import Noverix.Lib.Names

namespace Noverix.Lib

/-- A program over a block device with sectors `S`. -/
inductive DiskProg (σ S ε α : Type) where
  | ret (a : α)
  | read (lba : Nat) (k : Option S → DiskProg σ S ε α)
  | write (lba : Nat) (s : S) (k : Bool → DiskProg σ S ε α)
  | get (k : σ → DiskProg σ S ε α)
  | put (g : σ) (k : DiskProg σ S ε α)
  | emit (e : ε) (k : DiskProg σ S ε α)

namespace DiskProg

variable {σ S ε α β : Type}

/-- Sequential composition. -/
def bind : DiskProg σ S ε α → (α → DiskProg σ S ε β) → DiskProg σ S ε β
  | .ret a, f => f a
  | .read l k, f => .read l fun r => (k r).bind f
  | .write l s k, f => .write l s fun r => (k r).bind f
  | .get k, f => .get fun g => (k g).bind f
  | .put g k, f => .put g (k.bind f)
  | .emit e k, f => .emit e (k.bind f)

instance : Monad (DiskProg σ S ε) where
  pure := .ret
  bind := .bind

/-- Read sector `lba`; `none` when the device reports an error. -/
def readSec (lba : Nat) : DiskProg σ S ε (Option S) := .read lba .ret

/-- Write sector `lba`; `false` when the device reports an error. -/
def writeSec (lba : Nat) (s : S) : DiskProg σ S ε Bool := .write lba s .ret

/-- The private state. -/
def getState : DiskProg σ S ε σ := .get .ret

/-- Replace the private state. -/
def setState (g : σ) : DiskProg σ S ε Unit := .put g (.ret ())

/-- Report an event. -/
def report (e : ε) : DiskProg σ S ε Unit := .emit e (.ret ())

/-! ## Execution -/

/-- What a fault-free disk of `n` sectors answers to a read. -/
def answer (n : Nat) (d : Nat → S) (lba : Nat) : Option S :=
  if lba < n then some (d lba) else none

/-- Execute on a fault-free disk of `n` sectors. -/
def run (n : Nat) : DiskProg σ S ε α → σ → (Nat → S) → α × σ × (Nat → S)
  | .ret a, g, d => (a, g, d)
  | .read l k, g, d => run n (k (answer n d l)) g d
  | .write l s k, g, d =>
    if l < n then run n (k true) g (Function.update d l s) else run n (k false) g d
  | .get k, g, d => run n (k g) g d
  | .put g' k, _, d => run n k g' d
  | .emit _ k, g, d => run n k g d

/-- The value a program returns. -/
def val (n : Nat) (p : DiskProg σ S ε α) (g : σ) (d : Nat → S) : α := (run n p g d).1

/-- The sector writes an execution performs, in order. -/
def writes (n : Nat) : DiskProg σ S ε α → σ → (Nat → S) → List (Nat × S)
  | .ret _, _, _ => []
  | .read l k, g, d => writes n (k (answer n d l)) g d
  | .write l s k, g, d =>
    if l < n then (l, s) :: writes n (k true) g (Function.update d l s)
    else writes n (k false) g d
  | .get k, g, d => writes n (k g) g d
  | .put g' k, _, d => writes n k g' d
  | .emit _ k, g, d => writes n k g d

/-- Perform a sequence of sector writes. -/
def applyWrites (d : Nat → S) (ws : List (Nat × S)) : Nat → S :=
  ws.foldl (fun d w => Function.update d w.1 w.2) d

/-- The disk left by a power failure after the first `k` sector writes. -/
def cut (n : Nat) (p : DiskProg σ S ε α) (g : σ) (d : Nat → S) (k : Nat) : Nat → S :=
  applyWrites d ((writes n p g d).take k)

/-! ## Weakest preconditions with a crash condition -/

/-- The execution from `(g, d)` ends in `Q`, and every disk it produces on the
    way satisfies `C`. -/
def wp (n : Nat) (C : (Nat → S) → Prop) :
    DiskProg σ S ε α → (α → σ → (Nat → S) → Prop) → σ → (Nat → S) → Prop
  | .ret a, Q, g, d => Q a g d
  | .read l k, Q, g, d => wp n C (k (answer n d l)) Q g d
  | .write l s k, Q, g, d =>
    if l < n then C (Function.update d l s) ∧ wp n C (k true) Q g (Function.update d l s)
    else wp n C (k false) Q g d
  | .get k, Q, g, d => wp n C (k g) Q g d
  | .put g' k, Q, _, d => wp n C k Q g' d
  | .emit _ k, Q, g, d => wp n C k Q g d

section

variable {n : Nat} {C : (Nat → S) → Prop} {g : σ} {d : Nat → S}

@[simp] theorem wp_pure {a : α} {Q : α → σ → (Nat → S) → Prop} :
    wp n C (pure a : DiskProg σ S ε α) Q g d ↔ Q a g d := .rfl

theorem wp_bind' (p : DiskProg σ S ε α) (f : α → DiskProg σ S ε β)
    {Q : β → σ → (Nat → S) → Prop} :
    wp n C (p.bind f) Q g d ↔ wp n C p (fun a g d => wp n C (f a) Q g d) g d := by
  induction p generalizing g d with
  | ret a => rfl
  | read l k ih => exact ih _
  | write l s k ih =>
    unfold bind wp
    by_cases h : l < n
    · rw [if_pos h, if_pos h, ih true]
    · rw [if_neg h, if_neg h, ih false]
  | get k ih => exact ih g
  | put g' k ih => exact ih
  | emit e k ih => exact ih

@[simp] theorem wp_bind {p : DiskProg σ S ε α} {f : α → DiskProg σ S ε β}
    {Q : β → σ → (Nat → S) → Prop} :
    wp n C (p >>= f) Q g d ↔ wp n C p (fun a g d => wp n C (f a) Q g d) g d :=
  wp_bind' p f

variable {l : Nat}

@[simp] theorem wp_readSec {Q : Option S → σ → (Nat → S) → Prop} :
    wp n C (readSec l : DiskProg σ S ε _) Q g d ↔ Q (answer n d l) g d := .rfl

theorem wp_writeSec {s : S} {Q : Bool → σ → (Nat → S) → Prop} :
    wp n C (writeSec l s : DiskProg σ S ε _) Q g d ↔
      if l < n then C (update d l s) ∧ Q true g (update d l s)
      else Q false g d := .rfl

@[simp] theorem wp_getState {Q : σ → σ → (Nat → S) → Prop} :
    wp n C (getState : DiskProg σ S ε _) Q g d ↔ Q g g d := .rfl

@[simp] theorem wp_setState {g' : σ} {Q : Unit → σ → (Nat → S) → Prop} :
    wp n C (setState g' : DiskProg σ S ε _) Q g d ↔ Q () g' d := .rfl

theorem wp_mono {C' : (Nat → S) → Prop} {p : DiskProg σ S ε α}
    {Q Q' : α → σ → (Nat → S) → Prop} (hC : ∀ d, C d → C' d)
    (hQ : ∀ a g d, Q a g d → Q' a g d) (h : wp n C p Q g d) : wp n C' p Q' g d := by
  induction p generalizing g d with
  | ret a => exact hQ a g d h
  | read l k ih => exact ih _ h
  | write l s k ih =>
    unfold wp at h ⊢
    by_cases hl : l < n
    · rw [if_pos hl] at h ⊢
      exact ⟨hC _ h.1, ih true h.2⟩
    rw [if_neg hl] at h ⊢
    exact ih false h
  | get k ih => exact ih g h
  | put g' k ih => exact ih h
  | emit e k ih => exact ih h

theorem run_bind (p : DiskProg σ S ε α) (f : α → DiskProg σ S ε β) :
    run n (p >>= f) g d = run n (f (run n p g d).1) (run n p g d).2.1 (run n p g d).2.2 := by
  induction p generalizing g d with
  | ret a => rfl
  | read l k ih => exact ih _
  | write l s k ih =>
    have hrun : run n (write l s k) g d =
        if l < n then run n (k true) g (update d l s) else run n (k false) g d := rfl
    show (if l < n then run n ((k true).bind f) g (update d l s)
      else run n ((k false).bind f) g d) = _
    rw [hrun]
    by_cases h : l < n
    · rw [if_pos h, if_pos h]
      exact ih true
    rw [if_neg h, if_neg h]
    exact ih false
  | get k ih => exact ih g
  | put g' k ih => exact ih
  | emit e k ih => exact ih

/-- What follows a program in a proof may use what the program computed. -/
theorem wp_run {p : DiskProg σ S ε α} {Q : α → σ → (Nat → S) → Prop} (h : wp n C p Q g d) :
    wp n C p (fun a g' d' => Q a g' d' ∧ run n p g d = (a, g', d')) g d := by
  induction p generalizing g d with
  | ret a => exact ⟨h, rfl⟩
  | read l k ih => exact ih _ h
  | write l s k ih =>
    unfold wp at h ⊢
    unfold run
    by_cases hl : l < n
    · rw [if_pos hl] at h ⊢
      rw [if_pos hl]
      exact ⟨h.1, ih true h.2⟩
    rw [if_neg hl] at h ⊢
    rw [if_neg hl]
    exact ih false h
  | get k ih => exact ih g h
  | put g' k ih => exact ih h
  | emit e k ih => exact ih h

/-- The postcondition half of `wp`: it holds where the execution ends. -/
theorem wp_sound {p : DiskProg σ S ε α} {Q : α → σ → (Nat → S) → Prop}
    (h : wp n C p Q g d) : Q (run n p g d).1 (run n p g d).2.1 (run n p g d).2.2 := by
  induction p generalizing g d with
  | ret a => exact h
  | read l k ih => exact ih _ h
  | write l s k ih =>
    unfold wp at h
    unfold run
    by_cases hl : l < n
    · rw [if_pos hl] at h ⊢
      exact ih true h.2
    rw [if_neg hl] at h ⊢
    exact ih false h
  | get k ih => exact ih g h
  | put g' k ih => exact ih h
  | emit e k ih => exact ih h

/-- The crash half of `wp`: it holds wherever the power fails. -/
theorem wp_cut {p : DiskProg σ S ε α} {Q : α → σ → (Nat → S) → Prop}
    (h : wp n C p Q g d) (h0 : C d) (k : Nat) : C (cut n p g d k) := by
  induction p generalizing g d k with
  | ret a => simpa [cut, writes, applyWrites] using h0
  | read l f ih => exact ih _ h h0 k
  | write l s f ih =>
    unfold wp at h
    unfold cut writes
    by_cases hl : l < n
    · rw [if_pos hl] at h ⊢
      cases k with
      | zero => exact h0
      | succ k => exact ih true h.2 h.1 k
    rw [if_neg hl] at h ⊢
    exact ih false h h0 k
  | get f ih => exact ih g h h0 k
  | put g' f ih => exact ih h h0 k
  | emit e f ih => exact ih h h0 k

end

/-! ## Programs that change nothing -/

/-- The program neither writes sectors nor replaces the private state. -/
def ReadOnly : DiskProg σ S ε α → Prop
  | .ret _ => True
  | .read _ k => ∀ r, ReadOnly (k r)
  | .write _ _ _ => False
  | .get k => ∀ g, ReadOnly (k g)
  | .put _ _ => False
  | .emit _ k => ReadOnly k

theorem ReadOnly.pure (a : α) : ReadOnly (pure a : DiskProg σ S ε α) := trivial

theorem ReadOnly.readSec (l : Nat) : ReadOnly (readSec l : DiskProg σ S ε _) := fun _ => trivial

theorem ReadOnly.getState : ReadOnly (getState : DiskProg σ S ε _) := fun _ => trivial

theorem ReadOnly.report (e : ε) : ReadOnly (report e : DiskProg σ S ε _) := trivial

theorem ReadOnly.bind {p : DiskProg σ S ε α} {f : α → DiskProg σ S ε β}
    (hp : ReadOnly p) (hf : ∀ a, ReadOnly (f a)) : ReadOnly (p >>= f) := by
  induction p with
  | ret a => exact hf a
  | read l k ih => exact fun r => ih r (hp r)
  | write l s k ih => exact hp.elim
  | get k ih => exact fun g => ih g (hp g)
  | put g k ih => exact hp.elim
  | emit e k ih => exact ih hp

/-- A read-only program is characterised by the value it returns. -/
theorem wp_readOnly {n : Nat} {C : (Nat → S) → Prop} {g : σ} {d : Nat → S}
    {p : DiskProg σ S ε α} (hp : ReadOnly p) {Q : α → σ → (Nat → S) → Prop} :
    wp n C p Q g d ↔ Q (val n p g d) g d := by
  induction p with
  | ret a => rfl
  | read l k ih => exact ih _ (hp _)
  | write l s k ih => exact hp.elim
  | get k ih => exact ih g (hp g)
  | put g' k ih => exact hp.elim
  | emit e k ih => exact ih hp

/-! The values of read-only programs compose like functions of the state and
the disk. -/

section

variable {n : Nat} {g : σ} {d : Nat → S}

@[simp] theorem val_pure {a : α} : val n (pure a : DiskProg σ S ε α) g d = a := rfl

variable {l : Nat}

@[simp] theorem val_readSec :
    val n (readSec l : DiskProg σ S ε _) g d = answer n d l := rfl

theorem val_bind {p : DiskProg σ S ε α} {f : α → DiskProg σ S ε β} (hp : ReadOnly p) :
    val n (p >>= f) g d = val n (f (val n p g d)) g d := by
  induction p with
  | ret a => rfl
  | read l k ih => exact ih _ (hp _)
  | write l s k ih => exact hp.elim
  | get k ih => exact ih g (hp g)
  | put g' k ih => exact hp.elim
  | emit e k ih => exact ih hp

theorem val_bind_of_run {p : DiskProg σ S ε α} {f : α → DiskProg σ S ε β} {a : α} {g' : σ}
    {d' : Nat → S} (h : run n p g d = (a, g', d')) : val n (p >>= f) g d = val n (f a) g' d' := by
  unfold val
  rw [run_bind, h]

@[simp] theorem val_bind_getState {f : σ → DiskProg σ S ε β} :
    val n (getState >>= f) g d = val n (f g) g d := rfl

@[simp] theorem val_bind_readSec {f : Option S → DiskProg σ S ε β} :
    val n (readSec l >>= f) g d = val n (f (answer n d l)) g d := rfl

end

end DiskProg

export DiskProg (val val_bind val_pure val_bind_getState val_bind_of_run answer cut wp_sound
  wp_readOnly wp_run wp_readSec wp_writeSec wp_cut)

end Noverix.Lib
