/-
  Programs on a device that may fail.  A fault pattern (`Faults`) says of every
  access whether it fails; `exec` runs a program under a pattern, with a failed
  write leaving its sector as it was.  A `Device` says what may happen at each
  sector, and stands for all the patterns that fit it.

  * `must D p Q`: whatever the device does, the program ends in `Q`.  It is a
    structural recursion with one rule for each command, and `must_sound` reads
    it back as a statement about `exec`.
  * `may D p Q`: the device can make the program end in `Q`; `may_exec` gives
    the pattern.

  A program that takes notes (`Noted`) is a program whose steps also write to a
  list.  Erasing the notes (`Noted.erase`) gives back the plain program, so that
  what happened inside an execution can be spoken about without changing it.
-/

import Noverix.Lib.DiskProg

namespace Noverix.Lib

/-- Which accesses fail: `fl k l` for the `k`-th access, if it is to sector `l`. -/
abbrev Faults := Nat → Nat → Bool

/-- The faults left after the first access. -/
def Faults.next (fl : Faults) : Faults := fun k => fl (k + 1)

/-- What may happen to an access: sectors that may serve it, sectors that may fail it. -/
structure Device where
  ok : Nat → Prop
  bad : Nat → Prop

/-- The pattern does nothing that the device may not do. -/
structure Faults.Fits (fl : Faults) (D : Device) : Prop where
  bad : ∀ k l, fl k l = true → D.bad l
  ok : ∀ k l, fl k l = false → D.ok l

theorem Faults.Fits.next {fl : Faults} {D : Device} (h : fl.Fits D) : fl.next.Fits D :=
  ⟨fun k l => h.bad (k + 1) l, fun k l => h.ok (k + 1) l⟩

/-- What the pattern ever does. -/
def Faults.device (fl : Faults) : Device where
  ok l := ∃ k, fl k l = false
  bad l := ∃ k, fl k l = true

theorem Faults.device_fits (fl : Faults) : fl.Fits fl.device :=
  ⟨fun k _ h => ⟨k, h⟩, fun k _ h => ⟨k, h⟩⟩

theorem Faults.Fits.of_device {fl : Faults} {D : Device} (h : fl.Fits D) :
    (∀ l, fl.device.ok l → D.ok l) ∧ ∀ l, fl.device.bad l → D.bad l :=
  ⟨fun l ⟨k, hk⟩ => h.ok k l hk, fun l ⟨k, hk⟩ => h.bad k l hk⟩

/-- A disk of `n` sectors without faults. -/
def Faults.none (n : Nat) : Faults := fun _ l => decide (n ≤ l)

/-- What a disk of `n` sectors without faults may do. -/
def Device.sound (n : Nat) : Device := ⟨fun l => l < n, fun l => n ≤ l⟩

theorem Faults.none_fits (n : Nat) : (Faults.none n).Fits (Device.sound n) := by
  refine ⟨fun _ l h => ?_, fun _ l h => ?_⟩
  · exact of_decide_eq_true (p := n ≤ l) h
  · exact not_le.mp (of_decide_eq_false (p := n ≤ l) h)

namespace DiskProg

variable {σ S ε α β γ : Type}

/-! ## Execution under faults -/

/-- Execute under a fault pattern. -/
def exec : Faults → DiskProg σ S ε α → σ → (Nat → S) → α × σ × (Nat → S)
  | _, .ret a, g, d => (a, g, d)
  | fl, .read l k, g, d => exec fl.next (k (if fl 0 l then none else some (d l))) g d
  | fl, .write l s k, g, d =>
    if fl 0 l then exec fl.next (k false) g d
    else exec fl.next (k true) g (Function.update d l s)
  | fl, .get k, g, d => exec fl (k g) g d
  | fl, .put g' k, _, d => exec fl k g' d
  | fl, .emit _ k, g, d => exec fl k g d

theorem exec_write (fl : Faults) (l : Nat) (s : S) (k : Bool → DiskProg σ S ε α) (g : σ)
    (d : Nat → S) : exec fl (.write l s k) g d =
      if fl 0 l then exec fl.next (k false) g d
      else exec fl.next (k true) g (update d l s) := rfl

theorem exec_none (n : Nat) (p : DiskProg σ S ε α) (g : σ) (d : Nat → S) :
    exec (Faults.none n) p g d = run n p g d := by
  induction p generalizing g d with
  | ret a => rfl
  | read l k ih =>
    have hanswer : (if Faults.none n 0 l then none else some (d l)) = answer n d l := by
      by_cases h : l < n
      · simp [Faults.none, answer, h, Nat.not_le.mpr h]
      · simp [Faults.none, answer, h, not_lt.mp h]
    unfold exec run
    rw [hanswer]
    exact ih _ g d
  | write l s k ih =>
    unfold exec run
    by_cases h : l < n
    · rw [if_neg (by simpa [Faults.none] using h), if_pos h]
      exact ih true g _
    rw [if_pos (by simpa [Faults.none] using h), if_neg h]
    exact ih false g d
  | get k ih => exact ih g g d
  | put g' k ih => exact ih g' d
  | emit e k ih => exact ih g d

/-! ## What must happen -/

/-- Whatever the device does, the execution from `(g, d)` ends in `Q`. -/
def must (D : Device) :
    DiskProg σ S ε α → (α → σ → (Nat → S) → Prop) → σ → (Nat → S) → Prop
  | .ret a, Q, g, d => Q a g d
  | .read l k, Q, g, d =>
    (D.bad l → must D (k none) Q g d) ∧ (D.ok l → must D (k (some (d l))) Q g d)
  | .write l s k, Q, g, d =>
    (D.bad l → must D (k false) Q g d) ∧
      (D.ok l → must D (k true) Q g (Function.update d l s))
  | .get k, Q, g, d => must D (k g) Q g d
  | .put g' k, Q, _, d => must D k Q g' d
  | .emit _ k, Q, g, d => must D k Q g d

section

variable {D : Device} {g : σ} {d : Nat → S}

@[simp] theorem must_pure {a : α} {Q : α → σ → (Nat → S) → Prop} :
    must D (pure a : DiskProg σ S ε α) Q g d ↔ Q a g d := .rfl

variable {l : Nat}

@[simp] theorem must_readSec {Q : Option S → σ → (Nat → S) → Prop} :
    must D (readSec l : DiskProg σ S ε _) Q g d ↔
      (D.bad l → Q none g d) ∧ (D.ok l → Q (some (d l)) g d) := .rfl

@[simp] theorem must_writeSec {s : S} {Q : Bool → σ → (Nat → S) → Prop} :
    must D (writeSec l s : DiskProg σ S ε _) Q g d ↔
      (D.bad l → Q false g d) ∧ (D.ok l → Q true g (update d l s)) := .rfl

@[simp] theorem must_getState {Q : σ → σ → (Nat → S) → Prop} :
    must D (getState : DiskProg σ S ε _) Q g d ↔ Q g g d := .rfl

theorem must_bind' (p : DiskProg σ S ε α) (f : α → DiskProg σ S ε β)
    {Q : β → σ → (Nat → S) → Prop} :
    must D (p.bind f) Q g d ↔ must D p (fun a g d => must D (f a) Q g d) g d := by
  induction p generalizing g d with
  | ret a => rfl
  | read l k ih => exact and_congr (imp_congr Iff.rfl (ih _)) (imp_congr Iff.rfl (ih _))
  | write l s k ih => exact and_congr (imp_congr Iff.rfl (ih _)) (imp_congr Iff.rfl (ih _))
  | get k ih => exact ih g
  | put g' k ih => exact ih
  | emit e k ih => exact ih

@[simp] theorem must_bind {p : DiskProg σ S ε α} {f : α → DiskProg σ S ε β}
    {Q : β → σ → (Nat → S) → Prop} :
    must D (p >>= f) Q g d ↔ must D p (fun a g d => must D (f a) Q g d) g d :=
  must_bind' p f

theorem must_mono {p : DiskProg σ S ε α} {Q Q' : α → σ → (Nat → S) → Prop}
    (hQ : ∀ a g d, Q a g d → Q' a g d) (h : must D p Q g d) : must D p Q' g d := by
  induction p generalizing g d with
  | ret a => exact hQ a g d h
  | read l k ih => exact ⟨fun hb => ih _ (h.1 hb), fun ho => ih _ (h.2 ho)⟩
  | write l s k ih => exact ⟨fun hb => ih _ (h.1 hb), fun ho => ih _ (h.2 ho)⟩
  | get k ih => exact ih g h
  | put g' k ih => exact ih h
  | emit e k ih => exact ih h

theorem must_and {p : DiskProg σ S ε α} {Q Q' : α → σ → (Nat → S) → Prop} (h : must D p Q g d)
    (h' : must D p Q' g d) : must D p (fun a g d => Q a g d ∧ Q' a g d) g d := by
  induction p generalizing g d with
  | ret a => exact ⟨h, h'⟩
  | read l k ih => exact ⟨fun hb => ih _ (h.1 hb) (h'.1 hb), fun ho => ih _ (h.2 ho) (h'.2 ho)⟩
  | write l s k ih => exact ⟨fun hb => ih _ (h.1 hb) (h'.1 hb), fun ho => ih _ (h.2 ho) (h'.2 ho)⟩
  | get k ih => exact ih g h h'
  | put g' k ih => exact ih h h'
  | emit e k ih => exact ih h h'

/-- What holds whatever the program does. -/
theorem must_of_forall {p : DiskProg σ S ε α} {Q : α → σ → (Nat → S) → Prop}
    (h : ∀ a g d, Q a g d) : must D p Q g d := by
  induction p generalizing g d with
  | ret a => exact h a g d
  | read l k ih => exact ⟨fun _ => ih _, fun _ => ih _⟩
  | write l s k ih => exact ⟨fun _ => ih _, fun _ => ih _⟩
  | get k ih => exact ih g
  | put g' k ih => exact ih
  | emit e k ih => exact ih

/-- A program that changes nothing is characterised by the values it may return. -/
theorem must_of_readOnly {p : DiskProg σ S ε α} (hp : ReadOnly p) {R : α → Prop}
    (h : must D p (fun a _ _ => R a) g d) {Q : α → σ → (Nat → S) → Prop}
    (hQ : ∀ a, R a → Q a g d) : must D p Q g d := by
  induction p with
  | ret a => exact hQ a h
  | read l k ih => exact ⟨fun hb => ih _ (hp _) (h.1 hb), fun ho => ih _ (hp _) (h.2 ho)⟩
  | write l s k ih => exact hp.elim
  | get k ih => exact ih g (hp g) h
  | put g' k ih => exact hp.elim
  | emit e k ih => exact ih hp h

/-- Every execution under a pattern that fits ends in `Q`. -/
theorem must_sound {fl : Faults} (hfl : fl.Fits D) {p : DiskProg σ S ε α}
    {Q : α → σ → (Nat → S) → Prop} (h : must D p Q g d) :
    Q (exec fl p g d).1 (exec fl p g d).2.1 (exec fl p g d).2.2 := by
  induction p generalizing fl g d with
  | ret a => exact h
  | read l k ih =>
    unfold exec
    cases hl : fl 0 l with
    | true => exact ih _ hfl.next (h.1 (hfl.bad 0 l hl))
    | false => exact ih _ hfl.next (h.2 (hfl.ok 0 l hl))
  | write l s k ih =>
    unfold exec
    cases hl : fl 0 l with
    | true => exact ih _ hfl.next (h.1 (hfl.bad 0 l hl))
    | false => exact ih _ hfl.next (h.2 (hfl.ok 0 l hl))
  | get k ih => exact ih g hfl h
  | put g' k ih => exact ih hfl h
  | emit e k ih => exact ih hfl h

variable {n : Nat}

theorem must_run {p : DiskProg σ S ε α} {Q : α → σ → (Nat → S) → Prop}
    (h : must (Device.sound n) p Q g d) :
    Q (run n p g d).1 (run n p g d).2.1 (run n p g d).2.2 := by
  rw [← exec_none]
  exact must_sound (Faults.none_fits n) h

theorem must_val {p : DiskProg σ S ε α} (hp : ReadOnly p) :
    must (Device.sound n) p (fun a _ _ => a = val n p g d) g d := by
  induction p with
  | ret a => exact rfl
  | read l k ih =>
    unfold val run
    refine ⟨fun hl => ?_, fun hl => ?_⟩
    · rw [answer, if_neg (Nat.not_lt.mpr hl)]
      exact ih _ (hp _)
    · have hin : l < n := hl
      rw [answer, if_pos hin]
      exact ih _ (hp _)
  | write l s k ih => exact hp.elim
  | get k ih => exact ih g (hp g)
  | put g' k ih => exact hp.elim
  | emit e k ih => exact ih hp

end

/-! ## What may happen -/

/-- The device can make the execution from `(g, d)` end in `Q`. -/
def may (D : Device) :
    DiskProg σ S ε α → (α → σ → (Nat → S) → Prop) → σ → (Nat → S) → Prop
  | .ret a, Q, g, d => Q a g d
  | .read l k, Q, g, d =>
    (D.bad l ∧ may D (k none) Q g d) ∨ (D.ok l ∧ may D (k (some (d l))) Q g d)
  | .write l s k, Q, g, d =>
    (D.bad l ∧ may D (k false) Q g d) ∨
      (D.ok l ∧ may D (k true) Q g (Function.update d l s))
  | .get k, Q, g, d => may D (k g) Q g d
  | .put g' k, Q, _, d => may D k Q g' d
  | .emit _ k, Q, g, d => may D k Q g d

section

variable {D : Device} {g : σ} {d : Nat → S}

theorem may_bind' (p : DiskProg σ S ε α) (f : α → DiskProg σ S ε β)
    {Q : β → σ → (Nat → S) → Prop} :
    may D (p.bind f) Q g d ↔ may D p (fun a g d => may D (f a) Q g d) g d := by
  induction p generalizing g d with
  | ret a => rfl
  | read l k ih => exact or_congr (and_congr Iff.rfl (ih _)) (and_congr Iff.rfl (ih _))
  | write l s k ih => exact or_congr (and_congr Iff.rfl (ih _)) (and_congr Iff.rfl (ih _))
  | get k ih => exact ih g
  | put g' k ih => exact ih
  | emit e k ih => exact ih

theorem may_bind {p : DiskProg σ S ε α} {f : α → DiskProg σ S ε β}
    {Q : β → σ → (Nat → S) → Prop} :
    may D (p >>= f) Q g d ↔ may D p (fun a g d => may D (f a) Q g d) g d :=
  may_bind' p f

variable {n : Nat}

section

variable (hok : ∀ l, l < n → D.ok l) (hbad : ∀ l, n ≤ l → D.bad l)
include hok hbad

/-- A device that serves the first `n` sectors and may fail the others can do what a disk of
    `n` sectors does. -/
theorem may_run {p : DiskProg σ S ε α} {Q : α → σ → (Nat → S) → Prop}
    (h : Q (run n p g d).1 (run n p g d).2.1 (run n p g d).2.2) : may D p Q g d := by
  induction p generalizing g d with
  | ret a => exact h
  | read l k ih =>
    unfold run at h
    by_cases hl : l < n
    · rw [answer, if_pos hl] at h
      exact .inr ⟨hok l hl, ih _ h⟩
    rw [answer, if_neg hl] at h
    exact .inl ⟨hbad l (not_lt.mp hl), ih _ h⟩
  | write l s k ih =>
    unfold run at h
    by_cases hl : l < n
    · rw [if_pos hl] at h
      exact .inr ⟨hok l hl, ih _ h⟩
    rw [if_neg hl] at h
    exact .inl ⟨hbad l (not_lt.mp hl), ih _ h⟩
  | get k ih => exact ih g h
  | put g' k ih => exact ih h
  | emit e k ih => exact ih h

theorem may_of_wp {C : (Nat → S) → Prop} {p : DiskProg σ S ε α} {Q : α → σ → (Nat → S) → Prop}
    (h : wp n C p Q g d) : may D p Q g d := may_run hok hbad (wp_sound h)

theorem may_of_val {p : DiskProg σ S ε α} (hp : ReadOnly p) {a : α} (ha : val n p g d = a)
    {Q : α → σ → (Nat → S) → Prop} (h : Q a g d) : may D p Q g d := by
  subst ha
  exact may_of_wp hok hbad ((wp_readOnly (C := fun _ => True) hp).mpr h)

end

/-- One outcome in front of a pattern. -/
def consFault (b : Bool) (l : Nat) (fl : Faults) : Faults
  | 0, l' => if l' = l then b else fl 0 l'
  | k + 1, l' => fl k l'

theorem consFault_zero (b : Bool) (l : Nat) (fl : Faults) (l' : Nat) :
    consFault b l fl 0 l' = if l' = l then b else fl 0 l' := rfl

theorem consFault_fits {b : Bool} {l : Nat} {fl : Faults} (hfl : fl.Fits D)
    (hb : b = true → D.bad l) (ho : b = false → D.ok l) : (consFault b l fl).Fits D := by
  refine ⟨fun k l' h => ?_, fun k l' h => ?_⟩
  · cases k with
    | zero =>
      rw [consFault_zero] at h
      by_cases hl : l' = l
      · rw [if_pos hl] at h
        exact hl ▸ hb h
      rw [if_neg hl] at h
      exact hfl.bad 0 l' h
    | succ k => exact hfl.bad k l' h
  · cases k with
    | zero =>
      rw [consFault_zero] at h
      by_cases hl : l' = l
      · rw [if_pos hl] at h
        exact hl ▸ ho h
      rw [if_neg hl] at h
      exact hfl.ok 0 l' h
    | succ k => exact hfl.ok k l' h

theorem consFault_head (b : Bool) (l : Nat) (fl : Faults) : consFault b l fl 0 l = b := if_pos rfl

theorem consFault_next (b : Bool) (l : Nat) (fl : Faults) : (consFault b l fl).next = fl := rfl

/-- What may happen happens under some pattern; `fl₀` is any pattern that fits, to go on with
    when the program has ended. -/
theorem may_exec {fl0 : Faults} (h0 : fl0.Fits D) {p : DiskProg σ S ε α}
    {Q : α → σ → (Nat → S) → Prop} (h : may D p Q g d) :
    ∃ fl : Faults, fl.Fits D ∧
      Q (exec fl p g d).1 (exec fl p g d).2.1 (exec fl p g d).2.2 := by
  induction p generalizing g d with
  | ret a => exact ⟨fl0, h0, h⟩
  | read l k ih =>
    rcases h with ⟨hb, h⟩ | ⟨ho, h⟩
    · obtain ⟨fl, hfl, hQ⟩ := ih _ h
      refine ⟨consFault true l fl, consFault_fits hfl (fun _ => hb) (by simp), ?_⟩
      unfold exec
      rw [consFault_head, consFault_next]
      exact hQ
    obtain ⟨fl, hfl, hQ⟩ := ih _ h
    refine ⟨consFault false l fl, consFault_fits hfl (by simp) (fun _ => ho), ?_⟩
    unfold exec
    rw [consFault_head, consFault_next]
    exact hQ
  | write l s k ih =>
    rcases h with ⟨hb, h⟩ | ⟨ho, h⟩
    · obtain ⟨fl, hfl, hQ⟩ := ih _ h
      refine ⟨consFault true l fl, consFault_fits hfl (fun _ => hb) (by simp), ?_⟩
      unfold exec
      rw [consFault_head, consFault_next]
      exact hQ
    obtain ⟨fl, hfl, hQ⟩ := ih _ h
    refine ⟨consFault false l fl, consFault_fits hfl (by simp) (fun _ => ho), ?_⟩
    unfold exec
    rw [consFault_head, consFault_next]
    exact hQ
  | get k ih => exact ih g h
  | put g' k ih => exact ih h
  | emit e k ih => exact ih h

end

/-! ## Composition -/

theorem bind_assoc (p : DiskProg σ S ε α) (f : α → DiskProg σ S ε β)
    (h : β → DiskProg σ S ε γ) : (p.bind f).bind h = p.bind fun a => (f a).bind h := by
  induction p with
  | ret a => rfl
  | read l k ih => exact congrArg (read l) (funext ih)
  | write l s k ih => exact congrArg (write l s) (funext ih)
  | get k ih => exact congrArg get (funext ih)
  | put g k ih => exact congrArg (put g) ih
  | emit e k ih => exact congrArg (emit e) ih

theorem bind_ret (p : DiskProg σ S ε α) : p.bind ret = p := by
  induction p with
  | ret a => rfl
  | read l k ih => exact congrArg (read l) (funext ih)
  | write l s k ih => exact congrArg (write l s) (funext ih)
  | get k ih => exact congrArg get (funext ih)
  | put g k ih => exact congrArg (put g) ih
  | emit e k ih => exact congrArg (emit e) ih

theorem exec_map (fl : Faults) (p : DiskProg σ S ε α) (f : α → β) (g : σ) (d : Nat → S) :
    exec fl (p.bind fun a => .ret (f a)) g d
      = (f (exec fl p g d).1, (exec fl p g d).2) := by
  induction p generalizing fl g d with
  | ret a => rfl
  | read l k ih => exact ih _ _ g d
  | write l s k ih =>
    have hbind : (write l s k).bind (fun a => .ret (f a))
        = write l s fun r => (k r).bind fun a => .ret (f a) := rfl
    rw [hbind, exec_write, exec_write]
    cases fl 0 l with
    | true => exact ih _ _ g d
    | false => exact ih _ _ g _
  | get k ih => exact ih g fl g d
  | put g' k ih => exact ih fl g' d
  | emit e k ih => exact ih fl g d

end DiskProg

export DiskProg (may may_bind may_of_val may_of_wp must_of_readOnly must_getState must_sound
  must_readSec must_writeSec must_run must_val must_and exec_none exec_map)

/-! ## Programs that take notes -/

/-- A program that also returns a list of notes of type `ν`. -/
structure Noted (σ S ε ν α : Type) where
  prog : DiskProg σ S ε (α × List ν)

namespace Noted

variable {σ S ε ν α β : Type}

/-- Sequential composition; the notes are those of both parts. -/
def bind (x : Noted σ S ε ν α) (f : α → Noted σ S ε ν β) : Noted σ S ε ν β :=
  ⟨x.prog.bind fun r => (f r.1).prog.bind fun s => .ret (s.1, r.2 ++ s.2)⟩

instance : Monad (Noted σ S ε ν) where
  pure a := ⟨.ret (a, [])⟩
  bind := bind

/-- A program that takes no notes. -/
def lift (p : DiskProg σ S ε α) : Noted σ S ε ν α := ⟨p.bind fun a => .ret (a, [])⟩

/-- Take a note. -/
def note (n : ν) : Noted σ S ε ν Unit := ⟨.ret ((), [n])⟩

/-- Take several notes. -/
def notes (ns : List ν) : Noted σ S ε ν Unit := ⟨.ret ((), ns)⟩

/-- The program without its notes. -/
def erase (x : Noted σ S ε ν α) : DiskProg σ S ε α := x.prog.bind fun r => .ret r.1

@[simp] theorem erase_lift (p : DiskProg σ S ε α) : (lift p : Noted σ S ε ν α).erase = p := by
  unfold erase lift
  rw [DiskProg.bind_assoc]
  exact DiskProg.bind_ret p

@[simp] theorem erase_bind (x : Noted σ S ε ν α) (f : α → Noted σ S ε ν β) :
    (x >>= f).erase = x.erase >>= fun a => (f a).erase := by
  show (x.prog.bind fun r => (f r.1).prog.bind fun s => .ret (s.1, r.2 ++ s.2)).bind _
    = (x.prog.bind fun r => .ret r.1).bind fun a => (f a).prog.bind fun r => .ret r.1
  rw [DiskProg.bind_assoc, DiskProg.bind_assoc]
  congr 1
  funext r
  rw [DiskProg.bind_assoc]
  rfl

theorem erase_bind_eq {x : Noted σ S ε ν α} {f : α → Noted σ S ε ν β} {p : DiskProg σ S ε α}
    {k : α → DiskProg σ S ε β} (hx : x.erase = p) (hf : ∀ a, (f a).erase = k a) :
    (x >>= f).erase = p >>= k := by
  rw [erase_bind, hx]
  exact congrArg _ (funext hf)

theorem erase_lifted {p : DiskProg σ S ε α} {f : α → Noted σ S ε ν β} {k : α → DiskProg σ S ε β}
    (hf : ∀ a, (f a).erase = k a) : (lift p >>= f).erase = p >>= k :=
  erase_bind_eq (erase_lift p) hf

theorem erase_option {p : DiskProg σ S ε (Option α)} {f : Option α → Noted σ S ε ν β}
    {k : Option α → DiskProg σ S ε β} (hnone : (f none).erase = k none)
    (hsome : ∀ a, (f (some a)).erase = k (some a)) : (lift p >>= f).erase = p >>= k :=
  erase_lifted fun
    | none => hnone
    | some a => hsome a

theorem erase_notes_bind (ns : List ν) (f : Unit → Noted σ S ε ν β) :
    (notes ns >>= f).erase = (f ()).erase := by
  rw [erase_bind]
  rfl

theorem erase_note_bind (n : ν) (f : Unit → Noted σ S ε ν β) :
    (note n >>= f).erase = (f ()).erase := erase_notes_bind [n] f

/-- A program that takes no note, whatever fails. -/
def Silent (x : Noted σ S ε ν α) : Prop :=
  ∀ fl g d, (DiskProg.exec fl x.prog g d).1.2 = []

theorem silent_lift (p : DiskProg σ S ε α) : Silent (lift p : Noted σ S ε ν α) := by
  intro fl g d
  unfold lift
  rw [exec_map]

theorem silent_pure (a : α) : Silent (pure a : Noted σ S ε ν α) := fun _ _ _ => rfl

theorem exec_bind_silent (fl : Faults) (x : Noted σ S ε ν α) {f : α → Noted σ S ε ν β}
    (hf : ∀ a, Silent (f a)) (g : σ) (d : Nat → S) :
    (DiskProg.exec fl (x >>= f).prog g d).1.2 = (DiskProg.exec fl x.prog g d).1.2 := by
  obtain ⟨p⟩ := x
  induction p generalizing fl g d with
  | ret r =>
    show (DiskProg.exec fl ((f r.1).prog.bind fun s => .ret (s.1, r.2 ++ s.2)) g d).1.2 = r.2
    rw [exec_map, hf r.1 fl g d, append_nil]
  | read l k ih => exact ih _ fl.next g d
  | write l s k ih =>
    rw [DiskProg.exec_write]
    show (if fl 0 l then _ else _ : (β × List ν) × σ × (Nat → S)).1.2 = _
    cases fl 0 l with
    | true => exact ih false fl.next g d
    | false => exact ih true fl.next g _
  | get k ih => exact ih g fl g d
  | put g' k ih => exact ih fl g' d
  | emit e k ih => exact ih fl g d

theorem Silent.bind {x : Noted σ S ε ν α} {f : α → Noted σ S ε ν β} (hx : Silent x)
    (hf : ∀ a, Silent (f a)) : Silent (x >>= f) := fun fl g d =>
  (exec_bind_silent fl x hf g d).trans (hx fl g d)

theorem exec_getState_bind (fl : Faults) (f : σ → Noted σ S ε ν β) (g : σ) (d : Nat → S) :
    (DiskProg.exec fl (lift DiskProg.getState >>= f).prog g d).1.2
      = (DiskProg.exec fl (f g).prog g d).1.2 := by
  show (DiskProg.exec fl ((f g).prog.bind fun s => .ret (s.1, [] ++ s.2)) g d).1.2 = _
  rw [exec_map]
  rfl

/-- Erasing the notes does not change the execution. -/
theorem exec_erase (fl : Faults) (x : Noted σ S ε ν α) (g : σ) (d : Nat → S) :
    DiskProg.exec fl x.erase g d
      = ((DiskProg.exec fl x.prog g d).1.1, (DiskProg.exec fl x.prog g d).2) :=
  exec_map fl x.prog Prod.fst g d

/-- Whatever the device does, the execution ends in `Q`, which may look at the notes. -/
def must (D : Device) (x : Noted σ S ε ν α) (Q : α → List ν → σ → (Nat → S) → Prop) (g : σ)
    (d : Nat → S) : Prop :=
  DiskProg.must D x.prog (fun r g d => Q r.1 r.2 g d) g d

section

variable {D : Device} {g : σ} {d : Nat → S}

@[simp] theorem must_pure {a : α} {Q : α → List ν → σ → (Nat → S) → Prop} :
    must D (pure a : Noted σ S ε ν α) Q g d ↔ Q a [] g d := .rfl

@[simp] theorem must_note {n : ν} {Q : Unit → List ν → σ → (Nat → S) → Prop} :
    must D (note n : Noted σ S ε ν Unit) Q g d ↔ Q () [n] g d := .rfl

@[simp] theorem must_notes {ns : List ν} {Q : Unit → List ν → σ → (Nat → S) → Prop} :
    must D (notes ns : Noted σ S ε ν Unit) Q g d ↔ Q () ns g d := .rfl

@[simp] theorem must_lift {p : DiskProg σ S ε α} {Q : α → List ν → σ → (Nat → S) → Prop} :
    must D (lift p) Q g d ↔ DiskProg.must D p (fun a g d => Q a [] g d) g d :=
  DiskProg.must_bind' p _

@[simp] theorem must_bind {x : Noted σ S ε ν α} {f : α → Noted σ S ε ν β}
    {Q : β → List ν → σ → (Nat → S) → Prop} :
    must D (x >>= f) Q g d ↔
      must D x (fun a m g d => must D (f a) (fun b m' g d => Q b (m ++ m') g d) g d) g d := by
  refine (DiskProg.must_bind' x.prog _).trans ?_
  unfold must
  simp only [DiskProg.must_bind']
  rfl

theorem must_lifted {p : DiskProg σ S ε α} {f : α → Noted σ S ε ν β}
    {Q : β → List ν → σ → (Nat → S) → Prop} :
    must D (lift p >>= f) Q g d ↔ DiskProg.must D p
      (fun a g d => must D (f a) (fun b m' g d => Q b ([] ++ m') g d) g d) g d := by
  rw [must_bind, must_lift]

theorem must_mono {x : Noted σ S ε ν α} {Q Q' : α → List ν → σ → (Nat → S) → Prop}
    (hQ : ∀ a m g d, Q a m g d → Q' a m g d) (h : must D x Q g d) : must D x Q' g d :=
  DiskProg.must_mono (fun r g d => hQ r.1 r.2 g d) h

theorem must_of_forall {x : Noted σ S ε ν α} {Q : α → List ν → σ → (Nat → S) → Prop}
    (h : ∀ a m g d, Q a m g d) : must D x Q g d :=
  DiskProg.must_of_forall fun r g d => h r.1 r.2 g d

/-- What holds of the notes holds of the plain program, for some notes. -/
theorem must_erase {x : Noted σ S ε ν α} {Q : α → List ν → σ → (Nat → S) → Prop}
    (h : must D x Q g d) : DiskProg.must D x.erase (fun a g d => ∃ m, Q a m g d) g d :=
  (DiskProg.must_bind' x.prog _).mpr (DiskProg.must_mono (fun r _ _ hr => ⟨r.2, hr⟩) h)

end

end Noted

export Noted (must_lifted must_lift must_note must_notes exec_bind_silent exec_erase
  exec_getState_bind erase_bind_eq erase_note_bind erase_notes_bind erase_lift erase_lifted
  erase_option lift note notes Silent silent_lift silent_pure)

export Faults (none_fits)

end Noverix.Lib
