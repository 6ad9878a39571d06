/-
  Computations that record what they read.  A value of type `Reads α` is a value
  together with the places of a buffer that were read for it, in order.  Sequential
  composition joins the places, so `Below n` (no place is at `n` or above) has one
  rule for each way to build a computation.
-/

import Noverix.Lib.Names

namespace Noverix.Lib

/-- A value, and the places that were read for it. -/
structure Reads (α : Type) where
  value : α
  places : List Nat

namespace Reads

variable {α β ε : Type}

instance : Monad Reads where
  pure a := ⟨a, []⟩
  bind x f := ⟨(f x.value).value, x.places ++ (f x.value).places⟩

@[simp] theorem value_pure (a : α) : (pure a : Reads α).value = a := rfl

@[simp] theorem value_bind (x : Reads α) (f : α → Reads β) :
    (x >>= f).value = (f x.value).value := rfl

/-- What the items of a list yield, one after the other. -/
def each (p : ι → Reads β) : List ι → Reads (List β)
  | [] => pure []
  | i :: is => do
    let x ← p i
    let xs ← each p is
    return x :: xs

/-- The first result that an item of a list yields; the items behind it are not looked at. -/
def first (p : ι → Reads (Option ε)) : List ι → Reads (Option ε)
  | [] => pure none
  | i :: is => do
    let x ← p i
    if x.isSome then return x
    first p is

theorem value_each (p : ι → Reads β) (is : List ι) :
    (each p is).value = is.map fun i => (p i).value := by
  induction is with
  | nil => rfl
  | cons i is ih =>
    rw [map_cons, ← ih]
    rfl

theorem value_first (p : ι → Reads (Option ε)) (is : List ι) :
    (first p is).value = is.findSome? fun i => (p i).value := by
  induction is with
  | nil => rfl
  | cons i is ih =>
    unfold first
    rw [value_bind, findSome?_cons, ← ih]
    cases (p i).value <;> rfl

/-- Every place is below `n`. -/
def Below (n : Nat) (x : Reads α) : Prop := ∀ a ∈ x.places, a < n

variable {n : Nat}

theorem below_pure (a : α) : Below n (pure a) := fun _ h => absurd h not_mem_nil

theorem below_bind {x : Reads α} {f : α → Reads β} (hx : Below n x) (hf : Below n (f x.value)) :
    Below n (x >>= f) := fun a ha => (mem_append.mp ha).elim (hx a) (hf a)

theorem below_each {p : ι → Reads β} {is : List ι} (h : ∀ i ∈ is, Below n (p i)) :
    Below n (each p is) := by
  induction is with
  | nil => exact below_pure _
  | cons i is ih =>
    refine below_bind (h i mem_cons_self) (below_bind ?_ (below_pure _))
    exact ih fun j hj => h j (mem_cons_of_mem i hj)

theorem below_first {p : ι → Reads (Option ε)} {is : List ι} (h : ∀ i ∈ is, Below n (p i)) :
    Below n (first p is) := by
  induction is with
  | nil => exact below_pure _
  | cons i is ih =>
    refine below_bind (h i mem_cons_self) ?_
    split
    · exact below_pure _
    · exact ih fun j hj => h j (mem_cons_of_mem i hj)

end Reads

end Noverix.Lib
