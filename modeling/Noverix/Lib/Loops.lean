/-
  List facts behind loops over arrays: a loop over rows of equal length visits
  the indices of one flat range, a copy loop that stops at a limit yields a
  prefix of what it copies, a string ends at its terminator, and a table in
  which one row changes lists the same other rows.
-/

import Noverix.Lib.Names

namespace Noverix.Lib

/-- `rows` rows of `len` indices are the first `rows * len` numbers. -/
theorem range_flatMap_rows (rows len : Nat) :
    (range rows).flatMap (fun s => (range len).map (s * len + ·))
      = range (rows * len) := by
  induction rows with
  | zero => simp
  | succ k ih =>
    rw [range_succ, flatMap_append, ih, Nat.succ_mul, range_add]
    simp

variable {α : Type*}

/-- Cutting the piece copied last to the room left does not change what the
    limit `r` lets through. -/
theorem take_append_take_append {buf : List α} {r : Nat} (h : buf.length ≤ r)
    (xs ys : List α) :
    ((buf ++ xs.take (r - buf.length)) ++ ys).take r = (buf ++ (xs ++ ys)).take r := by
  rw [append_assoc, List.take_append, @List.take_append _ buf, @List.take_append _ (xs.take _),
    @List.take_append _ xs, take_take, length_take, Nat.min_self]
  congr 3
  omega

/-- The array `f 0, f 1, ...` of `n` cells, cut at its first zero, is `m`: its
    cells agree with `m`, and a zero follows. -/
theorem takeWhile_map_range_eq_iff [DecidableEq α] {zero : α} {f : Nat → α}
    {m : List α} {n : Nat} (hm : ∀ c ∈ m, c ≠ zero) (hn : m.length < n) :
    ((range n).map f).takeWhile (· != zero) = m ↔
      (∀ k < m.length, f k = m.getD k zero) ∧ f m.length = zero := by
  induction m generalizing n f with
  | nil =>
    obtain ⟨n, rfl⟩ : ∃ k, n = k + 1 := ⟨n - 1, by simp at hn; omega⟩
    rw [range_succ_eq_map, map_cons, List.takeWhile_cons]
    by_cases h0 : f 0 = zero <;> simp [h0]
  | cons c m ih =>
    obtain ⟨n, rfl⟩ : ∃ k, n = k + 1 := ⟨n - 1, by simp at hn; omega⟩
    have hc : c ≠ zero := hm c mem_cons_self
    have ih' := ih (f := fun k => f (k + 1)) (n := n)
      (fun b hb => hm b (mem_cons_of_mem _ hb)) (by simpa using hn)
    rw [range_succ_eq_map, map_cons, List.takeWhile_cons, map_map]
    by_cases h0 : f 0 = c
    · have hne : (f 0 != zero) = true := by simpa [h0] using hc
      rw [if_pos hne, h0]
      simp only [List.cons.injEq, true_and]
      refine Iff.trans ih' (and_congr ?_ Iff.rfl)
      constructor
      · intro h k hk
        cases k with
        | zero => simpa using h0
        | succ k => simpa using h k (by simpa using hk)
      · intro h k hk
        simpa using h (k + 1) (by simpa using hk)
    constructor
    · intro h
      split at h
      · exact absurd (List.cons.inj h).1 h0
      · cases h
    · intro h
      exact absurd (by simpa using h.1 0 (by simp)) h0

/-- A table of optional rows in which row `e` alone changes. -/
theorem filterMap_range_split {f g : Nat → Option α} {n e : Nat} (he : e < n)
    (h : ∀ k < n, k ≠ e → g k = f k) :
    ∃ l1 l2, (range n).filterMap f = l1 ++ (f e).toList ++ l2 ∧
      (range n).filterMap g = l1 ++ (g e).toList ++ l2 := by
  obtain ⟨k, rfl⟩ : ∃ k, n = e + (k + 1) := ⟨n - e - 1, by omega⟩
  have hbefore : (range e).filterMap g = (range e).filterMap f :=
    filterMap_congr fun j hj => by
      have := mem_range.mp hj
      exact h j (by omega) (by omega)
  have hafter : ((range k).map (e + 1 + ·)).filterMap g
      = ((range k).map (e + 1 + ·)).filterMap f :=
    filterMap_congr fun j hj => by
      obtain ⟨i, hi, rfl⟩ := mem_map.mp hj
      have := mem_range.mp hi
      exact h _ (by omega) (by omega)
  have hsplit : range (e + (k + 1)) = range e ++ [e] ++ (range k).map (e + 1 + ·) := by
    rw [range_add, range_succ_eq_map]
    simp [Nat.add_comm, Nat.add_left_comm]
  refine ⟨(range e).filterMap f, ((range k).map (e + 1 + ·)).filterMap f, ?_, ?_⟩
  · rw [hsplit, filterMap_append, filterMap_append]
    cases hf : f e <;> simp [hf]
  · rw [hsplit, filterMap_append, filterMap_append, hbefore, hafter]
    cases hf : g e <;> simp [hf]

end Noverix.Lib
