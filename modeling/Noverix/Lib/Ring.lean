/-
  Circular lists through a successor function.

  `Ring next l` says that the nodes `l`, all different, are linked in this order
  by `next` and that the last leads back to the first.  A ring has no first
  node: it can be written from any of its nodes on (`Ring.from`).  Loops that
  follow `next` to the first node with a property are `seek`; on a ring they
  stop after one lap.  A node is linked in behind another, or taken out by
  leading its predecessor to its successor.
-/

import Noverix.Lib.Names
import Mathlib.Data.Finset.Card
import Mathlib.Data.List.Find
import Mathlib.Data.Nat.Find
import Mathlib.Logic.Function.Iterate

namespace Noverix.Lib

variable {α : Type*}

/-! ## Links -/

/-- `next` leads through the nodes in order, and from the last to `e`. -/
def Links (next : α → α) : List α → α → Prop
  | [], _ => True
  | a :: l, e => next a = l.headD e ∧ Links next l e

/-- Follow `next` to the first node with `p`; `none` after `fuel` nodes. -/
def seek (next : α → α) (p : α → Bool) : Nat → α → Option α
  | 0, _ => none
  | fuel + 1, a => if p a then some a else seek next p fuel (next a)

/-- The nodes `l`, all different, form a ring. -/
structure Ring (next : α → α) (l : List α) : Prop where
  nodup : l.Nodup
  links : ∀ a ∈ l.head?, Links next l a

section

variable {next next' : α → α} {l l₁ l₂ : List α} {a e : α}

theorem headD_append : (l₁ ++ l₂).headD e = l₁.headD (l₂.headD e) := by
  cases l₁ <;> rfl

theorem links_append :
    Links next (l₁ ++ l₂) e ↔ Links next l₁ (l₂.headD e) ∧ Links next l₂ e := by
  induction l₁ with
  | nil => exact (and_iff_right trivial).symm
  | cons a l₁ ih =>
    show next a = (l₁ ++ l₂).headD e ∧ Links next (l₁ ++ l₂) e ↔
      (next a = l₁.headD (l₂.headD e) ∧ Links next l₁ (l₂.headD e)) ∧ Links next l₂ e
    rw [headD_append, ih, and_assoc]

theorem Links.congr (h : Links next l e) (hsame : ∀ a ∈ l, next' a = next a) : Links next' l e := by
  induction l with
  | nil => trivial
  | cons a l ih =>
    refine ⟨(hsame a mem_cons_self).trans h.1, ih h.2 fun b hb => ?_⟩
    exact hsame b (mem_cons_of_mem a hb)

theorem Links.seek_eq {p : α → Bool} {fuel : Nat} (h : Links next l e) (he : p e = true)
    (hfuel : l.length < fuel) : seek next p fuel (l.headD e) = some ((l.find? p).getD e) := by
  induction l generalizing fuel with
  | nil =>
    obtain ⟨n, rfl⟩ : ∃ n, fuel = n + 1 := ⟨fuel - 1, by simp at hfuel; omega⟩
    show (if p e then some e else _) = some e
    rw [if_pos he]
  | cons a l ih =>
    rw [length_cons] at hfuel
    obtain ⟨n, rfl⟩ : ∃ n, fuel = n + 1 := ⟨fuel - 1, by omega⟩
    show (if p a then some a else seek next p n (next a)) = _
    rw [find?_cons]
    cases hp : p a with
    | true => rfl
    | false =>
      rw [h.1]
      exact ih h.2 (by omega)

end

/-! ## Rings -/

section

variable {next : α → α} {l l₁ l₂ : List α} {a b : α}

theorem Ring.cons_links (h : Ring next (a :: l)) : Links next (a :: l) a := h.links a rfl

theorem ring_cons (hnodup : (a :: l).Nodup) (hlinks : Links next (a :: l) a) : Ring next (a :: l) :=
  ⟨hnodup, fun b hb => by
    obtain rfl : a = b := by simpa using hb
    exact hlinks⟩

theorem Ring.rotate (h : Ring next (l₁ ++ l₂)) : Ring next (l₂ ++ l₁) := by
  have hnodup : (l₂ ++ l₁).Nodup := (List.perm_append_comm.nodup_iff).mp h.nodup
  cases l₁ with
  | nil =>
    rw [append_nil]
    exact h
  | cons a l₁ =>
    cases l₂ with
    | nil =>
      rw [append_nil] at h
      exact h
    | cons b l₂ =>
      have hlinks : Links next ((a :: l₁) ++ (b :: l₂)) a := h.cons_links
      obtain ⟨h1, h2⟩ := links_append.mp hlinks
      exact ring_cons hnodup (links_append.mpr ⟨h2, h1⟩)

theorem Ring.from (h : Ring next l) (ha : a ∈ l) : ∃ t, Ring next (a :: t) ∧ (a :: t).Perm l := by
  obtain ⟨l₁, l₂, rfl⟩ := List.append_of_mem ha
  have hperm : ((a :: l₂) ++ l₁).Perm (l₁ ++ a :: l₂) := List.perm_append_comm
  exact ⟨l₂ ++ l₁, h.rotate, hperm⟩

theorem Ring.exists_iterate (h : Ring next (a :: l)) (hb : b ∈ a :: l) : ∃ n, next^[n] a = b := by
  suffices hlinks : ∀ (l : List α) (a e : α), Links next (a :: l) e → b ∈ a :: l →
      ∃ n, next^[n] a = b from hlinks l a a h.cons_links hb
  intro l
  induction l with
  | nil =>
    rintro a e - hb
    exact ⟨0, (mem_singleton.mp hb).symm⟩
  | cons c l ih =>
    rintro a e ⟨hnext, hlinks⟩ hb
    rcases mem_cons.mp hb with rfl | hb
    · exact ⟨0, rfl⟩
    obtain ⟨n, hn⟩ := ih c e hlinks hb
    refine ⟨n + 1, ?_⟩
    rw [Function.iterate_succ_apply, hnext]
    exact hn

variable {fuel : Nat}

/-- One lap from `a`: the first other node with `p`, or `a` again. -/
theorem Ring.seek_lap [DecidableEq α] {p : α → Bool} (h : Ring next (a :: l))
    (hfuel : l.length < fuel) :
    seek next (fun t => decide (t = a) || p t) fuel (next a) = some ((l.find? p).getD a) := by
  obtain ⟨hhead, hlinks⟩ := h.cons_links
  rw [hhead, hlinks.seek_eq (by simp) hfuel]
  have hfind : l.find? (fun t => decide (t = a) || p t) = l.find? p := by
    refine List.find?_congr fun t ht => ?_
    have hne : t ≠ a := by
      rintro rfl
      exact (nodup_cons.mp h.nodup).1 ht
    simp [hne]
  rw [hfind]

theorem Ring.seek_prev [DecidableEq α] (h : Ring next (a :: (l ++ [b])))
    (hfuel : l.length + 1 < fuel) :
    seek next (fun t => decide (next t = a)) fuel a = some b := by
  have hlinks : Links next (a :: l) b ∧ next b = a := by
    have := links_append.mp (show Links next ((a :: l) ++ [b]) a from h.cons_links)
    exact ⟨this.1, this.2.1⟩
  have hnone : (a :: l).find? (fun t => decide (next t = a)) = none := by
    refine find?_eq_none.mpr fun t ht hnext => ?_
    obtain ⟨l₁, l₂, heq⟩ := List.append_of_mem ht
    have hlink := hlinks.1
    rw [heq, links_append] at hlink
    have hafter : l₂.headD b = a := by
      rw [← hlink.2.1]
      simpa using hnext
    -- the node behind `t` is one of `l ++ [b]`, and `a` is not
    have hmem : l₂.headD b ∈ l ++ [b] := by
      cases l₂ with
      | nil => simp
      | cons c l₂ =>
        have hc : c ∈ (l₁ ++ t :: c :: l₂).tail := by
          cases l₁ <;> simp
        rw [← heq] at hc
        exact mem_append_left _ hc
    rw [hafter] at hmem
    exact (nodup_cons.mp h.nodup).1 hmem
  have hseek : seek next (fun t => decide (next t = a)) fuel ((a :: l).headD b) = _ :=
    hlinks.1.seek_eq (by simpa using hlinks.2) (by simpa using hfuel)
  rw [hnone] at hseek
  exact hseek

theorem Ring.insert [DecidableEq α] (h : Ring next (a :: l)) (hb : b ∉ a :: l) :
    Ring (update (update next b (next a)) a b) (a :: b :: l) := by
  obtain ⟨hhead, hlinks⟩ := h.cons_links
  obtain ⟨hal, hl⟩ := nodup_cons.mp h.nodup
  have hba : b ≠ a := fun heq => hb (heq ▸ mem_cons_self)
  have hbl : b ∉ l := fun hmem => hb (mem_cons_of_mem a hmem)
  refine ring_cons ?_ ⟨?_, ?_, hlinks.congr fun c hc => ?_⟩
  · refine nodup_cons.mpr ⟨?_, nodup_cons.mpr ⟨hbl, hl⟩⟩
    rw [mem_cons, not_or]
    exact ⟨hba.symm, hal⟩
  · rw [update_self]
    rfl
  · rw [update_of_ne hba, update_self, hhead]
  · have hca : c ≠ a := fun heq => hal (heq ▸ hc)
    have hcb : c ≠ b := fun heq => hbl (heq ▸ hc)
    rw [update_of_ne hca, update_of_ne hcb]

theorem Ring.remove [DecidableEq α] (h : Ring next (a :: (l ++ [b]))) :
    Ring (update next b (next a)) (l ++ [b]) := by
  obtain ⟨hhead, hlinks⟩ := h.cons_links
  obtain ⟨hlink, -⟩ := links_append.mp hlinks
  have hnodup := (nodup_cons.mp h.nodup).2
  have hbl : ∀ c ∈ l, c ≠ b := by
    rintro c hc rfl
    exact (nodup_append.mp hnodup).2.2 c hc c (mem_singleton_self c) rfl
  refine ⟨hnodup, fun c hc => links_append.mpr ⟨hlink.congr fun d hd => ?_, ?_, trivial⟩⟩
  · exact update_of_ne (hbl d hd) ..
  · rw [update_self, hhead]
    cases l with
    | nil =>
      obtain rfl : b = c := by simpa using hc
      rfl
    | cons d l =>
      obtain rfl : d = c := by simpa using hc
      rfl

end

/-! ## Walks in a finite set -/

/-- What a walk in a finite set meets, it meets in as many steps as the set has members. -/
theorem exists_iterate_le_card {next : α → α} {s : Finset α} (hs : ∀ a, next a ∈ s) {p : α → Prop}
    {a : α} (h : ∃ i, p (next^[i] a)) : ∃ i ≤ s.card, p (next^[i] a) := by
  classical
  refine ⟨Nat.find h, ?_, Nat.find_spec h⟩
  by_contra hlong
  have hmem : ∀ i ∈ Finset.range (s.card + 1), next^[i + 1] a ∈ s := fun i _ => by
    rw [Function.iterate_succ_apply']
    exact hs _
  -- two of the steps lead to the same place, and the walk between them can be left out
  obtain ⟨i, hi, j, hj, hij, heq⟩ :=
    Finset.exists_ne_map_eq_of_card_lt_of_maps_to (by simp) hmem
  wlog hlt : i < j generalizing i j
  · exact this j hj i hi hij.symm heq.symm (by omega)
  have hj' := Finset.mem_range.mp hj
  refine Nat.find_min h (m := Nat.find h - (j + 1) + (i + 1)) (by omega) ?_
  have hfind := Nat.find_spec h
  rwa [Function.iterate_add_apply, heq, ← Function.iterate_add_apply, Nat.sub_add_cancel (by omega)]

end Noverix.Lib
