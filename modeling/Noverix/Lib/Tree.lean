/-
  Trees of named nodes, as a namespace keeps them: some nodes are in use, some
  of those are directories, and each directory lists its entries (a name and a
  node).  Nothing in the representation makes it a tree; `Shaped` says that it
  is one: every entry leads to a node in use, every node in use but the root
  has exactly one entry, names differ within a directory, every directory is
  reachable from the root, and there are no cycles.  `Rooted` is the same
  without the names, which may then repeat.

  Adding a fresh leaf and removing a leaf keep the shape (`Rooted.add`,
  `Rooted.remove`) and the names apart; these are the only two ways a
  namespace changes.
-/

import Noverix.Lib.Names
import Mathlib.Data.List.Perm.Basic
import Mathlib.Logic.Relation

namespace Noverix.Lib

open Relation

/-- Nodes `ι` with names `ν`: those in use, the directories, and the entries of
    each directory. -/
@[ext] structure Tree (ν ι : Type*) where
  live : ι → Prop
  dir : ι → Prop
  kids : ι → List (ν × ι)

namespace Tree

variable {ν ι : Type*} {T T' : Tree ν ι} {root p i : ι} {name : ν}

/-- Directory `p` has an entry for `i`. -/
def Child (T : Tree ν ι) (p i : ι) : Prop := T.dir p ∧ ∃ x, (x, i) ∈ T.kids p

theorem child_iff : T.Child p i ↔ T.dir p ∧ i ∈ (T.kids p).map Prod.snd := by
  unfold Child
  rw [mem_map]
  refine and_congr Iff.rfl ⟨?_, ?_⟩
  · rintro ⟨x, hx⟩
    exact ⟨(x, i), hx, rfl⟩
  · rintro ⟨⟨x, j⟩, hx, rfl⟩
    exact ⟨x, hx⟩

/-- The representation is a tree with the given root. -/
structure Shaped (T : Tree ν ι) (root : ι) : Prop where
  root_dir : T.dir root
  dir_live : ∀ i, T.dir i → T.live i
  kid_live : ∀ p i, T.Child p i → T.live i
  kid_ne_root : ∀ p, ¬ T.Child p root
  parent : ∀ i, T.live i → i ≠ root → ∃ p, T.Child p i
  parent_unique : ∀ p q i, T.Child p i → T.Child q i → p = q
  kids_nodup : ∀ p, T.dir p → ((T.kids p).map Prod.snd).Nodup
  names_nodup : ∀ p, T.dir p → ((T.kids p).map Prod.fst).Nodup
  reach : ∀ i, T.dir i → ReflTransGen T.Child root i
  acyclic : ∀ i, ¬ TransGen T.Child i i

/-- The same for a representation in which names may repeat. -/
structure Rooted (T : Tree ν ι) (root : ι) : Prop where
  root_dir : T.dir root
  dir_live : ∀ i, T.dir i → T.live i
  kid_live : ∀ p i, T.Child p i → T.live i
  kid_ne_root : ∀ p, ¬ T.Child p root
  parent : ∀ i, T.live i → i ≠ root → ∃ p, T.Child p i
  parent_unique : ∀ p q i, T.Child p i → T.Child q i → p = q
  kids_nodup : ∀ p, T.dir p → ((T.kids p).map Prod.snd).Nodup
  reach : ∀ i, T.dir i → ReflTransGen T.Child root i
  acyclic : ∀ i, ¬ TransGen T.Child i i

/-- Names differ within each directory. -/
def NamesDiffer (T : Tree ν ι) : Prop := ∀ p, T.dir p → ((T.kids p).map Prod.fst).Nodup

theorem Shaped.rooted (h : T.Shaped root) : T.Rooted root :=
  ⟨h.root_dir, h.dir_live, h.kid_live, h.kid_ne_root, h.parent, h.parent_unique, h.kids_nodup,
    h.reach, h.acyclic⟩

theorem Rooted.shaped (h : T.Rooted root) (hnames : T.NamesDiffer) : T.Shaped root :=
  ⟨h.root_dir, h.dir_live, h.kid_live, h.kid_ne_root, h.parent, h.parent_unique, h.kids_nodup,
    hnames, h.reach, h.acyclic⟩

/-- Where parents are unique and the root has none, what is reachable from the
    root is on no cycle. -/
theorem acyclic_of_reach (hroot : ∀ p, ¬ T.Child p root)
    (hunique : ∀ p q i, T.Child p i → T.Child q i → p = q)
    (hreach : ∀ i, T.dir i → ReflTransGen T.Child root i) (i : ι) : ¬ TransGen T.Child i i := by
  intro hcycle
  -- the first step of the cycle leaves a directory, which the root reaches
  have hdir : T.dir i := by
    obtain ⟨j, hij, -⟩ := TransGen.head'_iff.mp hcycle
    exact hij.1
  have hnone : ∀ j, ReflTransGen T.Child root j → ¬ TransGen T.Child j j := by
    intro j hj
    induction hj with
    | refl =>
      intro h
      obtain ⟨q, -, hq⟩ := TransGen.tail'_iff.mp h
      exact hroot q hq
    | tail hb hbc ih =>
      -- a cycle through a child comes back through its only parent
      intro h
      obtain ⟨q, hq, hqc⟩ := TransGen.tail'_iff.mp h
      rw [hunique _ _ _ hqc hbc] at hq
      exact ih (TransGen.head' hbc hq)
  exact hnone i (hreach i hdir) hcycle

theorem rooted_of_flat (hdir : ∀ i, T.dir i ↔ i = root)
    (hlive : ∀ i, T.live i ↔ i = root ∨ i ∈ (T.kids root).map Prod.snd)
    (hroot : root ∉ (T.kids root).map Prod.snd) (hkids : ((T.kids root).map Prod.snd).Nodup) :
    T.Rooted root := by
  have hchild : ∀ p i, T.Child p i ↔ p = root ∧ i ∈ (T.kids root).map Prod.snd := by
    intro p i
    rw [child_iff, hdir]
    refine and_congr_right fun hp => ?_
    rw [hp]
  have hkidNe : ∀ p, ¬ T.Child p root := fun p h => hroot ((hchild p root).mp h).2
  have hunique : ∀ p q i, T.Child p i → T.Child q i → p = q := by
    intro p q i hp hq
    rw [((hchild p i).mp hp).1, ((hchild q i).mp hq).1]
  have hreach : ∀ i, T.dir i → ReflTransGen T.Child root i := by
    intro i hi
    rw [(hdir i).mp hi]
  exact
    { root_dir := (hdir root).mpr rfl
      dir_live := fun i hi => (hlive i).mpr (.inl ((hdir i).mp hi))
      kid_live := fun p i h => (hlive i).mpr (.inr ((hchild p i).mp h).2)
      kid_ne_root := hkidNe
      parent := fun i hi hne => ⟨root, (hchild root i).mpr
        ⟨rfl, ((hlive i).mp hi).resolve_left hne⟩⟩
      parent_unique := hunique
      kids_nodup := fun p hp => by rw [(hdir p).mp hp]; exact hkids
      reach := hreach
      acyclic := acyclic_of_reach hkidNe hunique hreach }

/-! ## Paths -/

/-- The names on the way from the root down to a node. -/
inductive PathTo (T : Tree ν ι) (root : ι) : List ν → ι → Prop
  | root : PathTo T root [] root
  | down {names : List ν} {p i : ι} {x : ν} :
      PathTo T root names p → T.dir p → (x, i) ∈ T.kids p → PathTo T root (names ++ [x]) i

theorem PathTo.eq_root (h : T.PathTo root [] i) : i = root := by
  generalize hn : ([] : List ν) = names at h
  cases h with
  | root => rfl
  | down _ _ _ => simp at hn

theorem Rooted.entry_unique (h : T.Rooted root) {x y : ν} (hp : T.dir p) (hx : (x, i) ∈ T.kids p)
    (hy : (y, i) ∈ T.kids p) : x = y :=
  (Prod.mk.inj (List.inj_on_of_nodup_map (h.kids_nodup p hp) hx hy rfl)).1

/-- There is one way to each node. -/
theorem PathTo.unique (h : T.Rooted root) {names names' : List ν} (h1 : T.PathTo root names i)
    (h2 : T.PathTo root names' i) : names = names' := by
  induction h1 generalizing names' with
  | root =>
    cases h2 with
    | root => rfl
    | down _ hq hy => exact absurd ⟨hq, _, hy⟩ (h.kid_ne_root _)
  | down _ hp hx ih =>
    cases h2 with
    | root => exact absurd ⟨hp, _, hx⟩ (h.kid_ne_root _)
    | down h2 hq hy =>
      obtain rfl := h.parent_unique _ _ _ ⟨hp, _, hx⟩ ⟨hq, _, hy⟩
      rw [ih h2, h.entry_unique hp hx hy]

theorem PathTo.mono {names : List ν} (hdir : ∀ p, T.dir p → T'.dir p)
    (hkids : ∀ p, T.dir p → ∀ e ∈ T.kids p, e ∈ T'.kids p) (h : T.PathTo root names i) :
    T'.PathTo root names i := by
  induction h with
  | root => exact .root
  | down _ hp hx ih => exact .down ih (hdir _ hp) (hkids _ hp _ hx)

/-! ## Adding a leaf -/

section

variable (hlive : ∀ j, T'.live j ↔ T.live j ∨ j = i) (hdir : ∀ j, j ≠ i → (T'.dir j ↔ T.dir j))
  (hkids : ∀ j, j ≠ p → j ≠ i → T'.kids j = T.kids j)
  (hadd : (T'.kids p).Perm ((name, i) :: T.kids p)) (hnew : T'.kids i = [])

include hdir hkids hadd hnew

theorem child_add (hp : T.dir p) (hpi : p ≠ i) (hi : ¬ T.dir i) {q j : ι} :
    T'.Child q j ↔ T.Child q j ∨ q = p ∧ j = i := by
  by_cases hq : q = i
  · subst hq
    unfold Child
    rw [hnew]
    constructor
    · rintro ⟨-, x, hx⟩
      cases hx
    · rintro (⟨h, -⟩ | ⟨h, -⟩)
      · exact absurd h hi
      · exact absurd h.symm hpi
  unfold Child
  rw [hdir q hq]
  by_cases hqp : q = p
  · subst hqp
    constructor
    · rintro ⟨hd, x, hx⟩
      rcases mem_cons.mp (hadd.mem_iff.mp hx) with heq | hx
      · exact .inr ⟨rfl, (Prod.mk.inj heq).2⟩
      · exact .inl ⟨hd, x, hx⟩
    · rintro (⟨hd, x, hx⟩ | ⟨-, rfl⟩)
      · exact ⟨hd, x, hadd.mem_iff.mpr (mem_cons_of_mem _ hx)⟩
      · exact ⟨hp, name, hadd.mem_iff.mpr mem_cons_self⟩
  rw [hkids q hqp hq]
  constructor
  · exact .inl
  · rintro (h | ⟨h, -⟩)
    · exact h
    · exact absurd h hqp

include hlive

theorem Rooted.add (h : T.Rooted root) (hp : T.dir p) (hi : ¬ T.live i) : T'.Rooted root := by
  have hpi : p ≠ i := fun heq => hi (heq ▸ h.dir_live p hp)
  have hid : ¬ T.dir i := fun hd => hi (h.dir_live i hd)
  have hroot : root ≠ i := fun heq => hi (heq ▸ h.dir_live root h.root_dir)
  have hchild := fun q j => child_add (q := q) (j := j) hdir hkids hadd hnew hp hpi hid
  -- nothing led to the new node before
  have hfresh : ∀ q, ¬ T.Child q i := fun q hq => hi (h.kid_live q i hq)
  have hkid_ne_root : ∀ q, ¬ T'.Child q root := by
    intro q hq
    rcases (hchild q root).mp hq with hq | ⟨-, heq⟩
    · exact h.kid_ne_root q hq
    · exact hroot heq
  have hparent_unique : ∀ q r j, T'.Child q j → T'.Child r j → q = r := by
    intro q r j hq hr
    rcases (hchild q j).mp hq with hq | ⟨rfl, rfl⟩ <;> rcases (hchild r j).mp hr with hr | ⟨rfl, hj⟩
    · exact h.parent_unique q r j hq hr
    · exact absurd (hj ▸ hq) (hfresh q)
    · exact absurd hr (hfresh r)
    · rfl
  have hreach_old : ∀ j, T.dir j → ReflTransGen T'.Child root j := fun j hj =>
    ReflTransGen.mono (fun a b hab => (hchild a b).mpr (Or.inl hab)) _ _ (h.reach j hj)
  have hreach : ∀ j, T'.dir j → ReflTransGen T'.Child root j := by
    intro j hj
    by_cases hji : j = i
    · subst hji
      exact (hreach_old p hp).tail ((hchild p j).mpr (.inr ⟨rfl, rfl⟩))
    · exact hreach_old j ((hdir j hji).mp hj)
  refine
    { root_dir := (hdir root hroot).mpr h.root_dir
      dir_live := ?_
      kid_live := ?_
      kid_ne_root := hkid_ne_root
      parent := ?_
      parent_unique := hparent_unique
      kids_nodup := ?_
      reach := hreach
      acyclic := acyclic_of_reach hkid_ne_root hparent_unique hreach }
  · intro j hj
    by_cases hji : j = i
    · exact (hlive j).mpr (Or.inr hji)
    · exact (hlive j).mpr (.inl (h.dir_live j ((hdir j hji).mp hj)))
  · intro q j hq
    rcases (hchild q j).mp hq with hq | ⟨-, hj⟩
    · exact (hlive j).mpr (.inl (h.kid_live q j hq))
    · exact (hlive j).mpr (Or.inr hj)
  · intro j hj hjr
    rcases (hlive j).mp hj with hj | rfl
    · obtain ⟨q, hq⟩ := h.parent j hj hjr
      exact ⟨q, (hchild q j).mpr (Or.inl hq)⟩
    · exact ⟨p, (hchild p j).mpr (.inr ⟨rfl, rfl⟩)⟩
  · intro q hq
    by_cases hqi : q = i
    · rw [hqi, hnew]
      exact nodup_nil
    have hq' := (hdir q hqi).mp hq
    by_cases hqp : q = p
    · subst hqp
      rw [(hadd.map Prod.snd).nodup_iff, map_cons, nodup_cons]
      exact ⟨fun hm => hfresh q (child_iff.mpr ⟨hq', hm⟩), h.kids_nodup q hq'⟩
    rw [hkids q hqp hqi]
    exact h.kids_nodup q hq'

omit hlive in
theorem NamesDiffer.add (h : T.NamesDiffer) (hname : name ∉ (T.kids p).map Prod.fst) :
    T'.NamesDiffer := by
  intro q hq
  by_cases hqi : q = i
  · rw [hqi, hnew]
    exact nodup_nil
  have hq' := (hdir q hqi).mp hq
  by_cases hqp : q = p
  · subst hqp
    rw [(hadd.map Prod.fst).nodup_iff, map_cons, nodup_cons]
    exact ⟨hname, h q hq'⟩
  rw [hkids q hqp hqi]
  exact h q hq'

end

/-! ## Removing a leaf -/

section

variable (hlive : ∀ j, T'.live j ↔ T.live j ∧ j ≠ i) (hdir : ∀ j, T'.dir j ↔ T.dir j ∧ j ≠ i)
  (hkids : ∀ j, j ≠ p → j ≠ i → T'.kids j = T.kids j)
  (hremove : (T.kids p).Perm ((name, i) :: T'.kids p)) (hleaf : ∀ j, ¬ T.Child i j)

include hdir hkids hremove hleaf

theorem child_remove (h : T.Rooted root) (hp : T.dir p) {q j : ι} :
    T'.Child q j ↔ T.Child q j ∧ j ≠ i := by
  -- the entry removed is the only one for `i`
  have hgone : ∀ q, T.Child q i → q = p := fun q hq =>
    h.parent_unique q p i hq ⟨hp, name, hremove.mem_iff.mpr mem_cons_self⟩
  have hnodup : i ∉ (T'.kids p).map Prod.snd := by
    have hnd := (hremove.map Prod.snd).nodup_iff.mp (h.kids_nodup p hp)
    exact (nodup_cons.mp hnd).1
  by_cases hq : q = i
  · subst hq
    exact ⟨fun hc => absurd rfl ((hdir q).mp hc.1).2, fun hc => absurd hc.1 (hleaf j)⟩
  by_cases hqp : q = p
  · subst hqp
    constructor
    · rintro ⟨hd, x, hx⟩
      refine ⟨⟨hp, x, hremove.mem_iff.mpr (mem_cons_of_mem _ hx)⟩, ?_⟩
      rintro rfl
      exact hnodup (mem_map.mpr ⟨(x, j), hx, rfl⟩)
    · rintro ⟨⟨hd, x, hx⟩, hji⟩
      refine ⟨(hdir q).mpr ⟨hp, hq⟩, x, ?_⟩
      rcases mem_cons.mp (hremove.mem_iff.mp hx) with heq | hx
      · exact absurd (Prod.mk.inj heq).2 hji
      · exact hx
  unfold Child
  rw [hdir q, hkids q hqp hq]
  constructor
  · rintro ⟨⟨hd, -⟩, hx⟩
    refine ⟨⟨hd, hx⟩, ?_⟩
    rintro rfl
    exact hqp (hgone q ⟨hd, hx⟩)
  · rintro ⟨⟨hd, hx⟩, -⟩
    exact ⟨⟨hd, hq⟩, hx⟩

omit hleaf in
theorem kids_part {q : ι} (hq : T'.dir q) : ∃ l, (T.kids q).Perm (l ++ T'.kids q) := by
  by_cases hqp : q = p
  · subst hqp
    exact ⟨[(name, i)], hremove⟩
  rw [hkids q hqp ((hdir q).mp hq).2]
  exact ⟨[], List.Perm.refl _⟩

omit hleaf in
theorem NamesDiffer.remove (h : T.NamesDiffer) : T'.NamesDiffer := by
  intro q hq
  obtain ⟨l, hl⟩ := kids_part hdir hkids hremove hq
  have hnd := h q ((hdir q).mp hq).1
  rw [(hl.map Prod.fst).nodup_iff, map_append] at hnd
  exact (nodup_append.mp hnd).2.1

include hlive

theorem Rooted.remove (h : T.Rooted root) (hp : T.dir p) (hi : i ≠ root) : T'.Rooted root := by
  have hchild := fun q j => child_remove (q := q) (j := j) hdir hkids hremove hleaf h hp
  have hkid_ne_root : ∀ q, ¬ T'.Child q root := fun q hq =>
    h.kid_ne_root q ((hchild q root).mp hq).1
  have hparent_unique : ∀ q r j, T'.Child q j → T'.Child r j → q = r := fun q r j hq hr =>
    h.parent_unique q r j ((hchild q j).mp hq).1 ((hchild r j).mp hr).1
  -- a path to another node does not pass through a leaf
  have hpath : ∀ j, ReflTransGen T.Child root j → j ≠ i → ReflTransGen T'.Child root j := by
    intro j hj
    induction hj with
    | refl => exact fun _ => ReflTransGen.refl
    | @tail b c hb hbc ih =>
      intro hc
      have hbi : b ≠ i := fun heq => hleaf c (heq ▸ hbc)
      exact (ih hbi).tail ((hchild b c).mpr ⟨hbc, hc⟩)
  have hreach : ∀ j, T'.dir j → ReflTransGen T'.Child root j := fun j hj =>
    hpath j (h.reach j ((hdir j).mp hj).1) ((hdir j).mp hj).2
  refine
    { root_dir := (hdir root).mpr ⟨h.root_dir, hi.symm⟩
      dir_live := fun j hj => (hlive j).mpr ⟨h.dir_live j ((hdir j).mp hj).1, ((hdir j).mp hj).2⟩
      kid_live := fun q j hq => (hlive j).mpr
        ⟨h.kid_live q j ((hchild q j).mp hq).1, ((hchild q j).mp hq).2⟩
      kid_ne_root := hkid_ne_root
      parent := ?_
      parent_unique := hparent_unique
      kids_nodup := ?_
      reach := hreach
      acyclic := acyclic_of_reach hkid_ne_root hparent_unique hreach }
  · intro j hj hjr
    obtain ⟨q, hq⟩ := h.parent j ((hlive j).mp hj).1 hjr
    exact ⟨q, (hchild q j).mpr ⟨hq, ((hlive j).mp hj).2⟩⟩
  · intro q hq
    obtain ⟨l, hl⟩ := kids_part hdir hkids hremove hq
    have hnd := h.kids_nodup q ((hdir q).mp hq).1
    rw [(hl.map Prod.snd).nodup_iff, map_append] at hnd
    exact (nodup_append.mp hnd).2.1

end

end Tree

end Noverix.Lib
