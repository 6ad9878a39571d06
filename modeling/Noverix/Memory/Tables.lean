/-
  What the paging functions do to directories and tables, entry by entry, and to
  the mapping of pages.

  Directories and tables are pages, so two entries are the same word or do not
  overlap.  A directory that is none of its tables, and whose tables are
  different pages, is a map from pages to frames: `map_page_to_dir` and
  `unmap_page_from_dir` change it at one page.
-/

import Noverix.Memory.Paging
import Mathlib.Data.Nat.Bitwise

namespace Noverix.Memory

open Lib

/-! ## Entries -/

section

variable {m m' : Mem} {t t' i j v : Nat}

theorem entry_lt (m : Mem) (t i : Nat) : entry m t i < 2 ^ 32 := load32_lt m _

theorem entry_setEntry (ht : t % 4096 = 0) (ht' : t' % 4096 = 0) (hi : i < 1024) (hj : j < 1024) :
    entry (setEntry m t i v) t' j = if t' = t ∧ j = i then v % 2 ^ 32 else entry m t' j := by
  unfold entry setEntry
  split
  · next heq =>
    obtain ⟨rfl, rfl⟩ := heq
    exact load32_store32_same ..
  · exact load32_store32_disjoint m (by omega)

theorem entry_storeWords {val : Mem → Nat → Nat} {w : Nat → Nat} (ht : t % 4096 = 0)
    (ht' : t' % 4096 = 0) (hj : j < 1024)
    (hval : ∀ m', SameOutside m m' t (t + 4096) → ∀ i < 1024, val m' i = w i) :
    entry (storeWords m t val 1024) t' j = if t' = t then w j % 2 ^ 32 else entry m t' j := by
  unfold entry
  split
  · next heq =>
    subst heq
    exact load32_storeWords hval hj
  · exact (sameOutside_storeWords m t val 1024).load32_eq (by omega)

theorem page_or_flags (page : Nat) {flags : Nat} (hpage : page % 4096 = 0) (hflags : flags < 4096) :
    (page ||| flags) / 4096 * 4096 = page ∧ (page ||| flags) % 4096 = flags := by
  obtain ⟨k, rfl⟩ : ∃ k, page = 2 ^ 12 * k := ⟨page / 4096, by omega⟩
  rw [← Nat.two_pow_add_eq_or_of_lt hflags]
  omega

/-- The entry of a directory for a new table. -/
def dirEntry (table flags : Nat) : Nat :=
  table ||| pagePresent ||| pageWrite ||| (flags &&& pageUser)

theorem dirEntry_spec (table flags : Nat) (htable : table % 4096 = 0)
    (hlt : table < 2 ^ 32) :
    dirEntry table flags / 4096 * 4096 = table ∧ dirEntry table flags % 2 = 1 ∧
      dirEntry table flags % 2 ^ 32 = dirEntry table flags := by
  -- the flags are PRESENT, WRITE and perhaps USER
  have huser : flags &&& pageUser = (flags.testBit 2).toNat * 2 ^ 2 := Nat.and_two_pow flags 2
  have hbits : pagePresent ||| pageWrite ||| (flags &&& pageUser) < 4096 ∧
      (pagePresent ||| pageWrite ||| (flags &&& pageUser)) % 2 = 1 := by
    rw [huser]
    cases flags.testBit 2 <;> decide
  have hassoc : dirEntry table flags
      = table ||| (pagePresent ||| pageWrite ||| (flags &&& pageUser)) := by
    unfold dirEntry
    rw [Nat.or_assoc, Nat.or_assoc, ← Nat.or_assoc pagePresent]
  rw [hassoc]
  obtain ⟨h1, h2⟩ := page_or_flags table htable hbits.1
  exact ⟨h1, by omega, by omega⟩

/-- The entry of a table for a page. -/
def pageEntry (phys flags : Nat) : Nat :=
  phys / 4096 * 4096 ||| pagePresent ||| (flags &&& (pageWrite ||| pageUser ||| pagePresent))

theorem pageEntry_spec {phys : Nat} (flags : Nat) (hlt : phys < 2 ^ 32) :
    pageEntry phys flags / 4096 * 4096 = phys / 4096 * 4096 ∧ pageEntry phys flags % 2 = 1 ∧
      pageEntry phys flags % 2 ^ 32 = pageEntry phys flags := by
  have hseven : flags &&& (pageWrite ||| pageUser ||| pagePresent) = flags % 8 :=
    Nat.and_two_pow_sub_one_eq_mod flags 3
  have hbits : ∀ z < 8, pagePresent ||| z < 4096 ∧ (pagePresent ||| z) % 2 = 1 := by decide
  obtain ⟨hflags, hodd⟩ := hbits (flags % 8) (Nat.mod_lt _ (by decide))
  unfold pageEntry
  rw [Nat.or_assoc, hseven]
  obtain ⟨h1, h2⟩ := page_or_flags (phys / 4096 * 4096) (Nat.mul_mod_left ..) hflags
  exact ⟨h1, by omega, by omega⟩

/-! ### Pages -/

/-- The page that an address is in. -/
def pageNo (virt : Nat) : Nat := virt / 4096 % 2 ^ 20

theorem pdeIdx_lt (virt : Nat) : pdeIdx virt < 1024 := Nat.mod_lt _ (by decide)

theorem pteIdx_lt (virt : Nat) : pteIdx virt < 1024 := Nat.mod_lt _ (by decide)

theorem pageNo_eq_iff {v w : Nat} :
    pageNo v = pageNo w ↔ pdeIdx v = pdeIdx w ∧ pteIdx v = pteIdx w := by
  unfold pageNo pdeIdx pteIdx
  omega

/-- The frame that an entry of a table names, if it is present. -/
def pageOf (e : Nat) : Option Nat := if e % 2 = 0 then none else some (e / 4096 * 4096)

variable {dir virt : Nat}

theorem pageAt_of_absent (h : entry m dir (pdeIdx virt) % 2 = 0) :
    pageAt m dir virt = none := if_pos h

theorem pageAt_of_present (h : entry m dir (pdeIdx virt) % 2 = 1) :
    pageAt m dir virt
      = pageOf (entry m (entry m dir (pdeIdx virt) / 4096 * 4096) (pteIdx virt)) :=
  if_neg (by omega)

theorem pageAt_congr {dir dir' virt : Nat}
    (hdir : entry m' dir' (pdeIdx virt) = entry m dir (pdeIdx virt))
    (htable : entry m dir (pdeIdx virt) % 2 = 1 →
      entry m' (entry m dir (pdeIdx virt) / 4096 * 4096) (pteIdx virt)
        = entry m (entry m dir (pdeIdx virt) / 4096 * 4096) (pteIdx virt)) :
    pageAt m' dir' virt = pageAt m dir virt := by
  rcases Nat.mod_two_eq_zero_or_one (entry m dir (pdeIdx virt)) with heven | hodd
  · rw [pageAt_of_absent (hdir ▸ heven), pageAt_of_absent heven]
  · rw [pageAt_of_present (hdir.symm ▸ hodd), pageAt_of_present hodd, hdir, htable hodd]

theorem pageAt_aligned {dir virt a : Nat} (h : pageAt m dir virt = some a) : a % 4096 = 0 := by
  unfold pageAt at h
  split at h
  · cases h
  simp only at h
  split at h
  · cases h
  rw [← some.inj h]
  exact Nat.mul_mod_left ..

theorem translate_eq (m : Mem) (dir virt : Nat) :
    translate m dir virt = (pageAt m dir virt).map (· + virt % 4096) := by
  unfold translate pageAt
  simp only
  split
  · rfl
  · split <;> rfl

/-! ### Flags -/

/-- The two memories differ in flags of entries other than PRESENT only. -/
def SamePages (m m' : Mem) : Prop :=
  ∀ t j, t % 4096 = 0 → j < 1024 → entry m' t j / 4096 * 4096 = entry m t j / 4096 * 4096 ∧
    entry m' t j % 2 = entry m t j % 2

theorem SamePages.refl (m : Mem) : SamePages m m := fun _ _ _ _ => ⟨rfl, rfl⟩

theorem SamePages.trans {m'' : Mem} (h : SamePages m m') (h' : SamePages m' m'') :
    SamePages m m'' := fun t j ht hj =>
  ⟨(h' t j ht hj).1.trans (h t j ht hj).1, (h' t j ht hj).2.trans (h t j ht hj).2⟩

theorem samePages_setEntry {flag : Nat} (ht : t % 4096 = 0) (hi : i < 1024) (hflag : flag < 4096)
    (heven : flag % 2 = 0) : SamePages m (setEntry m t i (entry m t i ||| flag)) := by
  intro t' j ht' hj
  rw [entry_setEntry ht ht' hi hj]
  split
  · next heq =>
    obtain ⟨rfl, rfl⟩ := heq
    have hlt : entry m t' j ||| flag < 2 ^ 32 := Nat.or_lt_two_pow (entry_lt m t' j) (by omega)
    have hpage : (entry m t' j ||| flag) / 2 ^ 12 = entry m t' j / 2 ^ 12 := by
      rw [Nat.or_div_two_pow, Nat.div_eq_of_lt hflag, Nat.or_zero]
    have hparity : (entry m t' j ||| flag) % 2 ^ 1 = entry m t' j % 2 ^ 1 := by
      rw [Nat.or_mod_two_pow, Nat.pow_one, heven, Nat.or_zero]
    rw [mod_eq_of_lt hlt]
    exact ⟨congrArg (· * 4096) hpage, hparity⟩
  · exact ⟨rfl, rfl⟩

theorem SamePages.pageAt {dir virt : Nat} (h : SamePages m m') (hdir : dir % 4096 = 0) :
    pageAt m' dir virt = pageAt m dir virt := by
  obtain ⟨hpage, hparity⟩ := h dir _ hdir (pdeIdx_lt virt)
  obtain ⟨hpage', hparity'⟩ :=
    h (entry m dir (pdeIdx virt) / 4096 * 4096) _ (Nat.mul_mod_left ..) (pteIdx_lt virt)
  unfold Memory.pageAt
  simp only [hpage, hparity, hpage', hparity']

end

/-! ## Frames in use -/

namespace Pfa

variable {p q r : Pfa} {a : Nat}

/-- The frame at `a` is taken. -/
structure Held (p : Pfa) (a : Nat) : Prop where
  aligned : a % 4096 = 0
  fits : a / 4096 < p.totalFrames
  taken : p.testBit (a / 4096) = true

/-- Frames are taken, none is freed. -/
structure Grew (p q : Pfa) : Prop where
  total : q.totalFrames = p.totalFrames
  taken : ∀ f, f < p.totalFrames → p.testBit f = true → q.testBit f = true

theorem Grew.refl (p : Pfa) : Grew p p := ⟨rfl, fun _ _ h => h⟩

theorem Grew.trans (h : Grew p q) (h' : Grew q r) : Grew p r :=
  ⟨h'.total.trans h.total, fun f hf hp => h'.taken f (h.total ▸ hf) (h.taken f hf hp)⟩

theorem Grew.held (h : Grew p q) (ha : p.Held a) : q.Held a :=
  ⟨ha.aligned, h.total ▸ ha.fits, h.taken _ ha.fits ha.taken⟩

theorem Took.grew {start n : Nat} (h : Took p start n q) : Grew p q := by
  refine ⟨h.total, fun f hf hp => ?_⟩
  rw [h.bits f hf]
  split <;> first | rfl | exact hp

variable {i : Nat}

theorem Took.ne_of_held (h : Took p i 1 q) (ha : p.Held a) : a ≠ i * 4096 := by
  rintro rfl
  have hfree := h.free (i * 4096 / 4096) (by omega) (by omega)
  rw [ha.taken] at hfree
  contradiction

theorem Took.held (h : Took p i 1 q) : q.Held (i * 4096) := by
  have hfits := h.fits
  have hdiv : i * 4096 / 4096 = i := Nat.mul_div_cancel i (by decide)
  refine ⟨Nat.mul_mod_left .., by rw [hdiv, h.total]; omega, ?_⟩
  rw [hdiv, h.bits i (by omega), if_pos (by omega)]

theorem grew_allocFrame (p : Pfa) : Grew p p.allocFrame.2 := by
  rcases p.allocFrame_spec with ⟨i, q, heq, htook, -⟩ | ⟨heq, -⟩
  · rw [heq]
    exact htook.grew
  rw [heq]
  exact .refl p

/-- The frames of `F` were free, and are taken. -/
structure TookSet (p : Pfa) (F : Set Nat) (q : Pfa) : Prop where
  total : q.totalFrames = p.totalFrames
  fits : ∀ f ∈ F, f < p.totalFrames
  free : ∀ f ∈ F, p.testBit f = false
  bits : ∀ f, f < p.totalFrames → (q.testBit f = true ↔ f ∈ F ∨ p.testBit f = true)

variable {F : Set Nat}

theorem TookSet.refl (p : Pfa) : TookSet p ∅ p :=
  ⟨rfl, fun _ hf => hf.elim, fun _ hf => hf.elim, fun _ _ => ⟨.inr, fun h => h.resolve_left id⟩⟩

theorem TookSet.grew (h : TookSet p F q) : Grew p q :=
  ⟨h.total, fun f hf hp => (h.bits f hf).mpr (.inr hp)⟩

theorem TookSet.congr {G : Set Nat} (h : TookSet p F q) (hmem : ∀ f, f ∈ G ↔ f ∈ F) :
    TookSet p G q := by
  rw [Set.ext hmem]
  exact h

theorem TookSet.took {i n : Nat} (h : TookSet p F q) (ht : Took q i n r) :
    (∀ f ∈ F, ¬ (i ≤ f ∧ f < i + n)) ∧ TookSet p {f | f ∈ F ∨ (i ≤ f ∧ f < i + n)} r := by
  have hfits := ht.fits
  have htotal := h.total
  have hnot : ∀ f, i ≤ f → f < i + n → ¬ (f ∈ F ∨ p.testBit f = true) := by
    intro f hlo hhi hin
    have hset := (h.bits f (by omega)).mpr hin
    rw [ht.free f hlo hhi] at hset
    contradiction
  refine ⟨fun f hf hin => hnot f hin.1 hin.2 (.inl hf), ht.total.trans htotal, ?_, ?_, fun f hf => ?_⟩
  · rintro f (hf | hf)
    · exact h.fits f hf
    · omega
  · rintro f (hf | hf)
    · exact h.free f hf
    · exact Bool.eq_false_iff.mpr fun hset => hnot f hf.1 hf.2 (.inr hset)
  · rw [ht.bits f (by omega)]
    by_cases hin : i ≤ f ∧ f < i + n
    · rw [if_pos hin]
      exact iff_of_true rfl (.inl (.inr hin))
    rw [if_neg hin, h.bits f hf]
    show _ ↔ (f ∈ F ∨ _) ∨ _
    rw [or_iff_left hin]

end Pfa

namespace Vm

variable {s s' : Vm} {dir virt phys flags : Nat}

@[simp] theorem allocFrame_mem (s : Vm) : s.allocFrame.2.mem = s.mem := rfl
@[simp] theorem allocFrame_kernelDir (s : Vm) : s.allocFrame.2.kernelDir = s.kernelDir := rfl

theorem allocFrame_spec (hp : s.pfa.totalFrames ≤ 2 ^ 18) (h : s.allocFrame.1 ≠ 0) :
    ∃ i, s.allocFrame.1 = i * 4096 ∧ s.pfa.Took i 1 s.allocFrame.2.pfa ∧
      ∀ j < i, s.pfa.testBit j = true := by
  show ∃ i, s.pfa.allocFrame.1.toNat = i * 4096 ∧ s.pfa.Took i 1 s.pfa.allocFrame.2 ∧ _
  rcases s.pfa.allocFrame_spec with ⟨i, q, heq, htook, hfirst⟩ | ⟨heq, -⟩
  · have hfits := htook.fits
    rw [heq]
    exact ⟨i, addrOf_toNat (by omega), htook, hfirst⟩
  refine absurd ?_ h
  show s.pfa.allocFrame.1.toNat = 0
  rw [heq]
  rfl

/-- If frame 0 is reserved, `alloc_frame` fails only if no frame is free. -/
theorem allocFrame_none (hp : s.pfa.totalFrames ≤ 2 ^ 18) (hzero : s.pfa.testBit 0 = true)
    (h : s.allocFrame.1 = 0) :
    s.allocFrame.2 = s ∧ ∀ f < s.pfa.totalFrames, s.pfa.testBit f = true := by
  rcases s.pfa.allocFrame_spec with ⟨i, q, heq, htook, -⟩ | ⟨heq, hall⟩
  · have hfits := htook.fits
    have haddr : s.pfa.allocFrame.1.toNat = i * 4096 := by
      rw [heq]
      exact addrOf_toNat (by omega)
    have hi : i = 0 := by
      have hnone : s.pfa.allocFrame.1.toNat = 0 := h
      omega
    have hfree := htook.free i le_rfl (by omega)
    rw [hi, hzero] at hfree
    contradiction
  refine ⟨?_, hall⟩
  show ({ s with pfa := s.pfa.allocFrame.2 } : Vm) = s
  rw [heq]

theorem allocFrame_freeFrom {n : Nat} (h : s.pfa.FreeFrom n) (hn : n < s.pfa.totalFrames) :
    s.allocFrame.1 = n * 4096 ∧ s.allocFrame.2.pfa.totalFrames = s.pfa.totalFrames ∧
      s.allocFrame.2.pfa.FreeFrom (n + 1) := by
  obtain ⟨haddr, htotal, hfree⟩ := h.allocFrame hn
  have hsmall := h.total
  refine ⟨?_, htotal, hfree⟩
  show s.pfa.allocFrame.1.toNat = n * 4096
  rw [haddr, addrOf_toNat (by omega)]

/-! ## Directories -/

/-- The directory and its tables are different pages, and taken. -/
structure Tables (s : Vm) (dir : Nat) : Prop where
  total : s.pfa.totalFrames ≤ 2 ^ 18
  dir_held : s.pfa.Held dir
  held : ∀ i, i < 1024 → entry s.mem dir i % 2 = 1 → s.pfa.Held (entry s.mem dir i / 4096 * 4096)
  apart : ∀ i, i < 1024 → entry s.mem dir i % 2 = 1 → entry s.mem dir i / 4096 * 4096 ≠ dir
  inj : ∀ i j, i < 1024 → j < 1024 → entry s.mem dir i % 2 = 1 → entry s.mem dir j % 2 = 1 →
    entry s.mem dir i / 4096 * 4096 = entry s.mem dir j / 4096 * 4096 → i = j

theorem Tables.frame (h : Tables s dir) (hgrew : s.pfa.Grew s'.pfa)
    (hsame : ∀ i < 1024, entry s'.mem dir i = entry s.mem dir i) : Tables s' dir := by
  refine ⟨hgrew.total ▸ h.total, hgrew.held h.dir_held, fun i hi hodd => ?_, fun i hi hodd => ?_,
    fun i j hi hj hoddi hoddj => ?_⟩
  · rw [hsame i hi] at hodd ⊢
    exact hgrew.held (h.held i hi hodd)
  · rw [hsame i hi] at hodd ⊢
    exact h.apart i hi hodd
  · rw [hsame i hi] at hoddi ⊢
    rw [hsame j hj] at hoddj ⊢
    exact h.inj i j hi hj hoddi hoddj

theorem Tables.samePages (h : Tables s dir) (hpfa : s'.pfa = s.pfa)
    (hsame : SamePages s.mem s'.mem) :
    Tables s' dir := by
  have hdir := h.dir_held.aligned
  refine ⟨hpfa ▸ h.total, hpfa ▸ h.dir_held, fun i hi hodd => ?_, fun i hi hodd => ?_,
    fun i j hi hj hoddi hoddj => ?_⟩
  · rw [(hsame dir i hdir hi).2] at hodd
    rw [(hsame dir i hdir hi).1, hpfa]
    exact h.held i hi hodd
  · rw [(hsame dir i hdir hi).2] at hodd
    rw [(hsame dir i hdir hi).1]
    exact h.apart i hi hodd
  · rw [(hsame dir i hdir hi).2] at hoddi
    rw [(hsame dir j hdir hj).2] at hoddj
    rw [(hsame dir i hdir hi).1, (hsame dir j hdir hj).1]
    exact h.inj i j hi hj hoddi hoddj

theorem samePages_tableAddUserFlag (m : Mem) {table : Nat} (htable : table % 4096 = 0) :
    SamePages m (tableAddUserFlag m table) := by
  unfold tableAddUserFlag
  refine List.foldlRecOn _ _ (motive := SamePages m) (.refl m) fun m' hm' j hj => hm'.trans ?_
  split
  · exact .refl m'
  · exact samePages_setEntry htable (mem_range.mp hj) (by decide) (by decide)

theorem samePages_dirAddUserFlag (m : Mem) (hdir : dir % 4096 = 0) :
    SamePages m (dirAddUserFlag m dir) := by
  unfold dirAddUserFlag
  refine List.foldlRecOn _ _ (motive := SamePages m) (.refl _) fun m hm i hi => hm.trans ?_
  unfold entryAddUserFlag
  split
  · exact .refl m
  have hset := @samePages_setEntry m dir i pageUser hdir (mem_range.mp hi) (by decide)
    (by decide)
  exact hset.trans (samePages_tableAddUserFlag _ (Nat.mul_mod_left ..))

/-- The page of `virt` is mapped to `v` in `dir`, and no other page is. -/
structure Remaps (s : Vm) (dir virt : Nat) (v : Option Nat) (s' : Vm) : Prop where
  tables : Tables s' dir
  kernelDir : s'.kernelDir = s.kernelDir
  grew : s.pfa.Grew s'.pfa
  page : ∀ w, pageAt s'.mem dir w = if pageNo w = pageNo virt then v else pageAt s.mem dir w
  others : ∀ t j, s.pfa.Held t → t ≠ dir →
    (entry s.mem dir (pdeIdx virt) % 2 = 1 → t ≠ entry s.mem dir (pdeIdx virt) / 4096 * 4096) →
    j < 1024 → entry s'.mem t j = entry s.mem t j
  entries : ∀ i, i < 1024 → (i = pdeIdx virt → entry s.mem dir i % 2 = 1) →
    entry s'.mem dir i = entry s.mem dir i
  allocates : entry s.mem dir (pdeIdx virt) % 2 = 1 → s'.pfa = s.pfa

theorem Tables.setEntry (h : Tables s dir) (hodd : entry s.mem dir (pdeIdx virt) % 2 = 1) {v : Nat}
    (hv : v < 2 ^ 32) :
    Remaps s dir virt (pageOf v) { s with
      mem := setEntry s.mem (entry s.mem dir (pdeIdx virt) / 4096 * 4096) (pteIdx virt) v } := by
  have hpde := pdeIdx_lt virt
  have hread : ∀ t j, t % 4096 = 0 → j < 1024 →
      entry (Memory.setEntry s.mem (entry s.mem dir (pdeIdx virt) / 4096 * 4096) (pteIdx virt) v) t j
        = if t = entry s.mem dir (pdeIdx virt) / 4096 * 4096 ∧ j = pteIdx virt then v
          else entry s.mem t j := by
    intro t j ht hj
    rw [entry_setEntry (Nat.mul_mod_left ..) ht (pteIdx_lt virt) hj, mod_eq_of_lt hv]
  -- the directory is not its table, so its entries stay
  have hdir : ∀ i < 1024, entry (Memory.setEntry s.mem
      (entry s.mem dir (pdeIdx virt) / 4096 * 4096) (pteIdx virt) v) dir i = entry s.mem dir i := by
    intro i hi
    rw [hread dir i h.dir_held.aligned hi, if_neg]
    rintro ⟨heq, -⟩
    exact h.apart _ hpde hodd heq.symm
  refine ⟨h.frame (.refl _) hdir, rfl, .refl _, fun w => ?_, fun t j ht _ hne hj => ?_,
    fun i hi _ => hdir i hi, fun _ => rfl⟩
  swap
  · exact (hread t j ht.aligned hj).trans (if_neg fun heq => hne hodd heq.1)
  have hw := pdeIdx_lt w
  rcases Nat.mod_two_eq_zero_or_one (entry s.mem dir (pdeIdx w)) with heven | hwodd
  · rw [pageAt_of_absent (by rw [hdir _ hw]; exact heven), pageAt_of_absent heven, if_neg]
    intro hpage
    rw [(pageNo_eq_iff.mp hpage).1] at heven
    omega
  rw [pageAt_of_present (by rw [hdir _ hw]; exact hwodd), pageAt_of_present hwodd, hdir _ hw,
    hread _ _ (Nat.mul_mod_left ..) (pteIdx_lt w)]
  by_cases hpage : pageNo w = pageNo virt
  · obtain ⟨hp, hq⟩ := pageNo_eq_iff.mp hpage
    rw [if_pos hpage, if_pos ⟨by rw [hp], hq⟩]
  rw [if_neg hpage, if_neg]
  rintro ⟨htable, hq⟩
  -- different tables, since `dir` has each table once
  exact hpage (pageNo_eq_iff.mpr ⟨h.inj _ _ hw hpde hwodd hodd htable, hq⟩)

theorem createTableInDir_alloc (s : Vm) (dir virt flags : Nat) :
    (s.createTableInDir dir virt flags).1 = s.allocFrame.1 ∧
      (s.createTableInDir dir virt flags).2.pfa = s.pfa.allocFrame.2 ∧
      (s.createTableInDir dir virt flags).2.kernelDir = s.kernelDir ∧
      (s.allocFrame.1 = 0 → (s.createTableInDir dir virt flags).2.mem = s.mem) := by
  unfold createTableInDir
  simp only
  split
  · next hnone => exact ⟨hnone.symm, rfl, rfl, fun _ => rfl⟩
  · next hsome => exact ⟨rfl, rfl, rfl, fun hnone => absurd hnone hsome⟩

/-- The new table is empty, and only the entry for `virt` refers to it. -/
theorem entry_createTableInDir (hdir : dir % 4096 = 0) (hsome : s.allocFrame.1 ≠ 0) {t j : Nat}
    (hp : s.pfa.totalFrames ≤ 2 ^ 18) (ht : t % 4096 = 0) (hj : j < 1024) :
    entry (s.createTableInDir dir virt flags).2.mem t j =
      if t = dir ∧ j = pdeIdx virt then dirEntry s.allocFrame.1 flags
      else if t = s.allocFrame.1 then 0 else entry s.mem t j := by
  obtain ⟨i, hi, htook, -⟩ := allocFrame_spec hp hsome
  have hfits := htook.fits
  have haligned : s.allocFrame.1 % 4096 = 0 := by omega
  have hword := (dirEntry_spec s.allocFrame.1 flags haligned (by omega)).2.2
  have heq : (s.createTableInDir dir virt flags).2.mem
      = Memory.setEntry (storeWords s.mem s.allocFrame.1 (fun _ _ => 0) 1024) dir (pdeIdx virt)
          (dirEntry s.allocFrame.1 flags) := by
    unfold createTableInDir
    simp only
    rw [if_neg hsome]
    rfl
  rw [heq, entry_setEntry hdir ht (pdeIdx_lt virt) hj, hword,
    entry_storeWords (w := fun _ => 0) haligned ht hj fun _ _ _ _ => rfl, Nat.zero_mod]

theorem Tables.link (h : Tables s dir) {i t e : Nat} {f : Nat → Nat} (hi : i < 1024)
    (hnew : ∀ a, s.pfa.Held a → a ≠ t) (hgrew : s.pfa.Grew s'.pfa) (hheld : s'.pfa.Held t)
    (he : e / 4096 * 4096 = t)
    (hodd : e % 2 = 1)
    (hread : ∀ a j, a % 4096 = 0 → j < 1024 → entry s'.mem a j =
      if a = dir ∧ j = i then e else if a = t then f j else entry s.mem a j) :
    Tables s' dir ∧ ∀ w, pageAt s'.mem dir w =
      if pdeIdx w = i then pageOf (f (pteIdx w)) else pageAt s.mem dir w := by
  have hdirne := hnew dir h.dir_held
  -- the entries of the directory: the new one, and the old ones
  have hlinked : entry s'.mem dir i = e := by
    rw [hread dir i h.dir_held.aligned hi, if_pos ⟨rfl, rfl⟩]
  have hold : ∀ j < 1024, j ≠ i → entry s'.mem dir j = entry s.mem dir j := by
    intro j hj hji
    rw [hread dir j h.dir_held.aligned hj, if_neg fun heq => hji heq.2, if_neg hdirne]
  refine ⟨⟨hgrew.total ▸ h.total, hgrew.held h.dir_held, fun j hj => ?_, fun j hj => ?_,
    fun j k hj hk => ?_⟩, fun w => ?_⟩
  · by_cases hji : j = i
    · rw [hji, hlinked, he]
      exact fun _ => hheld
    rw [hold j hj hji]
    exact fun hjodd => hgrew.held (h.held j hj hjodd)
  · by_cases hji : j = i
    · rw [hji, hlinked, he]
      exact fun _ => hdirne.symm
    rw [hold j hj hji]
    exact h.apart j hj
  · by_cases hji : j = i <;> by_cases hki : k = i
    · exact fun _ _ _ => hji.trans hki.symm
    · rw [hji, hlinked, he, hold k hk hki]
      exact fun _ hkodd heq => absurd heq.symm (hnew _ (h.held k hk hkodd))
    · rw [hki, hlinked, he, hold j hj hji]
      exact fun hjodd _ heq => absurd heq (hnew _ (h.held j hj hjodd))
    · rw [hold j hj hji, hold k hk hki]
      exact h.inj j k hj hk
  · have hw := pdeIdx_lt w
    by_cases hwi : pdeIdx w = i
    · rw [if_pos hwi, pageAt_of_present (by rw [hwi, hlinked, hodd]), hwi, hlinked, he,
        hread t _ hheld.aligned (pteIdx_lt w), if_neg fun heq => hdirne heq.1.symm, if_pos rfl]
    rw [if_neg hwi]
    rcases Nat.mod_two_eq_zero_or_one (entry s.mem dir (pdeIdx w)) with heven | hwodd
    · rw [pageAt_of_absent (by rw [hold _ hw hwi]; exact heven), pageAt_of_absent heven]
    rw [pageAt_of_present (by rw [hold _ hw hwi]; exact hwodd), pageAt_of_present hwodd,
      hold _ hw hwi, hread _ _ (Nat.mul_mod_left ..) (pteIdx_lt w),
      if_neg fun heq => h.apart _ hw hwodd heq.1, if_neg (hnew _ (h.held _ hw hwodd))]

/-- A new table changes no mapping. -/
theorem createTableInDir_spec (flags : Nat) (h : Tables s dir)
    (habsent : entry s.mem dir (pdeIdx virt) % 2 = 0) (hsome : s.allocFrame.1 ≠ 0) :
    Remaps s dir virt none (s.createTableInDir dir virt flags).2 ∧
      entry (s.createTableInDir dir virt flags).2.mem dir (pdeIdx virt) % 2 = 1 ∧
      entry (s.createTableInDir dir virt flags).2.mem dir (pdeIdx virt) / 4096 * 4096
        = s.allocFrame.1 := by
  obtain ⟨i, hi, htook, -⟩ := allocFrame_spec h.total hsome
  obtain ⟨-, hpfa, hkernel, -⟩ := createTableInDir_alloc s dir virt flags
  have hfits := htook.fits
  have hsmall := h.total
  have hread : ∀ t j, t % 4096 = 0 → j < 1024 → _ := fun t j =>
    @entry_createTableInDir s dir virt flags h.dir_held.aligned hsome t j hsmall
  obtain ⟨htable, hodd, -⟩ := dirEntry_spec s.allocFrame.1 flags (by omega) (by omega)
  have hnew : ∀ a, s.pfa.Held a → a ≠ s.allocFrame.1 := fun a ha => hi ▸ htook.ne_of_held ha
  have hgrew : s.pfa.Grew (s.createTableInDir dir virt flags).2.pfa := by
    rw [hpfa]
    exact s.pfa.grew_allocFrame
  have hheld : (s.createTableInDir dir virt flags).2.pfa.Held s.allocFrame.1 := by
    rw [hpfa, hi]
    exact htook.held
  have hlinked : entry (s.createTableInDir dir virt flags).2.mem dir (pdeIdx virt)
      = dirEntry s.allocFrame.1 flags := by
    rw [hread dir _ h.dir_held.aligned (pdeIdx_lt virt), if_pos ⟨rfl, rfl⟩]
  obtain ⟨htables, hpage⟩ := h.link (f := fun _ => 0) (pdeIdx_lt virt) hnew hgrew hheld htable
    hodd hread
  refine ⟨⟨htables, hkernel, hgrew, fun w => ?_, fun t j ht htdir _ hj => ?_, fun j hj hjv => ?_,
    fun hpresent => ?_⟩, by rw [hlinked, hodd], by rw [hlinked, htable]⟩
  · rw [hpage w]
    by_cases hw : pdeIdx w = pdeIdx virt
    · -- pages of the new table: unmapped before and after
      rw [if_pos hw, pageAt_of_absent (by rw [hw]; exact habsent), ite_self]
      rfl
    · rw [if_neg hw, if_neg fun heq => hw (pageNo_eq_iff.mp heq).1]
  · rw [hread t j ht.aligned hj, if_neg fun heq => htdir heq.1, if_neg (hnew t ht)]
  · rw [hread dir j h.dir_held.aligned hj, if_neg, if_neg (hnew dir h.dir_held)]
    rintro ⟨-, rfl⟩
    exact absurd (hjv rfl) (by omega)
  · omega

theorem mapPageToDir_of_present (hpresent : entry s.mem dir (pdeIdx virt) % 2 = 1) :
    s.mapPageToDir dir virt phys flags = (true, { s with
      mem := Memory.setEntry s.mem (entry s.mem dir (pdeIdx virt) / 4096 * 4096) (pteIdx virt)
        (pageEntry phys flags) }) := by
  unfold mapPageToDir
  rw [if_neg (by omega : ¬ entry s.mem dir (pdeIdx virt) % 2 = 0)]
  rfl

/-- `map_page_to_dir` either maps the page, or finds no frame for a table. -/
theorem mapPageToDir_spec (h : Tables s dir) (hphys : phys < 2 ^ 32) :
    ((s.mapPageToDir dir virt phys flags).1 = true ∧
      Remaps s dir virt (some (phys / 4096 * 4096)) (s.mapPageToDir dir virt phys flags).2 ∧
      (entry s.mem dir (pdeIdx virt) % 2 = 0 → s.allocFrame.1 ≠ 0 ∧
        (s.mapPageToDir dir virt phys flags).2.pfa = s.allocFrame.2.pfa ∧
        entry (s.mapPageToDir dir virt phys flags).2.mem dir (pdeIdx virt) % 2 = 1 ∧
        entry (s.mapPageToDir dir virt phys flags).2.mem dir (pdeIdx virt) / 4096 * 4096
          = s.allocFrame.1)) ∨
    ((s.mapPageToDir dir virt phys flags).1 = false ∧
      (s.mapPageToDir dir virt phys flags).2 = s.allocFrame.2 ∧ s.allocFrame.1 = 0 ∧
      entry s.mem dir (pdeIdx virt) % 2 = 0) := by
  obtain ⟨hframe, hodd, hword⟩ := pageEntry_spec flags hphys
  have hpage : pageOf (pageEntry phys flags) = some (phys / 4096 * 4096) := by
    rw [← hframe]
    exact if_neg (by omega)
  -- the second half of the function, once there is a table
  have hstore : ∀ {s : Vm}, Tables s dir → entry s.mem dir (pdeIdx virt) % 2 = 1 →
      Remaps s dir virt (some (phys / 4096 * 4096)) { s with
        mem := Memory.setEntry s.mem (entry s.mem dir (pdeIdx virt) / 4096 * 4096) (pteIdx virt)
          (pageEntry phys flags) } := by
    intro s hs hpresent
    rw [← hpage]
    exact hs.setEntry hpresent (by omega)
  rcases Nat.mod_two_eq_zero_or_one (entry s.mem dir (pdeIdx virt)) with habsent | hpresent
  · obtain ⟨hfst, hpfa, hkernel, hmem⟩ := createTableInDir_alloc s dir virt flags
    by_cases hnone : s.allocFrame.1 = 0
    · have heq : s.mapPageToDir dir virt phys flags
          = (false, (s.createTableInDir dir virt flags).2) := by
        unfold mapPageToDir
        rw [if_pos habsent]
        exact if_pos (hfst.trans hnone)
      refine .inr ⟨by rw [heq], ?_, hnone, habsent⟩
      rw [heq]
      unfold createTableInDir
      exact congrArg Prod.snd (if_pos hnone)
    have heq : s.mapPageToDir dir virt phys flags
        = (true, { (s.createTableInDir dir virt flags).2 with
            mem := Memory.setEntry (s.createTableInDir dir virt flags).2.mem
              (entry (s.createTableInDir dir virt flags).2.mem dir (pdeIdx virt) / 4096 * 4096)
              (pteIdx virt) (pageEntry phys flags) }) := by
      unfold mapPageToDir
      rw [if_pos habsent]
      exact if_neg (hfst ▸ hnone)
    obtain ⟨htable, hpresent, htableAt⟩ := createTableInDir_spec flags h habsent hnone
    obtain ⟨i, hi, htook, -⟩ := allocFrame_spec h.total hnone
    have hmap := hstore htable.tables hpresent
    have hsame := hmap.entries (pdeIdx virt) (pdeIdx_lt virt) fun _ => hpresent
    refine .inl ⟨by rw [heq], ?_, ?_⟩
    swap
    · rw [heq]
      refine fun _ => ⟨hnone, hpfa, ?_, ?_⟩
      · rw [hsame]
        exact hpresent
      · rw [hsame]
        exact htableAt
    rw [heq]
    refine ⟨hmap.tables, hmap.kernelDir.trans htable.kernelDir, htable.grew.trans hmap.grew,
      fun w => ?_, fun t j ht htdir hne hj => ?_, fun j hj hjv => ?_, fun hodd => ?_⟩
    · rw [hmap.page w, htable.page w]
      split <;> rfl
    · have hnew : t ≠ entry (s.createTableInDir dir virt flags).2.mem dir (pdeIdx virt)
          / 4096 * 4096 := by
        rw [htableAt, hi]
        exact htook.ne_of_held ht
      rw [hmap.others t j (htable.grew.held ht) htdir (fun _ => hnew) hj]
      exact htable.others t j ht htdir hne hj
    · rw [hmap.entries j hj (fun hjv => hjv ▸ hpresent), htable.entries j hj hjv]
    · omega
  have heq := @mapPageToDir_of_present s dir virt phys flags hpresent
  refine .inl ⟨by rw [heq], ?_, fun habsent => absurd habsent (by omega)⟩
  rw [heq]
  exact hstore h hpresent

theorem unmapPageFromDir_spec (h : Tables s dir) :
    ((s.unmapPageFromDir dir virt).1 = true ∧
      Remaps s dir virt none (s.unmapPageFromDir dir virt).2) ∨
    ((s.unmapPageFromDir dir virt).1 = false ∧ (s.unmapPageFromDir dir virt).2 = s ∧
      pageAt s.mem dir virt = none) := by
  unfold unmapPageFromDir
  rcases Nat.mod_two_eq_zero_or_one (entry s.mem dir (pdeIdx virt)) with habsent | hpresent
  · rw [if_pos habsent]
    exact .inr ⟨rfl, rfl, pageAt_of_absent habsent⟩
  rw [if_neg (by omega : ¬ entry s.mem dir (pdeIdx virt) % 2 = 0)]
  simp only
  split
  · next hunmapped =>
    exact .inr ⟨rfl, rfl, by rw [pageAt_of_present hpresent]; exact if_pos hunmapped⟩
  · exact .inl ⟨rfl, h.setEntry hpresent (v := 0) (by decide)⟩

/-! ## The rights of a page -/

/-- The processor grants a right for `virt`: its bit is set in both levels. -/
def Grants (m : Mem) (dir virt bit : Nat) : Prop :=
  (entry m dir (pdeIdx virt)).testBit bit = true ∧
    (entry m (entry m dir (pdeIdx virt) / 4096 * 4096) (pteIdx virt)).testBit bit = true

/-- The bits WRITE and USER of the entries that are stored.  A page gets what `flags` says; a
    table gets WRITE always. -/
theorem rights_bits (flags : Nat) {page : Nat} (h : page % 4096 = 0) :
    (∀ bit, bit = 1 ∨ bit = 2 → (pageEntry page flags).testBit bit = flags.testBit bit) ∧
      (dirEntry page flags).testBit 1 = true ∧
      (dirEntry page flags).testBit 2 = flags.testBit 2 := by
  have hlow : page / 4096 * 4096 = page := by omega
  have hpage : ∀ bit < 12, page.testBit bit = false := by
    intro bit hbit
    rw [← hlow, show 4096 = 2 ^ 12 from rfl, Nat.testBit_mul_two_pow]
    simp [hbit]
  have hconst : pagePresent.testBit 1 = false ∧ pagePresent.testBit 2 = false ∧
      pageWrite.testBit 1 = true ∧ pageWrite.testBit 2 = false ∧
      pageUser.testBit 1 = false ∧ pageUser.testBit 2 = true := by decide
  simp only [pageEntry, dirEntry, hlow, Nat.testBit_or, Nat.testBit_and]
  refine ⟨?_, ?_, ?_⟩
  · rintro bit (rfl | rfl) <;> simp [hpage, hconst]
  · simp [hconst]
  · simp [hpage, hconst]

/-- With a table for `virt`, the call leaves the directory as it is. -/
theorem grants_of_present (h : Tables s dir) (hphys : phys < 2 ^ 32)
    (hpresent : entry s.mem dir (pdeIdx virt) % 2 = 1) {bit : Nat} (hbit : bit = 1 ∨ bit = 2) :
    Grants (s.mapPageToDir dir virt phys flags).2.mem dir virt bit ↔
      (entry s.mem dir (pdeIdx virt)).testBit bit = true ∧ flags.testBit bit = true := by
  have hpde := pdeIdx_lt virt
  have hread := fun t ht j hj => @entry_setEntry s.mem
    (entry s.mem dir (pdeIdx virt) / 4096 * 4096) t (pteIdx virt) j (pageEntry phys flags)
    (Nat.mul_mod_left ..) ht (pteIdx_lt virt) hj
  have hsame := hread dir h.dir_held.aligned _ hpde
  rw [if_neg fun hself => h.apart _ hpde hpresent hself.1.symm] at hsame
  -- the entry of the page depends on its frame only above the flags
  have hpte : (pageEntry phys flags).testBit bit = flags.testBit bit := by
    rw [← (rights_bits flags (Nat.mul_mod_left (phys / 4096) 4096)).1 bit hbit]
    unfold pageEntry
    rw [Nat.mul_div_cancel _ (by decide)]
  unfold Grants
  rw [mapPageToDir_of_present hpresent, hsame, hread _ (Nat.mul_mod_left ..) _ (pteIdx_lt virt),
    if_pos ⟨rfl, rfl⟩, (pageEntry_spec flags hphys).2.2, hpte]

/-- Without a table for `virt`, the new one allows what the page asks for. -/
theorem grants_of_absent (h : Tables s dir) (hphys : phys < 2 ^ 32)
    (habsent : entry s.mem dir (pdeIdx virt) % 2 = 0)
    (hok : (s.mapPageToDir dir virt phys flags).1 = true) {bit : Nat} (hbit : bit = 1 ∨ bit = 2) :
    Grants (s.mapPageToDir dir virt phys flags).2.mem dir virt bit ↔ flags.testBit bit = true := by
  obtain ⟨hfst, -, -, -⟩ := createTableInDir_alloc s dir virt flags
  have hnone : s.allocFrame.1 ≠ 0 := by
    intro hnone
    unfold mapPageToDir at hok
    simp only [if_pos habsent, if_pos (hfst.trans hnone)] at hok
    contradiction
  obtain ⟨hnew, hpresent, -⟩ := createTableInDir_spec flags h habsent hnone
  -- from here on the call is one that finds a table
  have heq : (s.mapPageToDir dir virt phys flags).2.mem =
      ((s.createTableInDir dir virt flags).2.mapPageToDir dir virt phys flags).2.mem := by
    rw [mapPageToDir_of_present hpresent]
    unfold mapPageToDir
    simp only [if_pos habsent, hfst, if_neg hnone]
    rfl
  obtain ⟨i, hi, -, -⟩ := allocFrame_spec h.total hnone
  have hbits := (rights_bits flags (by omega : s.allocFrame.1 % 4096 = 0)).2
  rw [heq, grants_of_present hnew.tables hphys hpresent hbit,
    entry_createTableInDir h.dir_held.aligned hnone h.total h.dir_held.aligned (pdeIdx_lt virt),
    if_pos ⟨rfl, rfl⟩]
  rcases hbit with rfl | rfl
  · rw [hbits.1]
    exact ⟨And.right, fun hset => ⟨rfl, hset⟩⟩
  · rw [hbits.2, and_self]

/-- A page that was mapped has the rights that were asked for exactly if the table that was there
    before, if any, allows them. -/
theorem mapPageToDir_rights_iff (h : Tables s dir) (hphys : phys < 2 ^ 32)
    (hok : (s.mapPageToDir dir virt phys flags).1 = true) :
    ((Grants (s.mapPageToDir dir virt phys flags).2.mem dir virt 2 ↔ flags.testBit 2 = true) ∧
      (Grants (s.mapPageToDir dir virt phys flags).2.mem dir virt 1 ↔ flags.testBit 1 = true)) ↔
    (entry s.mem dir (pdeIdx virt) % 2 = 1 →
      (flags.testBit 2 = true → (entry s.mem dir (pdeIdx virt)).testBit 2 = true) ∧
      (flags.testBit 1 = true → (entry s.mem dir (pdeIdx virt)).testBit 1 = true)) := by
  rcases Nat.mod_two_eq_zero_or_one (entry s.mem dir (pdeIdx virt)) with habsent | hpresent
  · have hall := fun bit => @grants_of_absent s dir virt phys flags h hphys habsent hok bit
    exact ⟨fun _ hodd => absurd hodd (by omega), fun _ => ⟨hall 2 (.inr rfl), hall 1 (.inl rfl)⟩⟩
  rw [grants_of_present h hphys hpresent (.inr rfl), grants_of_present h hphys hpresent (.inl rfl),
    and_iff_right_iff_imp, and_iff_right_iff_imp]
  exact ⟨fun hboth _ => hboth, fun hboth => hboth hpresent⟩

/-- An empty directory in frame 1, and one free frame. -/
def oneFree : Vm := ⟨fun _ => 0, ⟨fun _ => 3, 3⟩, 0x1000⟩

theorem oneFree_tables : oneFree.Tables 0x1000 := by
  have hzero : ∀ i, entry oneFree.mem 0x1000 i = 0 := fun _ => rfl
  refine ⟨by decide, ⟨by decide, by decide, by decide⟩, fun i _ hodd => ?_, fun i _ hodd => ?_,
    fun i _ _ _ hodd => ?_⟩ <;> exact absurd hodd (by rw [hzero]; decide)

theorem oneFree_map (flags : Nat) : (oneFree.mapPageToDir 0x1000 0x400000 0x5000 flags).1 = true :=
  rfl

theorem mapPageToDir_rights_iff_oneFree :
    (Grants (oneFree.mapPageToDir 0x1000 0x400000 0x5000 6).2.mem 0x1000 0x400000 2 ↔
      Nat.testBit 6 2 = true) ∧
    (Grants (oneFree.mapPageToDir 0x1000 0x400000 0x5000 6).2.mem 0x1000 0x400000 1 ↔
      Nat.testBit 6 1 = true) :=
  (mapPageToDir_rights_iff oneFree_tables (by decide) (oneFree_map 6)).mpr fun hodd =>
    absurd hodd (by decide)

/-- A page is mapped for the kernel, and then another page of the same 4 MB for the user, who
    cannot reach it. -/
theorem mapPageToDir_user_refused :
    ∃ s : Vm, s = (oneFree.mapPageToDir 0x1000 0x400000 0x5000 pageWrite).2 ∧ s.Tables 0x1000 ∧
      (s.mapPageToDir 0x1000 0x401000 0x6000 (pageWrite ||| pageUser)).1 = true ∧
      ¬Grants (s.mapPageToDir 0x1000 0x401000 0x6000 (pageWrite ||| pageUser)).2.mem
        0x1000 0x401000 2 := by
  obtain ⟨-, hmap, hnew⟩ | ⟨hfail, -⟩ := @mapPageToDir_spec oneFree 0x1000 0x400000 0x5000 pageWrite
    oneFree_tables (by decide)
  · have hpresent : entry _ 0x1000 (pdeIdx 0x401000) % 2 = 1 := (hnew (by decide)).2.2.1
    refine ⟨_, rfl, hmap.tables, by rw [mapPageToDir_of_present hpresent], fun hgrants => ?_⟩
    have huser := ((grants_of_present hmap.tables (by decide) hpresent (.inr rfl)).mp hgrants).1
    exact absurd huser (by decide +kernel)
  · rw [oneFree_map] at hfail
    cases hfail

end Vm

end Noverix.Memory
