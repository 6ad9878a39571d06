/-
  The address space that `elf_exec` makes, and the program stored in it.

  The loop over the user's pages takes a frame for each page, and one for their
  table on the way; all of them had been free, so nothing in use changes.  It
  either gets to its end or runs out of frames, and then frees the directory
  only.  The stores of a program are to consecutive addresses: those that do not
  fault stay in the user's frames.
-/

import Noverix.Elf.Exec

namespace Noverix.Elf

open Lib Memory

/-! ## The new address space -/

section

variable {s₀ s s' : Vm} {pd table n : Nat} {page : Nat → Nat}

/-- The frames of an address space with `n` pages. -/
def spaceFrames (pd table : Nat) (page : Nat → Nat) (n : Nat) : Set Nat :=
  {f | f * 4096 = pd ∨ (0 < n ∧ f = table) ∨ ∃ j, j < n ∧ f = page j}

/-- The first `n` of the user's pages are mapped to `page 0`, `page 1`, ... in `pd`, all in frames
    that were free in `s₀`.  Apart from that `pd` is the kernel's directory. -/
structure UserSpace (s₀ : Vm) (pd table : Nat) (page : Nat → Nat) (n : Nat) (s : Vm) : Prop where
  took : s₀.pfa.TookSet (spaceFrames pd table page n) s.pfa
  tables : s.Tables pd
  kernelDir : s.kernelDir = s₀.kernelDir
  kept : ∀ t j, s₀.pfa.Held t → j < 1024 → entry s.mem t j = entry s₀.mem t j
  shared : ∀ i, i < 1024 → i ≠ userPdeIdx → entry s.mem pd i = entry s₀.mem s₀.kernelDir i
  absent : n = 0 → entry s.mem pd userPdeIdx % 2 = 0
  present : 0 < n → entry s.mem pd userPdeIdx % 2 = 1 ∧
    entry s.mem pd userPdeIdx / 4096 * 4096 = table * 4096
  apart : ∀ j, j < n → page j * 4096 ≠ pd ∧ page j ≠ table
  page : ∀ v, pdeIdx v = userPdeIdx → pageAt s.mem pd v =
    if pteIdx v < n then some (page (pteIdx v) * 4096) else none

theorem UserSpace.ne_of_held (h : UserSpace s₀ pd table page n s) {t f : Nat}
    (ht : s₀.pfa.Held t) (hf : f ∈ spaceFrames pd table page n) : t ≠ f * 4096 := by
  rintro rfl
  have hfree := h.took.free f hf
  have htaken := ht.taken
  rw [Nat.mul_div_cancel f (by decide)] at htaken
  exact absurd (htaken.symm.trans hfree) (by decide)

theorem userSpace_create (h : s₀.Tables s₀.kernelDir) (hsome : s₀.allocFrame.1 ≠ 0) :
    s₀.pageDirCreate.1 = s₀.allocFrame.1 ∧
      UserSpace s₀ s₀.allocFrame.1 table page 0 { s₀.pageDirCreate.2 with
        mem := setEntry s₀.pageDirCreate.2.mem s₀.allocFrame.1 userPdeIdx 0 } := by
  obtain ⟨i, hi, htook, -⟩ := Vm.allocFrame_spec h.total hsome
  have hsmall := h.total
  have hnew : ∀ a, s₀.pfa.Held a → a ≠ s₀.allocFrame.1 := fun a ha => hi ▸ htook.ne_of_held ha
  have heq : s₀.pageDirCreate = (s₀.allocFrame.1, { s₀.allocFrame.2 with
      mem := storeWords s₀.allocFrame.2.mem s₀.allocFrame.1
        (fun m i => entry m s₀.allocFrame.2.kernelDir i) 1024 }) := by
    unfold Vm.pageDirCreate
    exact if_neg hsome
  have hdir := h.dir_held
  have haligned : s₀.allocFrame.1 % 4096 = 0 := by omega
  rw [heq]
  simp only [Vm.allocFrame_mem, Vm.allocFrame_kernelDir]
  -- the entries of the copy, and of everything else
  have hread : ∀ t j, t % 4096 = 0 → j < 1024 →
      entry (setEntry (storeWords s₀.mem s₀.allocFrame.1
        (fun m i => entry m s₀.kernelDir i) 1024) s₀.allocFrame.1 userPdeIdx 0) t j =
      if t = s₀.allocFrame.1 then if j = userPdeIdx then 0 else entry s₀.mem s₀.kernelDir j
      else entry s₀.mem t j := by
    intro t j ht hj
    have hcopy : ∀ m', SameOutside s₀.mem m' s₀.allocFrame.1 (s₀.allocFrame.1 + 4096) →
        ∀ i < 1024, entry m' s₀.kernelDir i = entry s₀.mem s₀.kernelDir i := by
      intro m' hsame i hi
      have hne := hnew _ hdir
      have hdiraligned := hdir.aligned
      exact hsame.load32_eq (by omega)
    rw [entry_setEntry haligned ht (by decide) hj, entry_storeWords haligned ht hj hcopy,
      mod_eq_of_lt (entry_lt ..), Nat.zero_mod]
    by_cases htpd : t = s₀.allocFrame.1 <;> by_cases hj2 : j = userPdeIdx <;> simp [htpd, hj2]
  generalize setEntry _ s₀.allocFrame.1 userPdeIdx 0 = mem at hread
  have hpd : ∀ j < 1024, entry mem s₀.allocFrame.1 j =
      if j = userPdeIdx then 0 else entry s₀.mem s₀.kernelDir j :=
    fun j hj => (hread _ j haligned hj).trans (if_pos rfl)
  have hodd : ∀ j < 1024, entry mem s₀.allocFrame.1 j % 2 = 1 →
      entry mem s₀.allocFrame.1 j = entry s₀.mem s₀.kernelDir j := by
    intro j hj hodd
    rw [hpd j hj] at hodd ⊢
    split at hodd
    · contradiction
    · next hne => exact if_neg hne
  have hgrew : s₀.pfa.Grew s₀.allocFrame.2.pfa := htook.grew
  have habsent : entry mem s₀.allocFrame.1 userPdeIdx % 2 = 0 := by
    rw [hpd userPdeIdx (by decide), if_pos rfl]
  refine ⟨trivial, ⟨(Pfa.TookSet.refl _).took htook |>.2.congr fun f => ?_, ⟨hgrew.total ▸ hsmall, ?_,
    fun j hj hj1 => ?_, fun j hj hj1 => ?_, fun j l hj hl hj1 hl1 => ?_⟩, rfl, fun t j ht hj => ?_,
    fun j hj hj2 => ?_, fun _ => habsent, fun hpos => absurd hpos (by decide),
    fun _ hj => absurd hj (Nat.not_lt_zero _), fun v hv => ?_⟩⟩
  · show (f * 4096 = _ ∨ _ ∨ _) ↔ (False ∨ _)
    constructor
    · rintro (heq | ⟨hpos, -⟩ | ⟨j, hj, -⟩) <;> [exact .inr (by omega); omega; omega]
    · rintro (hfalse | hin) <;> [exact hfalse.elim; exact .inl (by omega)]
  · rw [hi]
    exact htook.held
  · have heq := hodd j hj hj1
    rw [heq] at hj1 ⊢
    exact hgrew.held (h.held j hj hj1)
  · have heq := hodd j hj hj1
    rw [heq] at hj1 ⊢
    exact hnew _ (h.held j hj hj1)
  · have heqj := hodd j hj hj1
    have heql := hodd l hl hl1
    rw [heqj] at hj1 ⊢
    rw [heql] at hl1 ⊢
    exact h.inj j l hj hl hj1 hl1
  · exact (hread t j ht.aligned hj).trans (if_neg (hnew t ht))
  · exact (hpd j hj).trans (if_neg hj2)
  · rw [if_neg (Nat.not_lt_zero _)]
    exact pageAt_of_absent (by rw [hv]; exact habsent)

theorem userPage_idx (hn : n < userPageCount) :
    pdeIdx (userElfBase + n * 0x1000) = userPdeIdx ∧ pteIdx (userElfBase + n * 0x1000) = n := by
  have hbase : userElfBase = 0x800000 := rfl
  have hcount : userPageCount = 512 := rfl
  have hidx : userPdeIdx = 2 := rfl
  unfold pdeIdx pteIdx
  omega

section

variable (h : UserSpace s₀ pd table page n s)
include h

theorem UserSpace.pd_mem : pd / 4096 * 4096 = pd ∧ pd / 4096 ∈ spaceFrames pd table page n := by
  have haligned := h.tables.dir_held.aligned
  have heq : pd / 4096 * 4096 = pd := by omega
  exact ⟨heq, .inl heq⟩

theorem UserSpace.kept_of_remaps {v : Option Nat} {addr : Nat} {s1 : Vm} (hmem : s1.mem = s.mem)
    (hgrew : s₀.pfa.Grew s1.pfa) (haddr : pdeIdx addr = userPdeIdx) (hmap : s1.Remaps pd addr v s')
    {t j : Nat} (ht : s₀.pfa.Held t) (hj : j < 1024) : entry s'.mem t j = entry s₀.mem t j := by
  obtain ⟨heq, hpd⟩ := h.pd_mem
  have hothers := hmap.others t j (hgrew.held ht) (heq ▸ h.ne_of_held ht hpd)
  rw [hmem, haddr] at hothers
  rw [hothers ?_ hj, h.kept t j ht hj]
  intro hodd
  rcases Nat.eq_zero_or_pos n with hzero | hpos
  · exact absurd (h.absent hzero) (by omega)
  rw [(h.present hpos).2]
  exact h.ne_of_held ht (.inr (.inl ⟨hpos, rfl⟩))

theorem UserSpace.alloc {i : Nat} (htook : s.pfa.Took i 1 s.allocFrame.2.pfa) :
    i ∉ spaceFrames pd table page n ∧
      s₀.pfa.TookSet {f | f ∈ spaceFrames pd table page n ∨ f = i} s.allocFrame.2.pfa ∧
      s.allocFrame.2.Tables pd := by
  obtain ⟨hnew, hset⟩ := h.took.took htook
  refine ⟨fun hi => hnew i hi ⟨le_rfl, by omega⟩, hset.congr fun f => ?_,
    h.tables.frame htook.grew fun _ _ => rfl⟩
  refine or_congr_right ?_
  omega

theorem UserSpace.step (hn : n < userPageCount) {i flags : Nat} (hi : s.allocFrame.1 = i * 4096)
    (htook : s.pfa.Took i 1 s.allocFrame.2.pfa)
    (hok : (s.allocFrame.2.mapPageToDir pd (userElfBase + n * 0x1000) s.allocFrame.1 flags).1 = true) :
    ∃ table', UserSpace s₀ pd table' (update page n i) (n + 1)
      (s.allocFrame.2.mapPageToDir pd (userElfBase + n * 0x1000) s.allocFrame.1 flags).2 := by
  obtain ⟨hpde, hpte⟩ := userPage_idx hn
  obtain ⟨hnew, hset, htables⟩ := h.alloc htook
  have hfits := htook.fits
  have hsmall := h.tables.total
  rcases @Vm.mapPageToDir_spec s.allocFrame.2 pd (userElfBase + n * 0x1000) s.allocFrame.1 flags
    htables (by omega) with ⟨-, hmap, htable⟩ | ⟨hno, -⟩
  swap
  · exact absurd (hok.symm.trans hno) (by decide)
  rw [hpde] at htable
  generalize (s.allocFrame.2.mapPageToDir pd (userElfBase + n * 0x1000) s.allocFrame.1 flags).2 = s'
    at hmap htable ⊢
  have hpages : ∀ f, (∃ j, j < n + 1 ∧ f = update page n i j) ↔
      (∃ j, j < n ∧ f = page j) ∨ f = i := by
    intro f
    constructor
    · rintro ⟨j, hj, rfl⟩
      rcases Nat.lt_succ_iff_lt_or_eq.mp hj with hlt | rfl
      · exact .inl ⟨j, hlt, update_of_ne (by omega) ..⟩
      · exact .inr (update_self ..)
    · rintro (⟨j, hj, rfl⟩ | rfl)
      · exact ⟨j, by omega, (update_of_ne (by omega) ..).symm⟩
      · exact ⟨n, by omega, by rw [update_self]⟩
  -- what does not depend on whether there was a table
  have hspace : ∀ table', s₀.pfa.TookSet (spaceFrames pd table' (update page n i) (n + 1))
      s'.pfa → entry s'.mem pd userPdeIdx % 2 = 1 →
      entry s'.mem pd userPdeIdx / 4096 * 4096 = table' * 4096 →
      i ≠ table' → (∀ j < n, page j ≠ table') →
      UserSpace s₀ pd table' (update page n i) (n + 1) s' := by
    intro table' htaken hodd htableAt hine hpagesne
    refine ⟨htaken, hmap.tables, hmap.kernelDir.trans h.kernelDir,
      fun t j ht hj => h.kept_of_remaps s.allocFrame_mem hset.grew hpde hmap ht hj, fun j hj hj2 => ?_,
      fun hzero => absurd hzero (Nat.succ_ne_zero n), fun _ => ⟨hodd, htableAt⟩, fun j hj => ?_,
      fun v hv => ?_⟩
    · rw [hmap.entries j hj fun hj2' => absurd (hj2'.trans hpde) hj2]
      exact h.shared j hj hj2
    · rcases Nat.lt_succ_iff_lt_or_eq.mp hj with hlt | rfl
      · rw [update_of_ne (by omega)]
        exact ⟨(h.apart j hlt).1, hpagesne j hlt⟩
      rw [update_self]
      exact ⟨fun heq => hnew (.inl heq), hine⟩
    · rw [hmap.page v, hi, Nat.mul_div_cancel i (by decide)]
      by_cases hvn : pteIdx v = n
      · rw [if_pos (pageNo_eq_iff.mpr ⟨hv.trans hpde.symm, hvn.trans hpte.symm⟩), if_pos (by omega),
          hvn, update_self]
      rw [if_neg fun heq => hvn ((pageNo_eq_iff.mp heq).2.trans hpte), update_of_ne hvn]
      refine (h.page v hv).trans ?_
      by_cases hlt : pteIdx v < n
      · rw [if_pos hlt, if_pos (by omega)]
      · rw [if_neg hlt, if_neg (by omega)]
  rcases Nat.eq_zero_or_pos n with hzero | hpos
  · -- the first page: a frame for the table is taken too
    obtain ⟨htsome, hpfa, hodd, htableAt⟩ := htable (h.absent hzero)
    obtain ⟨l, hl, hltook, -⟩ := Vm.allocFrame_spec htables.total htsome
    obtain ⟨hlnew, hset'⟩ := hset.took hltook
    refine ⟨l, hspace l ?_ hodd (htableAt.trans hl) ?_ fun j hj => absurd hj (by omega)⟩
    swap
    · rintro rfl
      exact hlnew i (.inr rfl) ⟨le_rfl, by omega⟩
    rw [hpfa]
    refine hset'.congr fun f => ?_
    show (f * 4096 = pd ∨ (0 < n + 1 ∧ f = l) ∨ _) ↔
      ((f * 4096 = pd ∨ (0 < n ∧ f = table) ∨ _) ∨ f = i) ∨ (l ≤ f ∧ f < l + 1)
    rw [hpages f]
    constructor
    · rintro (hf | ⟨-, hf⟩ | hf | hf)
      · exact .inl (.inl (.inl hf))
      · exact .inr (by omega)
      · exact .inl (.inl (.inr (.inr hf)))
      · exact .inl (.inr hf)
    · rintro (((hf | ⟨hpos, -⟩ | hf) | hf) | hf)
      · exact .inl hf
      · omega
      · exact .inr (.inr (.inl hf))
      · exact .inr (.inr (.inr hf))
      · exact .inr (.inl ⟨by omega, by omega⟩)
  obtain ⟨hodd, htableAt⟩ := h.present hpos
  have hsame := hmap.entries userPdeIdx (by decide) fun _ => hodd
  refine ⟨table, hspace table ?_ (by rw [hsame]; exact hodd) (by rw [hsame]; exact htableAt)
    (fun heq => hnew (.inr (.inl ⟨hpos, heq⟩))) fun j hj => (h.apart j hj).2⟩
  rw [hmap.allocates (by rw [hpde]; exact hodd)]
  refine hset.congr fun f => ?_
  show (f * 4096 = pd ∨ (0 < n + 1 ∧ f = table) ∨ _) ↔
    (f * 4096 = pd ∨ (0 < n ∧ f = table) ∨ _) ∨ f = i
  rw [hpages f]
  constructor
  · rintro (hf | ⟨-, hf⟩ | hf | hf)
    · exact .inl (.inl hf)
    · exact .inl (.inr (.inl ⟨hpos, hf⟩))
    · exact .inl (.inr (.inr hf))
    · exact .inr hf
  · rintro ((hf | ⟨-, hf⟩ | hf) | hf)
    · exact .inl hf
    · exact .inr (.inl ⟨by omega, hf⟩)
    · exact .inr (.inr (.inl hf))
    · exact .inr (.inr (.inr hf))

end

/-- What becomes of the frames when the loop fails: only `pd` had been free, and it is free again;
    or another frame that had been free is not. -/
def Dropped (p : Pfa) (pd : Nat) (q : Pfa) : Prop :=
  q.totalFrames = p.totalFrames ∧
    (((∀ f, f < p.totalFrames → p.testBit f = false → f * 4096 = pd) ∧
      ∀ f, f < p.totalFrames → q.testBit f = p.testBit f) ∨
    ∃ f, f < p.totalFrames ∧ f * 4096 ≠ pd ∧ p.testBit f = false ∧ q.testBit f = true)

theorem dropDir_gave (hpd : s.pfa.Held pd) (hpos : pd ≠ 0) (hsmall : s.pfa.totalFrames ≤ 2 ^ 18) :
    s.pfa.Gave (pd / 4096) 1 (dropDir s pd).pfa := by
  have haligned := hpd.aligned
  have hfits := hpd.fits
  have hword : (UInt32.ofNat pd).toNat = pd := toNat_ofNat_of_lt' (by
    show pd < 2 ^ 32
    omega)
  have hframe : frameOf (UInt32.ofNat pd) = pd / 4096 := by
    unfold frameOf
    rw [hword]
  have hgave := @Pfa.freeFrame_spec s.pfa (UInt32.ofNat pd) (by omega) (by omega)
  rw [hframe] at hgave
  exact hgave

theorem dropped_of_mem {F : Set Nat} {f : Nat} (hset : s₀.pfa.TookSet F s.pfa)
    (haligned : pd % 4096 = 0) (hgave : s.pfa.Gave (pd / 4096) 1 (dropDir s pd).pfa) (hf : f ∈ F)
    (hne : f * 4096 ≠ pd) :
    Dropped s₀.pfa pd (dropDir s pd).pfa := by
  have hlt := hset.fits f hf
  have htotal := hset.total
  refine ⟨hgave.total.trans htotal, .inr ⟨f, hlt, hne, hset.free f hf, ?_⟩⟩
  rw [hgave.bits f (by omega), if_neg (by omega)]
  exact (hset.bits f hlt).mpr (.inl hf)

/-- The loop over the user's pages makes the address space, or drops the directory. -/
theorem mapUserPages_spec (hzero : s₀.pfa.testBit 0 = true) (hpos : 0 < s₀.pfa.totalFrames)
    (hpd : pd ≠ 0) :
    ∀ (m n table : Nat) (page : Nat → Nat) (s : Vm), UserSpace s₀ pd table page n s →
      n + m = userPageCount →
      ((mapUserPages pd m (userElfBase + n * 0x1000) s).1 = none ∧ ∃ table' page',
        UserSpace s₀ pd table' page' userPageCount
          (mapUserPages pd m (userElfBase + n * 0x1000) s).2) ∨
      (∃ e, (mapUserPages pd m (userElfBase + n * 0x1000) s).1 = some e) ∧
        Dropped s₀.pfa pd (mapUserPages pd m (userElfBase + n * 0x1000) s).2.pfa
  | 0, n, table, page, s, h, hn => by
    obtain rfl : n = userPageCount := hn
    exact .inl ⟨rfl, table, page, h⟩
  | m + 1, n, table, page, s, h, hn => by
    have hsmall := h.tables.total
    have htotal := h.took.total
    have hheld := h.tables.dir_held
    have hzero' : s.pfa.testBit 0 = true := (h.took.bits 0 hpos).mpr (.inr hzero)
    unfold mapUserPages
    simp only
    by_cases hnone : s.allocFrame.1 = 0
    · -- no frame for the page
      rw [if_pos hnone]
      refine .inr ⟨⟨_, rfl⟩, ?_⟩
      obtain ⟨hsame, hall⟩ := Vm.allocFrame_none hsmall hzero' hnone
      have hgave := dropDir_gave hheld hpd hsmall
      rw [hsame]
      rcases Nat.eq_zero_or_pos n with hn0 | hn0
      · subst hn0
        have honly : ∀ f < s₀.pfa.totalFrames, s₀.pfa.testBit f = false → f * 4096 = pd := by
          intro f hf hfree
          rcases (h.took.bits f hf).mp (hall f (by omega)) with hmem | htaken
          · rcases hmem with hf | ⟨hlt, -⟩ | ⟨j, hlt, -⟩ <;> [exact hf; omega; omega]
          · exact absurd (htaken.symm.trans hfree) (by decide)
        refine ⟨hgave.total.trans htotal, .inl ⟨honly, fun f hf => ?_⟩⟩
        rw [hgave.bits f (by omega)]
        have haligned := hheld.aligned
        by_cases hfpd : f * 4096 = pd
        · rw [if_pos (by omega)]
          exact (h.took.free f (.inl hfpd)).symm
        rw [if_neg (by omega), hall f (by omega)]
        cases hbit : s₀.pfa.testBit f with
        | true => rfl
        | false => exact absurd (honly f hf hbit) hfpd
      exact dropped_of_mem h.took hheld.aligned hgave (.inr (.inr ⟨0, hn0, rfl⟩))
        (h.apart 0 hn0).1
    rw [if_neg hnone]
    obtain ⟨i, hi, htook, -⟩ := Vm.allocFrame_spec hsmall hnone
    cases hok : (s.allocFrame.2.mapPageToDir pd (userElfBase + n * 0x1000) s.allocFrame.1
        (pageWrite ||| pageUser)).1 with
    | false =>
      -- no frame for the table: the page's frame is lost
      rw [if_pos rfl]
      refine .inr ⟨⟨_, rfl⟩, ?_⟩
      obtain ⟨hnew, hset, htables⟩ := h.alloc htook
      have hfits := htook.fits
      rcases @Vm.mapPageToDir_spec s.allocFrame.2 pd (userElfBase + n * 0x1000)
        s.allocFrame.1 (pageWrite ||| pageUser) htables (by omega) with
        ⟨hyes, -⟩ | ⟨-, hstate, hnone', -⟩
      · exact absurd (hok.symm.trans hyes) (by decide)
      obtain ⟨hsame, -⟩ := Vm.allocFrame_none htables.total
        ((hset.bits 0 hpos).mpr (.inr hzero)) hnone'
      rw [hstate, hsame]
      exact dropped_of_mem hset hheld.aligned
        (dropDir_gave htables.dir_held hpd htables.total) (.inr rfl)
        fun heq => hnew (.inl heq)
    | true =>
      rw [if_neg (by decide)]
      obtain ⟨table', hstep⟩ := h.step (by omega) hi htook hok
      have hnext : userElfBase + n * 0x1000 + 0x1000 = userElfBase + (n + 1) * 0x1000 := by omega
      rw [hnext]
      exact mapUserPages_spec hzero hpos hpd m (n + 1) table' _ _ hstep (by omega)

theorem mapUserPages_done :
    ∀ (m n table : Nat) (page : Nat → Nat) (s : Vm) (q : Nat), UserSpace s₀ pd table page n s →
      n + m = userPageCount → s.pfa.FreeFrom q → 0 < q →
      q + m + (if n = 0 then 1 else 0) ≤ s.pfa.totalFrames →
      (mapUserPages pd m (userElfBase + n * 0x1000) s).1 = none ∧
        (mapUserPages pd m (userElfBase + n * 0x1000) s).2.pfa.totalFrames = s.pfa.totalFrames ∧
        ∃ q', q ≤ q' ∧ q' ≤ q + m + (if n = 0 then 1 else 0) ∧
          (mapUserPages pd m (userElfBase + n * 0x1000) s).2.pfa.FreeFrom q'
  | 0, n, table, page, s, q, _, _, hfree, _, _ => ⟨rfl, rfl, q, by omega, by omega, hfree⟩
  | m + 1, n, table, page, s, q, h, hn, hfree, hq, hroom => by
    have hlt : q < s.pfa.totalFrames := by
      split at hroom <;> omega
    obtain ⟨haddr, htotal, hfree1⟩ := Vm.allocFrame_freeFrom hfree hlt
    obtain ⟨i, hi, htook, -⟩ := Vm.allocFrame_spec hfree.total (by omega)
    obtain ⟨-, -, htables⟩ := h.alloc htook
    have hsmall := hfree.total
    have hpde := (userPage_idx (by omega : n < userPageCount)).1
    have hnext : userElfBase + n * 0x1000 + 0x1000 = userElfBase + (n + 1) * 0x1000 := by omega
    unfold mapUserPages
    simp only
    rw [if_neg (by omega), hnext]
    rcases Nat.eq_zero_or_pos n with hzero | hpos
    · -- the first page takes a frame for the table too
      rw [if_pos hzero] at hroom
      obtain ⟨haddr2, htotal2, hfree2⟩ := Vm.allocFrame_freeFrom hfree1 (by omega)
      rcases @Vm.mapPageToDir_spec s.allocFrame.2 pd (userElfBase + n * 0x1000) s.allocFrame.1
        (pageWrite ||| pageUser) htables (by omega) with ⟨hok, -, htable⟩ | ⟨-, -, hnone, -⟩
      · have habsent := h.absent hzero
        rw [hpde] at htable
        have hpfa := (htable habsent).2.1
        obtain ⟨table', hstep⟩ := h.step (by omega) hi htook hok
        obtain ⟨hdone, htotals, q', hlo, hhi, hfreeq⟩ := mapUserPages_done m (n + 1) table' _ _
          (q + 2) hstep (by omega) (hpfa ▸ hfree2) (by omega) (by
            rw [if_neg (by omega), hpfa, htotal2, htotal]
            omega)
        rw [if_neg (by omega)] at hhi
        rw [hok, if_neg (by decide), if_pos hzero]
        exact ⟨hdone, by rw [htotals, hpfa, htotal2, htotal], q', by omega, by omega, hfreeq⟩
      · omega
    rw [if_neg (by omega)] at hroom
    rcases @Vm.mapPageToDir_spec s.allocFrame.2 pd (userElfBase + n * 0x1000) s.allocFrame.1
      (pageWrite ||| pageUser) htables (by omega) with ⟨hok, hmap, -⟩ | ⟨-, -, -, habsent⟩
    · have hpfa := hmap.allocates (by rw [hpde]; exact (h.present hpos).1)
      obtain ⟨table', hstep⟩ := h.step (by omega) hi htook hok
      obtain ⟨hdone, htotals, q', hlo, hhi, hfreeq⟩ := mapUserPages_done m (n + 1) table' _ _
        (q + 1) hstep (by omega) (hpfa ▸ hfree1) (by omega) (by
          rw [if_neg (by omega), hpfa, htotal]
          omega)
      rw [if_neg (by omega)] at hhi
      rw [hok, if_neg (by decide), if_neg (by omega)]
      exact ⟨hdone, by rw [htotals, hpfa, htotal], q', by omega, by omega, hfreeq⟩
    rw [hpde] at habsent
    exact absurd (h.present hpos).1 (by
      show ¬ entry s.allocFrame.2.mem pd userPdeIdx % 2 = 1
      omega)

theorem mapUserPages_ok {q : Nat} (hk : s.Tables s.kernelDir) (hfree : s.pfa.FreeFrom q)
    (hq : 0 < q)
    (hroom : q + 514 ≤ s.pfa.totalFrames) :
    s.pageDirCreate.1 = s.allocFrame.1 ∧ s.allocFrame.1 ≠ 0 ∧
      (mapUserPages s.allocFrame.1 userPageCount userElfBase { s.pageDirCreate.2 with
        mem := setEntry s.pageDirCreate.2.mem s.allocFrame.1 userPdeIdx 0 }).1 = none ∧
      (mapUserPages s.allocFrame.1 userPageCount userElfBase { s.pageDirCreate.2 with
        mem := setEntry s.pageDirCreate.2.mem s.allocFrame.1 userPdeIdx 0 }).2.pfa.totalFrames
          = s.pfa.totalFrames ∧
      ∃ q', 0 < q' ∧ q' ≤ q + 514 ∧
        (mapUserPages s.allocFrame.1 userPageCount userElfBase { s.pageDirCreate.2 with
          mem := setEntry s.pageDirCreate.2.mem s.allocFrame.1 userPdeIdx 0 }).2.pfa.FreeFrom q' := by
  obtain ⟨haddr, htotal, hfree1⟩ := Vm.allocFrame_freeFrom hfree (by omega)
  have hpd : s.allocFrame.1 ≠ 0 := by omega
  obtain ⟨hfst, hspace⟩ := @userSpace_create s 0 (fun _ => 0) hk hpd
  have hcreate : s.pageDirCreate.2.pfa = s.allocFrame.2.pfa := by
    unfold Vm.pageDirCreate
    rw [if_neg hpd]
  obtain ⟨hdone, htotal2, q', hlo, hhi, hfree2⟩ := mapUserPages_done userPageCount 0 0 (fun _ => 0) _
    (q + 1) hspace rfl (hcreate.symm ▸ hfree1) (by omega) (by
      show q + 1 + 512 + 1 ≤ s.pageDirCreate.2.pfa.totalFrames
      rw [hcreate]
      omega)
  rw [Nat.zero_mul, Nat.add_zero] at hdone htotal2 hfree2
  rw [if_pos rfl] at hhi
  refine ⟨hfst, hpd, hdone, ?_, q', by omega, by omega, hfree2⟩
  rw [htotal2]
  rw [hcreate, htotal]

/-! ## Storing the program -/

/-- The memories differ in the user's frames only. -/
def OnlyPages (page : Nat → Nat) (m m' : Mem) : Prop :=
  ∀ a, (∀ j, j < userPageCount → a / 4096 ≠ page j) → m' a = m a

variable {m m' : Mem}

theorem OnlyPages.entry (h : OnlyPages page m m') {t j : Nat} (ht : t % 4096 = 0) (hj : j < 1024)
    (hne : ∀ j < userPageCount, page j * 4096 ≠ t) : entry m' t j = entry m t j := by
  refine load32_congr fun i hlo hhi => h i fun k hk heq => ?_
  have hpage := hne k hk
  omega

section

variable (h : UserSpace s₀ pd table page userPageCount s) (hm : OnlyPages page s.mem m)
include h hm

/-- While the program is stored, the user's addresses are mapped as before. -/
theorem UserSpace.pageAt_eq {v : Nat} (hv : pdeIdx v = userPdeIdx) :
    pageAt m pd v = if pteIdx v < userPageCount then some (page (pteIdx v) * 4096) else none := by
  obtain ⟨hodd, htable⟩ := h.present (by decide)
  have hpd : entry m pd userPdeIdx = entry s.mem pd userPdeIdx :=
    hm.entry h.tables.dir_held.aligned (by decide) fun j hj => (h.apart j hj).1
  have htab : entry m (table * 4096) (pteIdx v) = entry s.mem (table * 4096) (pteIdx v) := by
    refine hm.entry (Nat.mul_mod_left ..) (pteIdx_lt v) fun j hj heq => (h.apart j hj).2 ?_
    omega
  rw [← h.page v hv, pageAt_of_present (by rw [hv, hpd]; exact hodd),
    pageAt_of_present (by rw [hv]; exact hodd), hv, hpd, htable, htab]

theorem UserSpace.translate_user {st : Nat × UInt8} (hin : Image.InUserRange st) :
    pteIdx st.1 < userPageCount ∧
      translate m pd st.1 = some (page (pteIdx st.1) * 4096 + st.1 % 4096) := by
  obtain ⟨hlo, hhi⟩ := hin
  have hbase : userElfBase = 0x800000 := rfl
  have htop : userStackTop = 0xA00000 := rfl
  have hidx : pdeIdx st.1 = userPdeIdx ∧ pteIdx st.1 < userPageCount := by
    unfold pdeIdx pteIdx
    show _ = 2 ∧ _ < 512
    omega
  refine ⟨hidx.2, ?_⟩
  rw [translate_eq, h.pageAt_eq hm hidx.1, if_pos hidx.2]
  rfl

theorem UserSpace.storeByte {store : Nat × UInt8} (hin : Image.InUserRange store) :
    ∃ m', storeByte pd m store = some m' ∧ OnlyPages page s.mem m' := by
  obtain ⟨hpte, htranslate⟩ := h.translate_user hm hin
  unfold Elf.storeByte
  rw [htranslate]
  refine ⟨update m _ store.2, rfl, fun a ha => ?_⟩
  rw [update_of_ne, hm a ha]
  have hne := ha _ hpte
  omega

theorem UserSpace.storeByte_top (b : UInt8) : Elf.storeByte pd m (userStackTop, b) = none := by
  have hidx : pdeIdx userStackTop = userPdeIdx ∧ pteIdx userStackTop = userPageCount := by decide
  unfold Elf.storeByte
  rw [translate_eq, h.pageAt_eq hm hidx.1, hidx.2, if_neg (Nat.lt_irrefl _)]
  rfl

end

theorem UserSpace.storeBytes (h : UserSpace s₀ pd table page userPageCount s) :
    ∀ (stores : List (Nat × UInt8)) (m : Mem), OnlyPages page s.mem m →
      (∀ store ∈ stores, Image.InUserRange store) →
      ∃ m', storeBytes pd m stores = some m' ∧ OnlyPages page s.mem m'
  | [], m, hm, _ => ⟨m, rfl, hm⟩
  | store :: stores, m, hm, hin => by
    obtain ⟨m1, heq, hm1⟩ := h.storeByte hm (hin store mem_cons_self)
    obtain ⟨m2, heq2, hm2⟩ := h.storeBytes stores m1 hm1 fun st hst =>
      hin st (mem_cons_of_mem _ hst)
    refine ⟨m2, ?_, hm2⟩
    unfold Elf.storeBytes
    rw [foldlM_cons, heq]
    exact heq2

theorem storeBytes_append (dir : Nat) (m : Mem) (xs ys : List (Nat × UInt8)) :
    storeBytes dir m (xs ++ ys) = (storeBytes dir m xs).bind fun m' => storeBytes dir m' ys :=
  List.foldlM_append ..

section

variable (h : UserSpace s₀ pd table page userPageCount s)
include h

/-- Stores to consecutive addresses that do not fault stay in the user's memory: the first one
    outside it would be to the page after it. -/
theorem UserSpace.storeBytes_run {base : Nat} {g : Nat → UInt8} (hbase : userElfBase ≤ base)
    (htop : base ≤ userStackTop) (hm : OnlyPages page s.mem m) : ∀ (n : Nat) {m' : Mem},
      Elf.storeBytes pd m ((range n).map fun k => (u32 (base + k), g k)) = some m' →
      base + n ≤ userStackTop ∧ OnlyPages page s.mem m'
  | 0, m', hrun => by
    obtain rfl : m = m' := some.inj hrun
    exact ⟨htop, hm⟩
  | n + 1, m', hrun => by
    have htop' : userStackTop = 0xA00000 := rfl
    rw [range_succ, map_append, storeBytes_append] at hrun
    obtain ⟨m1, hrun1, hlast⟩ := bind_eq_some_iff.mp hrun
    obtain ⟨hle, hm1⟩ := UserSpace.storeBytes_run hbase htop hm n hrun1
    have haddr : u32 (base + n) = base + n := u32_of_lt (by omega)
    rw [map_singleton, haddr] at hlast
    by_cases hend : base + n = userStackTop
    · rw [hend] at hlast
      have hfault := h.storeByte_top hm1 (g n)
      unfold Elf.storeBytes at hlast
      rw [foldlM_cons, hfault] at hlast
      cases hlast
    obtain ⟨m2, heq, hm2⟩ := h.storeBytes [(base + n, g n)] m1 hm1 fun st hst => by
      rw [mem_singleton.mp hst]
      exact ⟨by show _ ≤ base + n; omega, by show base + n < _; omega⟩
    obtain rfl : m2 = m' := some.inj (heq.symm.trans hlast)
    exact ⟨by omega, hm2⟩

theorem UserSpace.segmentStores {f : Image} {i : Nat} (hcheck : f.checkSegment i = none)
    (hm : OnlyPages page s.mem m) (hrun : Elf.storeBytes pd m (f.segmentStores i) = some m') :
    (f.pType i = ptLoad → f.pVaddr i + f.pMemsz i < 2 ^ 32) ∧ OnlyPages page s.mem m' := by
  by_cases hload : f.pType i = ptLoad
  · obtain ⟨hbase, hlimit, -, hsizes⟩ := Image.segment_of_check hcheck hload
    have htop : userStackTop = 0xA00000 := rfl
    have hlim : userElfLimit = 0x900000 := rfl
    rw [Image.segmentStores, if_pos hload, storeBytes_append] at hrun
    obtain ⟨m1, hcopy, hfill⟩ := bind_eq_some_iff.mp hrun
    obtain ⟨hend, hm1⟩ := h.storeBytes_run hbase (by omega) hm _ hcopy
    have hwrap : u32 (f.pVaddr i + f.pFilesz i) = f.pVaddr i + f.pFilesz i := u32_of_lt (by omega)
    by_cases hbss : f.pFilesz i < f.pMemsz i
    · rw [if_pos hbss, hwrap] at hfill
      obtain ⟨hend2, hm2⟩ := h.storeBytes_run (by omega) hend hm1 _ hfill
      exact ⟨fun _ => by omega, hm2⟩
    rw [if_neg hbss] at hfill
    obtain rfl : m1 = m' := some.inj hfill
    exact ⟨fun _ => by omega, hm1⟩
  rw [Image.segmentStores, if_neg hload] at hrun
  obtain rfl : m = m' := some.inj hrun
  exact ⟨fun hload' => absurd hload' hload, hm⟩

theorem UserSpace.segments {f : Image} :
    ∀ (is : List Nat) (m m' : Mem), (∀ i ∈ is, f.checkSegment i = none) → OnlyPages page s.mem m →
      Elf.storeBytes pd m (is.flatMap f.segmentStores) = some m' →
      (∀ i ∈ is, f.pType i = ptLoad → f.pVaddr i + f.pMemsz i < 2 ^ 32) ∧ OnlyPages page s.mem m'
  | [], m, m', _, hm, hrun => by
    obtain rfl : m = m' := some.inj hrun
    exact ⟨fun i hi => absurd hi (not_mem_nil), hm⟩
  | i :: is, m, m', hcheck, hm, hrun => by
    rw [flatMap_cons, storeBytes_append] at hrun
    obtain ⟨m1, hfirst, hrest⟩ := bind_eq_some_iff.mp hrun
    obtain ⟨hi, hm1⟩ := h.segmentStores (hcheck i mem_cons_self) hm hfirst
    obtain ⟨his, hm'⟩ := UserSpace.segments is m1 m'
      (fun j hj => hcheck j (mem_cons_of_mem _ hj)) hm1 hrest
    refine ⟨fun j hj => ?_, hm'⟩
    rcases mem_cons.mp hj with rfl | hj
    · exact hi
    · exact his j hj

end

theorem setupStores_inUserRange {f : Image} (hvalid : f.validate = none)
    (hfits : ∀ i < f.ePhnum, f.pType i = ptLoad → f.pVaddr i + f.pMemsz i < 2 ^ 32) :
    ∀ store ∈ Elf.setupStores f, Image.InUserRange store := by
  intro store hstore
  rcases mem_append.mp hstore with hload | hrest
  · exact Image.loadStores_inUserRange hvalid hfits store hload
  have hall : ∀ st ∈ trampoline ++ stackWord, Image.InUserRange st := by
    unfold Image.InUserRange
    decide
  exact hall store hrest

theorem UserSpace.setupStores (h : UserSpace s₀ pd table page userPageCount s) {f : Image}
    (hvalid : f.validate = none) (hrun : Elf.storeBytes pd s.mem (setupStores f) = some m') :
    (∀ i < f.ePhnum, f.pType i = ptLoad → f.pVaddr i + f.pMemsz i < 2 ^ 32) ∧
      OnlyPages page s.mem m' := by
  rw [Elf.setupStores, storeBytes_append] at hrun
  obtain ⟨m1, hload, hrest⟩ := bind_eq_some_iff.mp hrun
  obtain ⟨hfits, hm1⟩ := h.segments (range f.ePhnum) s.mem m1
    (fun i hi => Image.checkSegment_of_validate hvalid (mem_range.mp hi))
    (fun _ _ => rfl) hload
  refine ⟨fun i hi => hfits i (mem_range.mpr hi), ?_⟩
  obtain ⟨m2, heq, hm2⟩ := h.storeBytes (trampoline ++ stackWord) m1 hm1 (by
    unfold Image.InUserRange
    decide)
  obtain rfl : m2 = m' := some.inj (heq.symm.trans hrest)
  exact hm2

end

end Noverix.Elf
