/-
  The end of a task that `elf_exec` started.

  `SYS_EXIT` and `task_kill` both free the directory, by comparing its entries
  with the kernel's, and the kernel stack.  Neither frees the frame of the task
  structure.  The comparison is of 32-bit words, in which the processor sets
  the Accessed bit when it walks through an entry: a shared entry in which one
  copy has the bit and the other has not is taken for the task's own, and the
  kernel's table is freed.
-/

import Noverix.Elf.Outcomes
import Noverix.Sched.Ending

namespace Noverix.Elf

open Lib Memory Sched

/-! ## Ending a task -/

section

variable {k k' : Kernel} {t : Tid} {pd st : Nat}

/-- The task ends: by its own `SYS_EXIT`, or by `task_kill`. -/
inductive TaskEnd (k : Kernel) (t : Tid) (k' : Kernel) : Prop where
  | exit (cpu : Cpu) (esp : UInt32) (hcurr : k.current cpu = t)
      (hexit : k.sysExit cpu = some (esp, k'))
  | kill (pid : UInt32) (hfound : k.firstOf (fun t => decide ((k.tasks t).pid = pid)) = some t)
      (hkill : k.taskKill pid = some (0, k'))

/-- The frames of the directory and of the kernel stack. -/
def endFrames (s : Vm) (pd st : Nat) : Set Nat :=
  {f | f ∈ s.dirFrames pd ∨ (st ≤ f ∧ f < st + 4)}

/-- A user task: it has a directory of its own and a kernel stack. -/
structure OwnSpace (k : Kernel) (t : Tid) (pd st : Nat) : Prop where
  pageDir : (k.tasks t).pageDir = pd
  aligned : pd % 4096 = 0
  small : pd < 2 ^ 32
  null : pd ≠ 0
  kernel : pd ≠ k.vm.kernelDir
  stack : (k.tasks t).kernelStackBase = st * 4096
  pos : 0 < st
  fits : st + 4 ≤ k.vm.pfa.totalFrames
  total : k.vm.pfa.totalFrames ≤ 2 ^ 18

theorem OwnSpace.hasStack (h : OwnSpace k t pd st) : HasStack k t st :=
  ⟨h.pageDir ▸ h.aligned, h.pageDir ▸ h.small, h.stack, h.pos, h.fits, h.total⟩

theorem OwnSpace.ownFrames (h : OwnSpace k t pd st) (f : Nat) :
    f ∈ endFrames k.vm pd st ↔ f ∈ k.ownFrames t := by
  refine or_congr ?_ (h.hasStack.mem_iff f).symm
  rw [h.pageDir]
  exact ⟨fun hf => ⟨h.null, h.kernel, hf⟩, fun hf => hf.2.2⟩

/-- Either way the frames of the directory and of the stack are given back, and no others. -/
theorem TaskEnd.gives (hend : TaskEnd k t k') (ht : t ≠ 0) (h : OwnSpace k t pd st) :
    k.vm.Gives (endFrames k.vm pd st) k'.vm := by
  suffices hgives : k.vm.Gives (k.ownFrames t) k'.vm from hgives.congr h.ownFrames
  cases hend with
  | exit cpu esp hcurr hexit =>
    subst hcurr
    rw [(sysExit_ends ht hexit).1]
    exact h.hasStack.release k.vm.kernelDir
  | kill pid hfound hkill =>
    unfold Kernel.taskKill at hkill
    split at hkill
    · exact absurd (Prod.mk.inj (some.inj hkill)).1 (by decide)
    rw [hfound] at hkill
    simp only at hkill
    rw [if_neg ht] at hkill
    split at hkill
    · exact absurd (Prod.mk.inj (some.inj hkill)).1 (by decide)
    obtain ⟨k₁, hunlink, heq⟩ := map_eq_some_iff.mp hkill
    rw [← (Prod.mk.inj heq).2]
    exact (killed_of_unlink hunlink).gives st h.hasStack

end

/-! ## A task's life -/

section

variable {k k₁ k₂ k₃ : Kernel} {cpu : Cpu} {f : Image} {t : Tid} {pd table i st : Nat}
  {page : Nat → Nat} {m m' : Mem}

/-- A page of a directory: the directory, or one of its tables. -/
def InDir (m : Mem) (dir a : Nat) : Prop :=
  a = dir ∨ ∃ l, l < 1024 ∧ entry m dir l % 2 = 1 ∧ a = entry m dir l / 4096 * 4096

/-- The entries of a directory and its tables differ in flags other than PRESENT only. -/
def SameTables (m m' : Mem) (dir : Nat) : Prop :=
  ∀ a, InDir m dir a → ∀ j, j < 1024 → entry m' a j / 4096 * 4096 = entry m a j / 4096 * 4096 ∧
    entry m' a j % 2 = entry m a j % 2

/-- From `k` to `k'`, task `t` keeps its directory and stack.  Anything may be stored outside the
    tables, and the processor may set flags in them. -/
structure Lives (k : Kernel) (t : Tid) (k' : Kernel) : Prop where
  kernelDir : k'.vm.kernelDir = k.vm.kernelDir
  total : k'.vm.pfa.totalFrames = k.vm.pfa.totalFrames
  pageDir : (k'.tasks t).pageDir = (k.tasks t).pageDir
  stack : (k'.tasks t).kernelStackBase = (k.tasks t).kernelStackBase
  tables : SameTables k.vm.mem k'.vm.mem (k.tasks t).pageDir
  kernelTables : SameTables k.vm.mem k'.vm.mem k.vm.kernelDir

/-- The processor sets the Accessed bit of an entry. -/
def accessedStep (e : Nat × Nat) (m : Mem) : Mem := setEntry m e.1 e.2 (entry m e.1 e.2 ||| 0x20)

/-- The entry is a present one of the task's or the kernel's directory. -/
def AccessedAllowed (pd kernelDir : Nat) (e : Nat × Nat) (m : Mem) : Prop :=
  (e.1 = pd ∨ e.1 = kernelDir) ∧ e.2 < 1024 ∧ entry m e.1 e.2 % 2 = 1

theorem samePages_of_accessed {kernelDir : Nat} (hpd : pd % 4096 = 0) (hdir : kernelDir % 4096 = 0)
    (h : Reach accessedStep (AccessedAllowed pd kernelDir) m m') : SamePages m m' := by
  refine h.invariant (SamePages m) (.refl m) ?_
  rintro ⟨dir, l⟩ m1 hm ⟨hin, hl, -⟩
  have haligned : dir % 4096 = 0 := by
    rcases hin with rfl | rfl
    · exact hpd
    · exact hdir
  exact hm.trans (samePages_setEntry haligned hl (by decide) (by decide))

theorem sameTables_of_samePages {dir : Nat} (hdir : dir % 4096 = 0) (h : SamePages m m') :
    SameTables m m' dir := by
  rintro a (rfl | ⟨l, -, -, rfl⟩) j hj
  · exact h _ j hdir hj
  · exact h _ j (Nat.mul_mod_left ..) hj

section

variable (h : Started k f pd table page i st t k₁)
include h

theorem ne_of_started {g a : Nat} (hg : g ∈ taskFrames pd table page i st)
    (ha : k.vm.pfa.testBit a = true) : g ≠ a := by
  rintro rfl
  exact absurd (ha.symm.trans (h.took.free g hg)) (by decide)

theorem mem_spaceFrames_pd :
    pd / 4096 ∈ spaceFrames pd table page userPageCount ∧ pd / 4096 * 4096 = pd := by
  have haligned := h.pageDir.2.1
  have heq : pd / 4096 * 4096 = pd := by omega
  exact ⟨.inl heq, heq⟩

section

variable (hk : k.vm.Tables k.vm.kernelDir) (hlives : Lives k₁ t k₂)
include hk hlives

theorem ownSpace_of_lives : OwnSpace k₂ t pd st := by
  obtain ⟨hpd, haligned, hnull⟩ := h.pageDir
  obtain ⟨hpdmem, hpd4096⟩ := mem_spaceFrames_pd h
  have htotal := h.took.total
  have hsmall := hk.total
  have hpdfits := h.took.fits _ (.inl hpdmem)
  have hstfits := h.took.fits (st + 3) (.inr (.inr ⟨by omega, by omega⟩))
  refine ⟨hlives.pageDir.trans hpd, haligned, by omega, hnull, ?_, hlives.stack.trans h.stack.1,
    h.stack.2, ?_, ?_⟩
  · intro heq
    rw [hlives.kernelDir, h.kernelDir] at heq
    exact ne_of_started h (.inl hpdmem) hk.dir_held.taken (by rw [heq])
  · rw [hlives.total, htotal]
    omega
  · rw [hlives.total, htotal]
    exact hsmall

/-- The entries above the user's are still those of the kernel, up to flags. -/
theorem shared_of_lives {l : Nat} (hlo : 2 < l) (hl : l < 1024) :
    (entry k₂.vm.mem pd l / 4096 * 4096 = entry k.vm.mem k.vm.kernelDir l / 4096 * 4096 ∧
      entry k₂.vm.mem pd l % 2 = entry k.vm.mem k.vm.kernelDir l % 2) ∧
    entry k₂.vm.mem k₂.vm.kernelDir l / 4096 * 4096
      = entry k.vm.mem k.vm.kernelDir l / 4096 * 4096 ∧
    entry k₂.vm.mem k₂.vm.kernelDir l % 2 = entry k.vm.mem k.vm.kernelDir l % 2 := by
  have hown := hlives.tables _ (.inl rfl) l hl
  have hkernel := hlives.kernelTables _ (.inl rfl) l hl
  rw [h.pageDir.1, h.shared l hlo hl] at hown
  rw [h.kernelDir, h.kept _ l hk.dir_held hl] at hkernel
  rw [hlives.kernelDir, h.kernelDir]
  exact ⟨hown, hkernel⟩

theorem own_of_lives :
    entry k₂.vm.mem pd userPdeIdx ≠ entry k₂.vm.mem k₂.vm.kernelDir userPdeIdx ∧
      entry k₂.vm.mem pd userPdeIdx % 2 = 1 ∧
      entry k₂.vm.mem pd userPdeIdx / 4096 * 4096 = table * 4096 := by
  obtain ⟨hodd, htable⟩ := h.own
  obtain ⟨hpage, hparity⟩ := hlives.tables _ (.inl rfl) userPdeIdx (by decide)
  obtain ⟨hkpage, hkparity⟩ := hlives.kernelTables _ (.inl rfl) userPdeIdx (by decide)
  rw [h.pageDir.1] at hpage hparity
  rw [h.kernelDir, h.kept _ userPdeIdx hk.dir_held (by decide)] at hkpage hkparity
  refine ⟨fun heq => ?_, hparity.trans hodd, hpage.trans htable⟩
  rw [hlives.kernelDir, h.kernelDir] at heq
  rw [heq] at hpage hparity
  have hheld := hk.held userPdeIdx (by decide) (hkparity.symm.trans (hparity.trans hodd))
  rw [← hkpage, hpage, htable] at hheld
  have htaken := hheld.taken
  rw [Nat.mul_div_cancel table (by decide)] at htaken
  exact ne_of_started h (.inl (.inr (.inl ⟨by decide, rfl⟩))) htaken rfl

end

theorem mem_ownTable_iff (hzero : k.vm.pfa.testBit 0 = true) (hlives : Lives k₁ t k₂) (g : Nat) :
    g ∈ Vm.tableFrames k₂.vm.mem (table * 4096) ↔
      g = table ∨ ∃ j, j < userPageCount ∧ g = page j := by
  obtain ⟨hodd, htable⟩ := h.own
  have hin : InDir k₁.vm.mem (k₁.tasks t).pageDir (table * 4096) := by
    rw [h.pageDir.1]
    exact .inr ⟨userPdeIdx, by decide, hodd, htable.symm⟩
  have hread : ∀ j < 1024, (entry k₂.vm.mem (table * 4096) j % 2 = 1 ↔ j < userPageCount) ∧
      (j < userPageCount → entry k₂.vm.mem (table * 4096) j / 4096 * 4096 = page j * 4096) := by
    intro j hj
    obtain ⟨hpage, hparity⟩ := hlives.tables _ hin j hj
    have hpages := h.pages j hj
    rw [hpage, hparity]
    unfold pageOf at hpages
    by_cases hlt : j < userPageCount
    · rw [if_pos hlt] at hpages
      split at hpages
      · cases hpages
      · exact ⟨iff_of_true (by omega) hlt, fun _ => some.inj hpages⟩
    rw [if_neg hlt] at hpages
    split at hpages
    · exact ⟨iff_of_false (by omega) hlt, fun hj => absurd hj hlt⟩
    · cases hpages
  constructor
  · rintro ⟨-, heq | ⟨j, hj, hpresent, heq⟩⟩
    · exact .inl (by omega)
    · have hlt := (hread j hj).1.mp hpresent
      have hpage := (hread j hj).2 hlt
      exact .inr ⟨j, hlt, by omega⟩
  · rintro (rfl | ⟨j, hj, rfl⟩)
    · exact ⟨ne_of_started h (.inl (.inr (.inl ⟨by decide, rfl⟩))) hzero, .inl rfl⟩
    · have hj' : j < 1024 := Nat.lt_trans hj (by decide)
      exact ⟨ne_of_started h (.inl (.inr (.inr ⟨j, hj, rfl⟩))) hzero,
        .inr ⟨j, hj', (hread j hj').1.mpr hj, ((hread j hj').2 hj).symm⟩⟩

/-- What is given back at the end of the task: its own frames but for the task structure, and the
    kernel's tables whose entries differ in some flag. -/
theorem mem_endFrames_iff (hk : k.vm.Tables k.vm.kernelDir) (hzero : k.vm.pfa.testBit 0 = true)
    (hlives : Lives k₁ t k₂) (g : Nat) : g ∈ endFrames k₂.vm pd st ↔
      (g ∈ taskFrames pd table page i st ∧ g ≠ i) ∨
      ∃ l, 2 < l ∧ l < 1024 ∧ entry k₂.vm.mem pd l ≠ entry k₂.vm.mem k₂.vm.kernelDir l ∧
        entry k₂.vm.mem pd l % 2 = 1 ∧
        g ∈ Vm.tableFrames k₂.vm.mem (entry k₂.vm.mem pd l / 4096 * 4096) := by
  obtain ⟨hdiffer, hodd, htable⟩ := own_of_lives h hk hlives
  have hown := mem_ownTable_iff h hzero hlives g
  obtain ⟨hifresh, histack⟩ := h.fresh
  have hspace : g ∈ spaceFrames pd table page userPageCount → g ≠ i := by
    rintro hg rfl
    exact hifresh hg
  constructor
  · rintro ((⟨-, hpd⟩ | ⟨l, hl, hne, hpresent, hmem⟩) | hstack)
    · exact .inl ⟨.inl (.inl hpd), hspace (.inl hpd)⟩
    · rcases Nat.lt_trichotomy l 2 with hlow | rfl | hhigh
      · -- the entries below the user's are cleared
        obtain ⟨h0, h1⟩ := h.cleared
        have hparity := (hlives.tables _ (.inl rfl) l hl).2
        rw [h.pageDir.1] at hparity
        rcases (by omega : l = 0 ∨ l = 1) with rfl | rfl
        · rw [h0] at hparity
          omega
        rw [h1] at hparity
        omega
      · rw [show (2 : Nat) = userPdeIdx from rfl, htable] at hmem
        have hin : g ∈ spaceFrames pd table page userPageCount :=
          (hown.mp hmem).elim (fun heq => .inr (.inl ⟨by decide, heq⟩)) fun heq => .inr (.inr heq)
        exact .inl ⟨.inl hin, hspace hin⟩
      · exact .inr ⟨l, hhigh, hl, hne, hpresent, hmem⟩
    · exact .inl ⟨.inr (.inr hstack), fun heq => histack (heq ▸ hstack)⟩
  · rintro (⟨hg, hne⟩ | ⟨l, -, hl, hentry⟩)
    · rcases hg with (hpd | hrest) | rfl | hstack
      · exact .inl (.inl ⟨ne_of_started h (.inl (.inl hpd)) hzero, hpd⟩)
      · refine .inl (.inr ⟨userPdeIdx, by decide, hdiffer, hodd, ?_⟩)
        rw [htable]
        exact hown.mpr (hrest.imp_left And.right)
      · exact absurd rfl hne
      · exact .inr hstack
    · exact .inl (.inr ⟨l, hl, hentry⟩)

end

/-- No table of the kernel is at address 0, where `free_frame` would not free it. -/
def NoNullTable (s : Vm) : Prop :=
  ∀ l, l < 1024 → entry s.mem s.kernelDir l % 2 = 1 → entry s.mem s.kernelDir l / 4096 * 4096 ≠ 0

section

variable (h : Started k f pd table page i st t k₁) (hk : k.vm.Tables k.vm.kernelDir)
  (hzero : k.vm.pfa.testBit 0 = true) (hnull : NoNullTable k.vm) (hlives : Lives k₁ t k₂)
include h hk hzero hnull hlives

theorem kernelTable_ended {l : Nat} (hlo : 2 < l) (hl : l < 1024)
    (hne : entry k₂.vm.mem pd l ≠ entry k₂.vm.mem k₂.vm.kernelDir l)
    (hodd : entry k₂.vm.mem pd l % 2 = 1) :
    k.vm.pfa.Held (entry k₂.vm.mem pd l / 4096 * 4096) ∧
      entry k₂.vm.mem pd l / 4096 ∈ endFrames k₂.vm pd st ∧
      entry k₂.vm.mem pd l / 4096 ∈
        Vm.tableFrames k₂.vm.mem (entry k₂.vm.mem pd l / 4096 * 4096) := by
  obtain ⟨⟨hpage, hparity⟩, -⟩ := shared_of_lives h hk hlives hlo hl
  have hpos : entry k₂.vm.mem pd l / 4096 ≠ 0 := by
    intro heq
    rw [heq, Nat.zero_mul] at hpage
    exact hnull l hl (hparity.symm.trans hodd) hpage.symm
  have hmem : entry k₂.vm.mem pd l / 4096 ∈
      Vm.tableFrames k₂.vm.mem (entry k₂.vm.mem pd l / 4096 * 4096) := ⟨hpos, .inl rfl⟩
  refine ⟨?_, (mem_endFrames_iff h hk hzero hlives _).mpr (.inr ⟨l, hlo, hl, hne, hodd, hmem⟩), hmem⟩
  rw [hpage]
  exact hk.held l hl (hparity.symm.trans hodd)

/-- The frame of the task structure is lost, or a table of the kernel's is free. -/
theorem frames_ne_of_ended (hpfa : k₂.vm.pfa = k₁.vm.pfa) (hend : TaskEnd k₂ t k₃) :
    k₃.vm.pfa.freeFrameSet ≠ k.vm.pfa.freeFrameSet := by
  intro hsame
  have hgives := (hend.gives h.addr.2 (ownSpace_of_lives h hk hlives)).pfa
  have htotal := h.took.total
  rw [hpfa] at hgives
  have hi : i ∈ taskFrames pd table page i st := .inr (.inl rfl)
  have hifits := h.took.fits i hi
  -- the frame of the structure was free, so it has to be given back
  have hifree : i ∈ k₃.vm.pfa.freeFrameSet := by
    rw [hsame]
    exact ⟨hifits, h.took.free i hi⟩
  have hiend : i ∈ endFrames k₂.vm pd st := by
    by_contra hout
    have htaken := (hgives.bits i (by omega)).mpr ⟨(h.took.bits i hifits).mpr (.inl hi), hout⟩
    exact absurd (htaken.symm.trans hifree.2) (by decide)
  rcases (mem_endFrames_iff h hk hzero hlives i).mp hiend with ⟨-, hne⟩ | ⟨l, hlo, hl, hne, hodd, -⟩
  · exact hne rfl
  obtain ⟨hheld, hfreed, -⟩ := kernelTable_ended h hk hzero hnull hlives hlo hl hne hodd
  have hfits := hheld.fits
  have htaken := hheld.taken
  rw [Nat.mul_div_cancel _ (by decide)] at hfits htaken
  have hfree : entry k₂.vm.mem pd l / 4096 ∈ k₃.vm.pfa.freeFrameSet := by
    refine ⟨by rw [hgives.total, htotal]; exact hfits, ?_⟩
    rw [Bool.eq_false_iff]
    exact fun hbit => ((hgives.bits _ (by omega)).mp hbit).2 hfreed
  rw [hsame] at hfree
  exact absurd (htaken.symm.trans hfree.2) (by decide)

end

end

/-! ## The ends of a task -/

section

variable {k k₁ k₂ k₃ : Kernel} {cpu : Cpu} {f : Image} {t : Tid}

/-- If nothing else takes or frees frames from the call of `elf_exec` to the end of the task, the
    free frames at the end are never those of the start.  After `SYS_EXIT` the task is also still in
    the ring. -/
theorem taskEnd_not_restored (hk : k.vm.Tables k.vm.kernelDir) (hzero : k.vm.pfa.testBit 0 = true)
    (hnull : NoNullTable k.vm) (h : elfExec k cpu f = some (.ok t, k₁)) (hlives : Lives k₁ t k₂)
    (hpfa : k₂.vm.pfa = k₁.vm.pfa) (hend : TaskEnd k₂ t k₃) :
    k₃.vm.pfa.freeFrameSet ≠ k.vm.pfa.freeFrameSet ∧
      ∀ cpu esp, k₂.current cpu = t → k₂.sysExit cpu = some (esp, k₃) → OnRing k₂ t → OnRing k₃ t := by
  obtain ⟨pd, table, page, i, st, hstarted⟩ := started_of_elfExec hk hzero h
  refine ⟨frames_ne_of_ended hstarted hk hzero hnull hlives hpfa hend, ?_⟩
  rintro cpu esp rfl hexit ⟨hhead, n, hn⟩
  obtain ⟨-, hnext, hhead'⟩ := sysExit_ends hstarted.addr.2 hexit
  refine ⟨hhead' ▸ hhead, n, ?_⟩
  rw [hnext, hhead']
  exact hn

/-- A frame that was taken is free. -/
def FreedFrame (s s' : Vm) (g : Nat) : Prop :=
  g < s.pfa.totalFrames ∧ s.pfa.testBit g = true ∧ s'.pfa.testBit g = false

/-- A frame that holds a table of the kernel's directory, or that such a table maps. -/
def KernelFrame (s : Vm) (g : Nat) : Prop :=
  ∃ l, l < 1024 ∧ entry s.mem s.kernelDir l % 2 = 1 ∧
    g ∈ Vm.tableFrames s.mem (entry s.mem s.kernelDir l / 4096 * 4096)

/-- A frame that `elf_exec` took. -/
def OwnedFrame (k k₁ : Kernel) (g : Nat) : Prop :=
  g ∈ k.vm.pfa.freeFrameSet ∧ g ∉ k₁.vm.pfa.freeFrameSet

variable {page : Nat → Nat}

theorem kernelTable_freed {pd table i st l : Nat}
    (h : Started k f pd table page i st t k₁) (hk : k.vm.Tables k.vm.kernelDir)
    (hzero : k.vm.pfa.testBit 0 = true) (hnull : NoNullTable k.vm) (hlives : Lives k₁ t k₂)
    (htables : k₂.vm.Tables k₂.vm.kernelDir) (hend : TaskEnd k₂ t k₃) (hlo : 2 < l) (hl : l < 1024)
    (hne : entry k₂.vm.mem pd l ≠ entry k₂.vm.mem k₂.vm.kernelDir l)
    (hodd : entry k₂.vm.mem pd l % 2 = 1) :
    ∃ g, FreedFrame k₂.vm k₃.vm g ∧ KernelFrame k₂.vm g ∧ ¬ OwnedFrame k k₁ g := by
  have hgives := (hend.gives h.addr.2 (ownSpace_of_lives h hk hlives)).pfa
  obtain ⟨⟨hpage, hparity⟩, hkpage, hkparity⟩ := shared_of_lives h hk hlives hlo hl
  obtain ⟨hheld, hfreed, hmem⟩ := kernelTable_ended h hk hzero hnull hlives hlo hl hne hodd
  have hkodd := hkparity.trans (hparity.symm.trans hodd)
  have hheld2 := htables.held l hl hkodd
  rw [hkpage, ← hpage] at hheld2
  have hfits := hheld2.fits
  have htaken := hheld2.taken
  rw [Nat.mul_div_cancel _ (by decide)] at hfits htaken
  refine ⟨entry k₂.vm.mem pd l / 4096, ⟨hfits, htaken, ?_⟩, ⟨l, hl, hkodd, ?_⟩, ?_⟩
  · rw [Bool.eq_false_iff]
    exact fun hbit => ((hgives.bits _ hfits).mp hbit).2 hfreed
  · rw [hkpage, ← hpage]
    exact hmem
  · rintro ⟨hfree, -⟩
    have hbefore := hheld.taken
    rw [Nat.mul_div_cancel _ (by decide)] at hbefore
    exact absurd (hbefore.symm.trans hfree.2) (by decide)

/-- At the end of the task none of the kernel's frames is freed but those that `elf_exec` took iff
    every present entry shared with the kernel's directory is still the same word in both. -/
theorem taskEnd_owned_iff (hk : k.vm.Tables k.vm.kernelDir) (hzero : k.vm.pfa.testBit 0 = true)
    (hnull : NoNullTable k.vm) (h : elfExec k cpu f = some (.ok t, k₁)) (hlives : Lives k₁ t k₂)
    (htables : k₂.vm.Tables k₂.vm.kernelDir) (hend : TaskEnd k₂ t k₃) :
    (∀ g, FreedFrame k₂.vm k₃.vm g → KernelFrame k₂.vm g → OwnedFrame k k₁ g) ↔
      ∀ l, 2 < l → l < 1024 → entry k₂.vm.mem (k₂.tasks t).pageDir l % 2 = 1 →
        entry k₂.vm.mem (k₂.tasks t).pageDir l = entry k₂.vm.mem k₂.vm.kernelDir l := by
  obtain ⟨pd, table, page, i, st, hstarted⟩ := started_of_elfExec hk hzero h
  rw [hlives.pageDir, hstarted.pageDir.1]
  constructor
  · intro hall l hlo hl hodd
    by_contra hne
    obtain ⟨g, hfreed, hkernel, howned⟩ :=
      kernelTable_freed hstarted hk hzero hnull hlives htables hend hlo hl hne hodd
    exact howned (hall g hfreed hkernel)
  · rintro hsame g ⟨hfits, htaken, hfree⟩ -
    have hgives := (hend.gives hstarted.addr.2 (ownSpace_of_lives hstarted hk hlives)).pfa
    have hin : g ∈ endFrames k₂.vm pd st := by
      by_contra hout
      exact absurd (((hgives.bits g hfits).mpr ⟨htaken, hout⟩).symm.trans hfree) (by decide)
    rcases (mem_endFrames_iff hstarted hk hzero hlives g).mp hin with
      ⟨hown, -⟩ | ⟨l, hlo, hl, hne, hodd, -⟩
    · have hgfits := hstarted.took.fits g hown
      refine ⟨⟨hgfits, hstarted.took.free g hown⟩, fun hfree₁ => ?_⟩
      have hbit := (hstarted.took.bits g hgfits).mpr (.inl hown)
      exact absurd (hbit.symm.trans hfree₁.2) (by decide)
    · exact absurd (hsame l hlo hl hodd) hne

/-! ### On the machine with 16 MB -/

/-- With the memory `mem`, task `t` is the only one in the ring, and runs on CPU 0. -/
def aloneOn (k : Kernel) (t : Tid) (mem : Mem) : Kernel :=
  { k.setTask t fun task => { task with state := .running, cpuAssigned := some 0, next := t } with
    vm := { k.vm with mem := mem }
    readyHead := t
    current := fun cpu => if cpu = 0 then t else 0 }

theorem aloneOn_task (k : Kernel) (t : Tid) (mem : Mem) : (aloneOn k t mem).tasks t
    = { k.tasks t with state := .running, cpuAssigned := some 0, next := t } := by
  simp only [aloneOn]
  exact setTask_self

theorem oneCpu_aloneOn (ht : t ≠ 0) (mem : Mem) : OneCpu (aloneOn k t mem) [t] := by
  have htask := aloneOn_task k t mem
  refine ⟨ring_cons (List.nodup_singleton t) ⟨congrArg Task.next htask, trivial⟩, ?_,
    .inl (mem_singleton.mpr rfl), fun cpu hcpu => ?_⟩
  · rw [mem_singleton]
    exact ht.symm
  · have hcurr : (aloneOn k t mem).current cpu = if cpu = 0 then t else 0 := rfl
    rw [hcurr] at hcpu ⊢
    by_cases h0 : cpu = 0
    · subst h0
      rw [if_pos rfl, htask]
      exact ⟨mem_singleton.mpr rfl, rfl, rfl⟩
    · exact absurd (if_neg h0) hcpu

theorem lives_aloneOn {pd table i st : Nat} {mem : Mem}
    (h : Started k f pd table page i st t k₁) (hk : k.vm.Tables k.vm.kernelDir)
    (hrun : Reach accessedStep (AccessedAllowed pd k.vm.kernelDir) k₁.vm.mem mem) :
    Lives k₁ t (aloneOn k₁ t mem) ∧
      (aloneOn k₁ t mem).vm.Tables (aloneOn k₁ t mem).vm.kernelDir := by
  have hdir := hk.dir_held.aligned
  have hpages := samePages_of_accessed h.pageDir.2.1 hdir hrun
  have htask := aloneOn_task k₁ t mem
  have htables : k₁.vm.Tables k.vm.kernelDir :=
    hk.frame h.took.grew fun l hl => h.kept _ l hk.dir_held hl
  refine ⟨⟨rfl, rfl, ?_, ?_, ?_, ?_⟩, ?_⟩
  · rw [htask]
  · rw [htask]
  · rw [h.pageDir.1]
    exact sameTables_of_samePages h.pageDir.2.1 hpages
  · rw [h.kernelDir]
    exact sameTables_of_samePages hdir hpages
  · show (aloneOn k₁ t mem).vm.Tables k₁.vm.kernelDir
    rw [h.kernelDir]
    exact htables.samePages rfl hpages

theorem machine16_plainEntries : machine16.vm.PlainEntries := by
  obtain ⟨hdone, -, -, htotal⟩ := boot16_initPaging
  rw [machine16_vm]
  exact Vm.plainEntries_initPaging (by rw [htotal]; decide) hdone

theorem noNullTable_of_plain {s : Vm} (h : s.PlainEntries) : NoNullTable s := by
  intro l hl hodd
  obtain ⟨a, hne, haligned, hlt, heq⟩ := h l hl hodd
  rw [heq, (dirEntry_spec a 0 haligned hlt).1]
  exact hne

theorem machine16_exits : ∃ pd table page i st t k₁ k₃,
    elfExec machine16 0 (Image.oneSegment [0x10, 0, 0, 0]) = some (.ok t, k₁) ∧
      Started machine16 (Image.oneSegment [0x10, 0, 0, 0]) pd table page i st t k₁ ∧
      Lives k₁ t (aloneOn k₁ t k₁.vm.mem) ∧
      (aloneOn k₁ t k₁.vm.mem).vm.Tables (aloneOn k₁ t k₁.vm.mem).vm.kernelDir ∧
      TaskEnd (aloneOn k₁ t k₁.vm.mem) t k₃ := by
  obtain ⟨hk, -, -⟩ := machine16_spec
  obtain ⟨t, k₁, hok⟩ := machine16_elfExec
  obtain ⟨pd, table, page, i, st, hstarted⟩ := started_of_elfExec hk machine16_zero hok
  obtain ⟨hlives, htables⟩ := lives_aloneOn hstarted hk .start
  obtain ⟨esp, k₃, hexit, -⟩ := sysExit_keeps (@oneCpu_aloneOn k₁ t hstarted.addr.2 k₁.vm.mem) 0
  exact ⟨pd, table, page, i, st, t, k₁, k₃, hok, hstarted, hlives, htables, .exit 0 esp rfl hexit⟩

theorem taskEnd_not_restored_machine16 : ∃ t k₁ k₃,
    elfExec machine16 0 (Image.oneSegment [0x10, 0, 0, 0]) = some (.ok t, k₁) ∧
      TaskEnd (aloneOn k₁ t k₁.vm.mem) t k₃ ∧
      k₃.vm.pfa.freeFrameSet ≠ machine16.vm.pfa.freeFrameSet ∧
      ∀ cpu esp, (aloneOn k₁ t k₁.vm.mem).current cpu = t →
        (aloneOn k₁ t k₁.vm.mem).sysExit cpu = some (esp, k₃) →
        OnRing (aloneOn k₁ t k₁.vm.mem) t → OnRing k₃ t := by
  obtain ⟨pd, table, page, i, st, t, k₁, k₃, hok, hstarted, hlives, -, hend⟩ := machine16_exits
  exact ⟨t, k₁, k₃, hok, hend,
    taskEnd_not_restored machine16_spec.1 machine16_zero
      (noNullTable_of_plain machine16_plainEntries) hok hlives rfl hend⟩

theorem machine16_loses_task : ∃ t k₁ k₃,
    elfExec machine16 0 (Image.oneSegment [0x10, 0, 0, 0]) = some (.ok t, k₁) ∧
      TaskEnd (aloneOn k₁ t k₁.vm.mem) t k₃ ∧
      ¬ (k₃.vm.pfa.freeFrameSet = machine16.vm.pfa.freeFrameSet ∧ ¬ OnRing k₃ t) := by
  obtain ⟨pd, table, page, i, st, t, k₁, k₃, hok, hstarted, hlives, -, hend⟩ := machine16_exits
  have hlost := frames_ne_of_ended hstarted machine16_spec.1 machine16_zero
    (noNullTable_of_plain machine16_plainEntries) hlives rfl hend
  exact ⟨t, k₁, k₃, hok, hend, fun hrestored => hlost hrestored.1⟩

/-- No entry has been accessed. -/
theorem taskEnd_owned_iff_machine16 : ∃ t k₁ k₃,
    elfExec machine16 0 (Image.oneSegment [0x10, 0, 0, 0]) = some (.ok t, k₁) ∧
      TaskEnd (aloneOn k₁ t k₁.vm.mem) t k₃ ∧
      ((∀ g, FreedFrame (aloneOn k₁ t k₁.vm.mem).vm k₃.vm g →
          KernelFrame (aloneOn k₁ t k₁.vm.mem).vm g → OwnedFrame machine16 k₁ g) ↔
        ∀ l, 2 < l → l < 1024 →
          entry (aloneOn k₁ t k₁.vm.mem).vm.mem ((aloneOn k₁ t k₁.vm.mem).tasks t).pageDir l % 2 = 1 →
          entry (aloneOn k₁ t k₁.vm.mem).vm.mem ((aloneOn k₁ t k₁.vm.mem).tasks t).pageDir l =
            entry (aloneOn k₁ t k₁.vm.mem).vm.mem (aloneOn k₁ t k₁.vm.mem).vm.kernelDir l) := by
  obtain ⟨pd, table, page, i, st, t, k₁, k₃, hok, hstarted, hlives, htables, hend⟩ := machine16_exits
  exact ⟨t, k₁, k₃, hok, hend, taskEnd_owned_iff machine16_spec.1 machine16_zero
    (noNullTable_of_plain machine16_plainEntries) hok hlives htables hend⟩

theorem accessed_ne {a : Nat} (ha : a % 4096 = 0) : dirEntry a 0 ||| 0x20 ≠ dirEntry a 0 := by
  have hdir : dirEntry a 0 = a ||| 3 := by
    unfold dirEntry
    rw [Nat.zero_and, Nat.or_zero, Nat.or_assoc]
    rfl
  have hflags : (a ||| 3) % 2 ^ 12 = 3 := (page_or_flags a ha (by decide : 3 < 4096)).2
  have hmod : (dirEntry a 0 ||| 0x20) % 2 ^ 12 = dirEntry a 0 % 2 ^ 12 ||| 0x20 := by
    rw [Nat.or_mod_two_pow]
  intro heq
  rw [heq, hdir, hflags] at hmod
  contradiction

/-- The processor sets the Accessed bit of the entry for 12 MB in the task's directory, and the
    task exits. -/
theorem machine16_frees_table : ∃ t k₁ mem k₃,
    elfExec machine16 0 (Image.oneSegment [0x10, 0, 0, 0]) = some (.ok t, k₁) ∧
      Reach accessedStep (AccessedAllowed (k₁.tasks t).pageDir machine16.vm.kernelDir) k₁.vm.mem
        mem ∧
      TaskEnd (aloneOn k₁ t mem) t k₃ ∧
      ∃ g, FreedFrame (aloneOn k₁ t mem).vm k₃.vm g ∧ KernelFrame (aloneOn k₁ t mem).vm g ∧
        ¬ OwnedFrame machine16 k₁ g := by
  obtain ⟨hk, -, -⟩ := machine16_spec
  obtain ⟨t, k₁, hok⟩ := machine16_elfExec
  obtain ⟨pd, table, page, i, st, hstarted⟩ := started_of_elfExec hk machine16_zero hok
  -- the entry is present, and has not been accessed
  have hpresent : entry machine16.vm.mem machine16.vm.kernelDir 3 % 2 = 1 := by
    have hpage := machine16_identity.page 0xC00000
    rw [if_pos (by decide)] at hpage
    by_contra heven
    rw [pageAt_of_absent (show entry _ _ (pdeIdx 0xC00000) % 2 = 0 by
      rw [show pdeIdx 0xC00000 = 3 by decide]
      omega)] at hpage
    cases hpage
  obtain ⟨a, -, haligned, hlt, hplain⟩ := machine16_plainEntries 3 (by decide) hpresent
  have hshared := hstarted.shared 3 (by decide) (by decide)
  have hpdaligned := hstarted.pageDir.2.1
  have hdir := hk.dir_held
  have hallowed : AccessedAllowed pd machine16.vm.kernelDir (pd, 3) k₁.vm.mem :=
    ⟨.inl rfl, (by decide : 3 < 1024), by rw [hshared]; exact hpresent⟩
  have hrun : Reach accessedStep (AccessedAllowed pd machine16.vm.kernelDir) k₁.vm.mem
      (accessedStep (pd, 3) k₁.vm.mem) := .next (pd, 3) .start hallowed
  obtain ⟨hlives, htables⟩ := lives_aloneOn hstarted hk hrun
  obtain ⟨esp, k₃, hexit, -⟩ := sysExit_keeps
    (@oneCpu_aloneOn k₁ t hstarted.addr.2 (accessedStep (pd, 3) k₁.vm.mem)) 0
  have hend : TaskEnd (aloneOn k₁ t (accessedStep (pd, 3) k₁.vm.mem)) t k₃ := .exit 0 esp rfl hexit
  -- the two words differ
  have hpdne : machine16.vm.kernelDir ≠ pd := fun heq =>
    (ownSpace_of_lives hstarted hk hlives).kernel (heq.symm.trans hstarted.kernelDir.symm)
  have hown : entry (accessedStep (pd, 3) k₁.vm.mem) pd 3 = dirEntry a 0 ||| 0x20 := by
    show entry (setEntry k₁.vm.mem pd 3 (entry k₁.vm.mem pd 3 ||| 0x20)) pd 3 = _
    rw [entry_setEntry hpdaligned hpdaligned (by decide) (by decide), if_pos ⟨rfl, rfl⟩, hshared,
      hplain, Nat.mod_eq_of_lt]
    exact Nat.or_lt_two_pow (hplain ▸ entry_lt ..) (by decide)
  have hkernel : entry (accessedStep (pd, 3) k₁.vm.mem) machine16.vm.kernelDir 3 = dirEntry a 0 := by
    show entry (setEntry k₁.vm.mem pd 3 (entry k₁.vm.mem pd 3 ||| 0x20)) _ 3 = _
    rw [entry_setEntry hpdaligned hdir.aligned (by decide) (by decide),
      if_neg fun heq => hpdne heq.1, hstarted.kept _ 3 hdir (by decide), hplain]
  have hne : entry (aloneOn k₁ t (accessedStep (pd, 3) k₁.vm.mem)).vm.mem pd 3 ≠
      entry (aloneOn k₁ t (accessedStep (pd, 3) k₁.vm.mem)).vm.mem
        (aloneOn k₁ t (accessedStep (pd, 3) k₁.vm.mem)).vm.kernelDir 3 := by
    show entry (accessedStep (pd, 3) k₁.vm.mem) pd 3
      ≠ entry (accessedStep (pd, 3) k₁.vm.mem) k₁.vm.kernelDir 3
    rw [hstarted.kernelDir, hown, hkernel]
    exact accessed_ne haligned
  have hodd := (shared_of_lives hstarted hk hlives (by decide : 2 < 3) (by decide)).1.2
  refine ⟨t, k₁, accessedStep (pd, 3) k₁.vm.mem, k₃, hok, ?_, hend,
    kernelTable_freed hstarted hk machine16_zero
    (noNullTable_of_plain machine16_plainEntries) hlives htables hend (by decide) (by decide) hne
    (hodd.trans hpresent)⟩
  rw [hstarted.pageDir.1]
  exact hrun

end

end Noverix.Elf
