/-
  What a call of `elf_exec` does: it rejects the file, runs out of frames, or
  starts a task.

  A failure after the first of the user's pages loses frames.  The directory of
  a task that is started has none of the kernel's entries below 12 MB.
-/

import Noverix.Elf.Space
import Noverix.Sched.OneCpu
import Noverix.Memory.Boot

namespace Noverix.Elf

open Lib Memory Sched

/-! ## The task -/

section

variable {k : Kernel} {p : Pfa} {F : Set Nat} {pd entry : Nat}

theorem allocTask_spec (k : Kernel) :
    (k.allocTask.1 = 0 ↔ k.vm.allocFrame.1 = 0) ∧ k.allocTask.1.toNat = k.vm.allocFrame.1 ∧
      k.allocTask.2.vm = k.vm.allocFrame.2 := by
  have hword : (UInt32.ofNat k.vm.allocFrame.1).toNat = k.vm.allocFrame.1 := by
    refine toNat_ofNat_of_lt' ?_
    exact UInt32.toNat_lt _
  have hzero : UInt32.ofNat k.vm.allocFrame.1 = 0 ↔ k.vm.allocFrame.1 = 0 := by
    rw [← UInt32.toNat_inj, hword]
    exact .rfl
  unfold Kernel.allocTask
  simp only
  split
  · next hnone => exact ⟨iff_of_true rfl (hzero.mp hnone), (hzero.mp hnone).symm, rfl⟩
  · next hsome => exact ⟨hzero, hword, rfl⟩

theorem pushWords_spec (m : Mem) {sp : Nat} {ws : List Nat} (h : 4 * ws.length ≤ sp) :
    (Kernel.pushWords m sp ws).1 = sp - 4 * ws.length ∧
      SameOutside m (Kernel.pushWords m sp ws).2 (sp - 4 * ws.length) sp := by
  induction ws generalizing m sp with
  | nil => exact ⟨rfl, .refl m _ _⟩
  | cons w ws ih =>
    rw [length_cons] at h ⊢
    obtain ⟨hsp, hsame⟩ := ih (store32 m (sp - 4) w) (by omega : 4 * ws.length ≤ sp - 4)
    have hcons : Kernel.pushWords m sp (w :: ws)
        = Kernel.pushWords (store32 m (sp - 4) w) (sp - 4) ws := rfl
    rw [hcons]
    have hfirst : SameOutside m (store32 m (sp - 4) w) (sp - 4 * (ws.length + 1)) sp :=
      (sameOutside_store32 m (sp - 4) w).mono (by omega) (by omega)
    exact ⟨by omega, hfirst.trans (hsame.mono (by omega) (by omega))⟩

theorem launch_spec (k : Kernel) (t : Tid) (pd entry stack : Nat) :
    ((launch k t pd entry stack).tasks t).pageDir = pd ∧
      ((launch k t pd entry stack).tasks t).kernelStackBase = stack ∧
      (launch k t pd entry stack).vm.pfa = k.vm.pfa ∧
      (launch k t pd entry stack).vm.kernelDir = k.vm.kernelDir ∧
      SameOutside k.vm.mem (launch k t pd entry stack).vm.mem stack (stack + taskStackSize) := by
  have hlen : (userFrame entry).length = 19 := rfl
  have hsize : taskStackSize = 0x4000 := rfl
  obtain ⟨-, hframe⟩ := @pushWords_spec k.vm.mem (stack + taskStackSize) (userFrame entry) (by omega)
  unfold launch
  refine ⟨?_, ?_, ?_, ?_, ?_⟩
  · rw [enqueue_field Task.pageDir fun _ _ => rfl, setTask_self]
  · rw [enqueue_field Task.kernelStackBase fun _ _ => rfl, setTask_self]
  · rw [enqueue_vm]
    rfl
  · rw [enqueue_vm]
    rfl
  · rw [enqueue_vm]
    exact hframe.mono (by omega) le_rfl

/-- The task that is started, in frame `i`, with its stack in the frames from `st` on. -/
structure StartedTask (k : Kernel) (p : Pfa) (F : Set Nat) (pd i st : Nat) (t : Tid) (k' : Kernel) :
    Prop where
  took : p.TookSet {f | f ∈ F ∨ f = i ∨ (st ≤ f ∧ f < st + 4)} k'.vm.pfa
  fresh : i ∉ F ∧ ¬ (st ≤ i ∧ i < st + 4) ∧ ∀ f ∈ F, ¬ (st ≤ f ∧ f < st + 4)
  addr : t.toNat = i * 4096 ∧ t ≠ 0
  pageDir : (k'.tasks t).pageDir = pd
  stack : (k'.tasks t).kernelStackBase = st * 4096 ∧ 0 < st
  mem : SameOutside k.vm.mem k'.vm.mem (st * 4096) (st * 4096 + taskStackSize)
  kernelDir : k'.vm.kernelDir = k.vm.kernelDir

/-- The last part of `elf_exec` makes the task, or fails and frees none of the frames taken
    before. -/
theorem startTask_spec (hset : p.TookSet F k.vm.pfa) (hsmall : p.totalFrames ≤ 2 ^ 18)
    (hzero : p.testBit 0 = true) (hpos : 0 < p.totalFrames) :
    (∃ i st t k', startTask k pd entry = (.ok t, k') ∧ StartedTask k p F pd i st t k') ∨
    (∃ e k', startTask k pd entry = (.error e, k') ∧ k'.vm.pfa.totalFrames = p.totalFrames ∧
      ∀ f ∈ F, k'.vm.pfa.testBit f = true) := by
  obtain ⟨htnone, htaddr, htvm⟩ := allocTask_spec k
  have htotal := hset.total
  have hcount : (UInt32.ofNat (taskStackSize / 4096)).toNat = 4 := by decide
  by_cases hnone : k.vm.allocFrame.1 = 0
  · -- no frame for the task
    refine .inr ⟨.allocTask, k.allocTask.2, ?_, ?_⟩
    · unfold startTask
      exact if_pos (htnone.mpr hnone)
    · rw [htvm, (Vm.allocFrame_none (htotal ▸ hsmall) ((hset.bits 0 hpos).mpr (.inr hzero)) hnone).1]
      exact ⟨htotal, fun f hf => (hset.bits f (hset.fits f hf)).mpr (.inl hf)⟩
  have htsome : k.allocTask.1 ≠ 0 := mt htnone.mp hnone
  obtain ⟨i, hi, htook, -⟩ := Vm.allocFrame_spec (htotal ▸ hsmall) hnone
  obtain ⟨hinew, hset1⟩ := hset.took htook
  have hfits := htook.fits
  have htotal1 := hset1.total
  rcases k.vm.allocFrame.2.pfa.allocFrames_spec (UInt32.ofNat (taskStackSize / 4096)) with
    ⟨st, q, hrun, hstook⟩ | ⟨hrun, -⟩
  · rw [hcount] at hstook
    obtain ⟨hstnew, hset2⟩ := hset1.took hstook
    have hstfits := hstook.fits
    have hstpos : 0 < st := by
      rcases Nat.eq_zero_or_pos st with hst | hst
      · have hfree := hstook.free 0 (by omega) (by omega)
        rw [(hset1.bits 0 hpos).mpr (.inr hzero)] at hfree
        contradiction
      · exact hst
    have hvmrun : k.allocTask.2.vm.allocFrames (taskStackSize / 4096)
        = (st * 4096, { k.vm.allocFrame.2 with pfa := q }) := by
      rw [htvm]
      unfold Vm.allocFrames
      rw [hrun, addrOf_toNat (by omega)]
    have heq : startTask k pd entry = (.ok k.allocTask.1,
        launch { k.allocTask.2 with vm := { k.vm.allocFrame.2 with pfa := q } } k.allocTask.1 pd
          entry (st * 4096)) := by
      unfold startTask
      rw [if_neg htsome, hvmrun]
      exact if_neg (by omega)
    obtain ⟨hpd, hstack, hpfa, hkernel, hmem⟩ := launch_spec
      { k.allocTask.2 with vm := { k.vm.allocFrame.2 with pfa := q } } k.allocTask.1 pd entry
      (st * 4096)
    refine .inl ⟨i, st, _, _, heq, ?_, ?_, ⟨htaddr.trans hi, htsome⟩, hpd, ⟨hstack, hstpos⟩, hmem,
      hkernel⟩
    · rw [hpfa]
      refine hset2.congr fun f => ?_
      show (f ∈ F ∨ f = i ∨ _) ↔ (f ∈ F ∨ (i ≤ f ∧ f < i + 1)) ∨ _
      rw [or_assoc]
      refine or_congr_right (or_congr_left ?_)
      omega
    · exact ⟨fun hf => hinew i hf ⟨le_rfl, by omega⟩, hstnew i (.inr ⟨le_rfl, by omega⟩),
        fun f hf => hstnew f (.inl hf)⟩
  -- no frames for the stack: the task's frame is freed
  have hvmrun : k.allocTask.2.vm.allocFrames (taskStackSize / 4096) = (0, k.vm.allocFrame.2) := by
    rw [htvm]
    unfold Vm.allocFrames
    rw [hrun]
    rfl
  have heq : startTask k pd entry = (.error .kernelStack,
      { k.allocTask.2 with vm := k.vm.allocFrame.2.freeFrame k.allocTask.1.toNat }) := by
    unfold startTask
    rw [if_neg htsome, hvmrun]
    rfl
  have hframe : frameOf (UInt32.ofNat k.allocTask.1.toNat) = i := by
    rw [UInt32.ofNat_toNat, frameOf, htaddr, hi]
    exact Nat.mul_div_cancel i (by decide)
  have hgave := @Pfa.freeFrame_spec k.vm.allocFrame.2.pfa (UInt32.ofNat k.allocTask.1.toNat)
    (by omega) (by omega)
  rw [hframe] at hgave
  refine .inr ⟨_, _, heq, hgave.total.trans htotal1, fun f hf => ?_⟩
  have hlt := hset.fits f hf
  refine (hgave.bits f (by omega)).trans ?_
  rw [if_neg (hinew f hf)]
  exact (hset1.bits f hlt).mpr (.inl (.inl hf))

theorem startTask_ok {q : Nat} (hfree : k.vm.pfa.FreeFrom q) (hq : 0 < q)
    (hroom : q + 5 ≤ k.vm.pfa.totalFrames) : ∃ t k', startTask k pd entry = (.ok t, k') := by
  obtain ⟨htnone, -, htvm⟩ := allocTask_spec k
  obtain ⟨haddr, htotal, hfree1⟩ := Vm.allocFrame_freeFrom hfree (by omega)
  have hsmall := hfree.total
  have hcount : (UInt32.ofNat (taskStackSize / 4096)).toNat = 4 := by decide
  rcases k.vm.allocFrame.2.pfa.allocFrames_spec (UInt32.ofNat (taskStackSize / 4096)) with
    ⟨st, r, hrun, hstook⟩ | ⟨-, hnorun⟩
  · rw [hcount] at hstook
    have hstfits := hstook.fits
    have hst : (k.allocTask.2.vm.allocFrames (taskStackSize / 4096)).1 ≠ 0 := by
      rw [htvm]
      unfold Vm.allocFrames
      rw [hrun, addrOf_toNat (by omega)]
      intro hzero
      have hused := hfree1.used st (by omega) (by omega)
      rw [hstook.free st le_rfl (by omega)] at hused
      contradiction
    have heq : startTask k pd entry = (.ok k.allocTask.1,
        launch { k.allocTask.2 with vm := (k.allocTask.2.vm.allocFrames (taskStackSize / 4096)).2 }
          k.allocTask.1 pd entry (k.allocTask.2.vm.allocFrames (taskStackSize / 4096)).1) := by
      unfold startTask
      simp only
      rw [if_neg (mt htnone.mp (by omega)), if_neg hst]
    exact ⟨_, _, heq⟩
  rw [hcount] at hnorun
  refine absurd ⟨by decide, q + 1, by omega, fun f hlo hhi => ?_⟩ hnorun
  exact hfree1.free f hlo (by omega)

end

/-! ## The whole call -/

section

variable {k k' : Kernel} {cpu : Cpu} {f : Image}

/-- The frames of a task: those of its address space, its structure, its kernel stack. -/
def taskFrames (pd table : Nat) (page : Nat → Nat) (i st : Nat) : Set Nat :=
  {f | f ∈ spaceFrames pd table page userPageCount ∨ f = i ∨ (st ≤ f ∧ f < st + 4)}

/-- What a successful `elf_exec` leaves. -/
structure Started (k : Kernel) (f : Image) (pd table : Nat) (page : Nat → Nat) (i st : Nat)
    (t : Tid)
    (k' : Kernel) : Prop where
  valid : f.validate = none
  stored : ∀ i, i < f.ePhnum → f.pType i = ptLoad → f.pVaddr i + f.pMemsz i < 2 ^ 32
  took : k.vm.pfa.TookSet (taskFrames pd table page i st) k'.vm.pfa
  fresh : i ∉ spaceFrames pd table page userPageCount ∧ ¬ (st ≤ i ∧ i < st + 4)
  addr : t.toNat = i * 4096 ∧ t ≠ 0
  pageDir : (k'.tasks t).pageDir = pd ∧ pd % 4096 = 0 ∧ pd ≠ 0
  stack : (k'.tasks t).kernelStackBase = st * 4096 ∧ 0 < st
  kernelDir : k'.vm.kernelDir = k.vm.kernelDir
  kept : ∀ t j, k.vm.pfa.Held t → j < 1024 → entry k'.vm.mem t j = entry k.vm.mem t j
  cleared : entry k'.vm.mem pd 0 = 0 ∧ entry k'.vm.mem pd 1 = 0
  shared : ∀ i, 2 < i → i < 1024 → entry k'.vm.mem pd i = entry k.vm.mem k.vm.kernelDir i
  own : entry k'.vm.mem pd userPdeIdx % 2 = 1 ∧
    entry k'.vm.mem pd userPdeIdx / 4096 * 4096 = table * 4096
  pages : ∀ j, j < 1024 → pageOf (entry k'.vm.mem (table * 4096) j) =
    if j < userPageCount then some (page j * 4096) else none

/-- The entries of the new directory and its table, and of every page in use before, after the
    program has been stored, the directory cut, and the task started. -/
theorem entry_started {s : Vm} {pd table i st : Nat} {page : Nat → Nat} {m : Mem} {t : Tid}
    {k₁ : Kernel} (h : UserSpace k.vm pd table page userPageCount s)
    (hm : OnlyPages page s.mem m) (hmem : k₁.vm.mem = setEntry (setEntry m pd 0 0) pd 1 0)
    (hstart : StartedTask k₁ k.vm.pfa (spaceFrames pd table page userPageCount) pd i st t k')
    {a j : Nat} (ha : a % 4096 = 0) (hj : j < 1024)
    (hpages : ∀ l < userPageCount, page l * 4096 ≠ a)
    (hstack : ¬ (st ≤ a / 4096 ∧ a / 4096 < st + 4)) :
    entry k'.vm.mem a j = if a = pd ∧ j < 2 then 0 else entry s.mem a j := by
  have hsize : taskStackSize = 0x4000 := rfl
  have hpd := h.tables.dir_held.aligned
  have hlast : entry k'.vm.mem a j = entry k₁.vm.mem a j :=
    hstart.mem.load32_eq (by omega)
  rw [hlast, hmem, entry_setEntry hpd ha (by decide) hj, entry_setEntry hpd ha (by decide) hj,
    hm.entry ha hj hpages, Nat.zero_mod]
  by_cases hapd : a = pd
  · by_cases hj0 : j = 0
    · rw [if_neg (by omega), if_pos ⟨hapd, hj0⟩, if_pos ⟨hapd, by omega⟩]
    by_cases hj1 : j = 1
    · rw [if_pos ⟨hapd, hj1⟩, if_pos ⟨hapd, by omega⟩]
    · rw [if_neg (by omega), if_neg (by omega), if_neg (by omega)]
  · rw [if_neg fun heq => hapd heq.1, if_neg fun heq => hapd heq.1, if_neg fun heq => hapd heq.1]

namespace Started

variable {pd table i st : Nat} {page : Nat → Nat} {t : Tid}

section

variable (h : Started k f pd table page i st t k')
include h

theorem pageAt_kernelDir (hk : k.vm.Tables k.vm.kernelDir) (v : Nat) :
    pageAt k'.vm.mem k'.vm.kernelDir v = pageAt k.vm.mem k.vm.kernelDir v := by
  rw [h.kernelDir]
  refine pageAt_congr (h.kept _ _ hk.dir_held (pdeIdx_lt v)) fun hodd => ?_
  exact h.kept _ _ (hk.held _ (pdeIdx_lt v) hodd) (pteIdx_lt v)

variable {v : Nat}

theorem pageAt_low (hv : pdeIdx v < 2) : pageAt k'.vm.mem pd v = none := by
  obtain ⟨h0, h1⟩ := h.cleared
  refine pageAt_of_absent ?_
  rcases (by omega : pdeIdx v = 0 ∨ pdeIdx v = 1) with hpde | hpde
  · rw [hpde, h0]
  · rw [hpde, h1]

end

end Started

variable {page : Nat → Nat} {s : Vm} {m : Mem} {t : Tid} {k₁ : Kernel}

theorem started_of_startTask {pd table i st : Nat}
    (h : UserSpace k.vm pd table page userPageCount s) (hpd : pd ≠ 0)
    (hvalid : f.validate = none) (hrun : storeBytes pd s.mem (setupStores f) = some m)
    (hvm : k₁.vm = { s with mem := setEntry (setEntry m pd 0 0) pd 1 0 })
    (hstart : StartedTask k₁ k.vm.pfa (spaceFrames pd table page userPageCount) pd i st t k') :
    Started k f pd table page i st t k' := by
  obtain ⟨hstored, hm⟩ := h.setupStores hvalid hrun
  obtain ⟨hpd4096, hpdmem⟩ := h.pd_mem
  obtain ⟨hodd, htable⟩ := h.present (by decide)
  obtain ⟨hifresh, histack, hstfresh⟩ := hstart.fresh
  have hread := @entry_started k k' s pd table i st page m t k₁ h hm (congrArg Vm.mem hvm) hstart
  have htablemem : table ∈ spaceFrames pd table page userPageCount := .inr (.inl ⟨by decide, rfl⟩)
  -- the directory
  have hpdread : ∀ j < 1024, entry k'.vm.mem pd j = if j < 2 then 0 else entry s.mem pd j := by
    intro j hj
    rw [hread h.tables.dir_held.aligned hj (fun l hl => (h.apart l hl).1) (hstfresh _ hpdmem)]
    by_cases hj2 : j < 2
    · rw [if_pos ⟨rfl, hj2⟩, if_pos hj2]
    · rw [if_neg fun heq => hj2 heq.2, if_neg hj2]
  -- its table
  have htableread : ∀ j, j < 1024 →
      entry k'.vm.mem (table * 4096) j = entry s.mem (table * 4096) j := by
    intro j hj
    rw [hread (Nat.mul_mod_left ..) hj, if_neg]
    · rintro ⟨heq, -⟩
      exact h.tables.apart userPdeIdx (by decide) hodd (htable.trans heq)
    · intro l hl heq
      exact (h.apart l hl).2 (by omega)
    · rw [Nat.mul_div_cancel table (by decide)]
      exact hstfresh _ htablemem
  refine ⟨hvalid, hstored, hstart.took, ⟨hifresh, histack⟩, hstart.addr,
    ⟨hstart.pageDir, h.tables.dir_held.aligned, hpd⟩, hstart.stack, ?_, fun a j ha hj => ?_,
    ⟨hpdread 0 (by decide), hpdread 1 (by decide)⟩, fun j hlo hhi => ?_, ?_, fun j hj => ?_⟩
  · rw [hstart.kernelDir, hvm]
    exact h.kernelDir
  · have hne : ∀ g, g ∈ spaceFrames pd table page userPageCount ∨ (st ≤ g ∧ g < st + 4) →
        g ≠ a / 4096 := by
      rintro g hg rfl
      have hfree := hstart.took.free _ (hg.imp_right .inr)
      exact absurd (ha.taken.symm.trans hfree) (by decide)
    have haligned := ha.aligned
    have hanepd : a ≠ pd := fun heq => hne _ (.inl hpdmem) (by rw [heq])
    rw [hread haligned hj (fun l hl heq => hne _ (.inl (.inr (.inr ⟨l, hl, rfl⟩))) (by omega))
      (fun hin => hne _ (.inr hin) rfl), if_neg fun heq => hanepd heq.1]
    exact h.kept a j ha hj
  · rw [hpdread j hhi, if_neg (by omega)]
    exact h.shared j hhi (by show j ≠ 2; omega)
  · rw [hpdread userPdeIdx (by decide), if_neg (by decide)]
    exact ⟨hodd, htable⟩
  · -- the page of address `v` has entry `j`
    obtain ⟨v, hpde, hpte⟩ : ∃ v, pdeIdx v = userPdeIdx ∧ pteIdx v = j := by
      refine ⟨2 * 2 ^ 22 + j * 4096, ?_, ?_⟩
      · unfold pdeIdx
        show _ = 2
        omega
      · unfold pteIdx
        omega
    have hpage := h.page v hpde
    rw [pageAt_of_present (by rw [hpde]; exact hodd), hpde, htable, hpte] at hpage
    rw [htableread j hj, hpage]

/-- The frames are enough for the directory only, and it is free again; or some frame that had been
    free is lost. -/
def Failed (p q : Pfa) : Prop :=
  (p.getFreeFrameCount ≤ 1 ∧ q.freeFrameSet = p.freeFrameSet) ∨
    (1 < p.getFreeFrameCount ∧ ∃ g, g ∈ p.freeFrameSet ∧ g ∉ q.freeFrameSet)

variable {p q : Pfa}

theorem failed_of_lost {f g : Nat} (hf : f ∈ p.freeFrameSet) (hg : g ∈ p.freeFrameSet)
    (hne : f ≠ g) (hlost : q.testBit g = true) : Failed p q := by
  refine .inr ⟨?_, g, hg, fun hfree => absurd (hlost.symm.trans hfree.2) (by decide)⟩
  by_contra hle
  exact hne (Pfa.getFreeFrameCount_le_one_iff.mp (by omega) f hf g hg)

theorem freeFrameSet_congr (htotal : q.totalFrames = p.totalFrames)
    (hbits : ∀ f < p.totalFrames, q.testBit f = p.testBit f) :
    q.freeFrameSet = p.freeFrameSet := by
  refine Set.ext fun f => ?_
  show f < q.totalFrames ∧ _ ↔ f < p.totalFrames ∧ _
  rw [htotal]
  refine and_congr_right fun hf => ?_
  rw [hbits f hf]

theorem failed_of_dropped {pd : Nat} (h : Dropped p pd q)
    (hpd : pd / 4096 ∈ p.freeFrameSet) (haligned : pd % 4096 = 0) : Failed p q := by
  obtain ⟨htotal, ⟨honly, hsame⟩ | ⟨f, hf, hne, hfree, htaken⟩⟩ := h
  · refine .inl ⟨Pfa.getFreeFrameCount_le_one_iff.mpr fun f hf g hg => ?_,
      freeFrameSet_congr htotal hsame⟩
    have hf' := honly f hf.1 hf.2
    have hg' := honly g hg.1 hg.2
    omega
  · exact failed_of_lost hpd ⟨hf, hfree⟩ (by omega) htaken

variable {r : Except ElfError Tid}

theorem afterStores_spec {pd table : Nat}
    (h : UserSpace k.vm pd table page userPageCount s) (hpd : pd ≠ 0)
    (hk : k.vm.Tables k.vm.kernelDir) (hzero : k.vm.pfa.testBit 0 = true)
    (hvalid : f.validate = none) (hrun : storeBytes pd s.mem (setupStores f) = some m)
    (hvm : k₁.vm = { s with mem := setEntry (setEntry m pd 0 0) pd 1 0 })
    (hstart : startTask k₁ pd f.eEntry = (r, k')) :
    (∃ e, r = .error e) ∧ Failed k.vm.pfa k'.vm.pfa ∨
      ∃ i st t, r = .ok t ∧ Started k f pd table page i st t k' := by
  have hfits := hk.dir_held.fits
  obtain ⟨hpd4096, hpdmem⟩ := h.pd_mem
  have hset : k.vm.pfa.TookSet (spaceFrames pd table page userPageCount) k₁.vm.pfa := by
    rw [hvm]
    exact h.took
  rcases @startTask_spec k₁ k.vm.pfa _ pd f.eEntry hset hk.total hzero (by omega) with
    ⟨i, st, t, k2, heq, hspec⟩ | ⟨e, k2, heq, -, htaken⟩
  · obtain ⟨rfl, rfl⟩ := Prod.mk.inj (heq.symm.trans hstart)
    exact .inr ⟨i, st, t, rfl, started_of_startTask h hpd hvalid hrun hvm hspec⟩
  obtain ⟨rfl, rfl⟩ := Prod.mk.inj (heq.symm.trans hstart)
  -- the user's first page is lost
  have hpage : page 0 ∈ spaceFrames pd table page userPageCount :=
    .inr (.inr ⟨0, by decide, rfl⟩)
  have hne : pd / 4096 ≠ page 0 := fun hfirst =>
    (h.apart 0 (by decide)).1 (hfirst ▸ hpd4096)
  exact .inl ⟨⟨e, rfl⟩, failed_of_lost ⟨h.took.fits _ hpdmem, h.took.free _ hpdmem⟩
    ⟨h.took.fits _ hpage, h.took.free _ hpage⟩ hne (htaken _ hpage)⟩

section

variable (hk : k.vm.Tables k.vm.kernelDir)
include hk

/-- `elf_exec` rejects the file, runs out of frames, or starts the task. -/
theorem elfExec_spec (hzero : k.vm.pfa.testBit 0 = true) (h : elfExec k cpu f = some (r, k')) :
    (∃ e, f.validate = some e ∧ r = .error e ∧ k' = k) ∨
    (f.validate = none ∧ (∃ e, r = .error e) ∧ Failed k.vm.pfa k'.vm.pfa) ∨
    ∃ pd table page i st t, r = .ok t ∧ Started k f pd table page i st t k' := by
  have hpos : 0 < k.vm.pfa.totalFrames := by
    have := hk.dir_held.fits
    omega
  unfold elfExec at h
  cases hvalid : f.validate with
  | some e =>
    rw [hvalid] at h
    cases h
    exact .inl ⟨e, rfl, rfl, rfl⟩
  | none =>
    rw [hvalid] at h
    simp only at h
    by_cases hnone : k.vm.allocFrame.1 = 0
    · -- no frame for the directory
      have hcreate : k.vm.pageDirCreate = (0, k.vm.allocFrame.2) := by
        unfold Vm.pageDirCreate
        exact if_pos hnone
      rw [hcreate, if_pos rfl] at h
      cases h
      obtain ⟨hsame, hall⟩ := Vm.allocFrame_none hk.total hzero hnone
      refine .inr (.inl ⟨rfl, ⟨_, rfl⟩, .inl ⟨?_, ?_⟩⟩)
      · refine Pfa.getFreeFrameCount_le_one_iff.mpr fun f hf => ?_
        exact absurd (hf.2.symm.trans (hall f hf.1)) (by decide)
      · show k.vm.allocFrame.2.pfa.freeFrameSet = _
        rw [hsame]
    obtain ⟨hfst, hspace⟩ := @userSpace_create k.vm 0 (fun _ => 0) hk hnone
    rw [hfst, if_neg hnone] at h
    have hpdfree : k.vm.allocFrame.1 / 4096 ∈ k.vm.pfa.freeFrameSet := by
      obtain ⟨-, hmem⟩ := hspace.pd_mem
      exact ⟨hspace.took.fits _ hmem, hspace.took.free _ hmem⟩
    have haligned := hspace.tables.dir_held.aligned
    unfold loadProgram at h
    simp only at h
    rcases mapUserPages_spec hzero hpos hnone userPageCount 0 0 (fun _ => 0) _ hspace rfl with
      ⟨hdone, table, page, hspace'⟩ | ⟨⟨e, herror⟩, hdropped⟩
    · rw [Nat.zero_mul, Nat.add_zero] at hdone hspace'
      rw [hdone] at h
      simp only at h
      obtain ⟨m, hrun, hstart⟩ := map_eq_some_iff.mp h
      rcases afterStores_spec hspace' hnone hk hzero hvalid hrun rfl hstart with
        hfailed | ⟨i, st, t, hok, hstarted⟩
      · exact .inr (.inl ⟨rfl, hfailed⟩)
      · exact .inr (.inr ⟨_, table, page, i, st, t, hok, hstarted⟩)
    rw [Nat.zero_mul, Nat.add_zero] at herror hdropped
    rw [herror] at h
    cases h
    exact .inr (.inl ⟨rfl, ⟨e, rfl⟩, failed_of_dropped hdropped hpdfree haligned⟩)

theorem started_of_elfExec (hzero : k.vm.pfa.testBit 0 = true)
    (h : elfExec k cpu f = some (.ok t, k')) :
    ∃ pd table page i st, Started k f pd table page i st t k' := by
  obtain ⟨e, -, herror, -⟩ | ⟨-, ⟨e, herror⟩, -⟩ | ⟨pd, table, page, i, st, t', hok, hstarted⟩ :=
    elfExec_spec hk hzero h
  · cases herror
  · cases herror
  · obtain rfl : t = t' := Except.ok.inj hok
    exact ⟨pd, table, page, i, st, hstarted⟩

/-- `elf_exec` succeeds on a file that passes its checks and fits in the user's memory, if there are
    frames for the directory, the table and the pages, the task and its stack. -/
theorem elfExec_ok {q : Nat} (hfree : k.vm.pfa.FreeFrom q) (hq : 0 < q)
    (hroom : q + 519 ≤ k.vm.pfa.totalFrames) (hvalid : f.validate = none)
    (hfits : ∀ i < f.ePhnum, f.pType i = ptLoad → f.pVaddr i + f.pMemsz i < 2 ^ 32) :
    ∃ t k', elfExec k cpu f = some (.ok t, k') := by
  obtain ⟨hfst, hpd, hdone, htotal, q', hlo, hhi, hfree'⟩ := mapUserPages_ok hk hfree hq (by omega)
  obtain ⟨-, hspace⟩ := @userSpace_create k.vm 0 (fun _ => 0) hk hpd
  rcases mapUserPages_spec (hfree.used 0 hq (by omega)) (by omega) hpd userPageCount 0 0
    (fun _ => 0) _ hspace rfl with ⟨-, table, page, hspace'⟩ | ⟨⟨e, herror⟩, -⟩
  swap
  · rw [Nat.zero_mul, Nat.add_zero] at herror
    exact absurd (hdone.symm.trans herror) (by simp)
  rw [Nat.zero_mul, Nat.add_zero] at hspace'
  obtain ⟨m, hrun, -⟩ := hspace'.storeBytes (setupStores f) _ (fun _ _ => rfl)
    (setupStores_inUserRange hvalid hfits)
  unfold elfExec
  rw [hvalid]
  simp only
  rw [hfst, if_neg hpd]
  unfold loadProgram
  simp only
  rw [hdone]
  simp only
  rw [hrun]
  simp only [map_some, Option.some.injEq]
  refine startTask_ok hfree' hlo ?_
  rw [htotal]
  omega

end

end

end Noverix.Elf
