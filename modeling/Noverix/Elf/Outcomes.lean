/-
  What a failed call of `elf_exec` loses, and what the directory of a started
  task lacks.

  A call that fails keeps the free frames as they were only if it fails in its
  checks, or for want of a frame for the directory or the first page.  Before
  the task is started the entries of its directory for the first 8 MB are
  cleared, and those of the next 4 MB are its own: the kernel's image and heap
  are not mapped there as in the kernel's directory.
-/

import Noverix.Elf.Started
import Noverix.Memory.Heap

namespace Noverix.Elf

open Lib Memory Sched

/-! ## A machine -/

/-- A machine with 16 MB after `init_paging`, with two tasks. -/
def machine16 : Kernel := { twoTasks with vm := (boot16.initPaging 0x1000000).2 }

theorem withVm_vm (k : Kernel) (vm : Vm) : ({ k with vm := vm } : Kernel).vm = vm := rfl

theorem machine16_vm : machine16.vm = (boot16.initPaging 0x1000000).2 := withVm_vm twoTasks _

/-- `n` frames are taken. -/
def takeFrames : Nat → Vm → Vm
  | 0, s => s
  | n + 1, s => takeFrames n s.allocFrame.2

theorem takeFrames_spec {n q : Nat} {s : Vm} (hk : s.Tables s.kernelDir) (hfree : s.pfa.FreeFrom q)
    (hroom : q + n ≤ s.pfa.totalFrames) :
    (takeFrames n s).Tables (takeFrames n s).kernelDir ∧ (takeFrames n s).pfa.FreeFrom (q + n) ∧
      (takeFrames n s).pfa.totalFrames = s.pfa.totalFrames := by
  induction n generalizing q s with
  | zero => exact ⟨hk, hfree, rfl⟩
  | succ n ih =>
    obtain ⟨-, htotal, hfree1⟩ := Vm.allocFrame_freeFrom hfree (by omega)
    have hk1 : s.allocFrame.2.Tables s.allocFrame.2.kernelDir :=
      hk.frame (Pfa.grew_allocFrame _) fun _ _ => rfl
    obtain ⟨htables, hfreen, htotaln⟩ := ih hk1 hfree1 (by omega)
    rw [show q + (n + 1) = q + 1 + n by omega]
    exact ⟨htables, hfreen, htotaln.trans htotal⟩

theorem machine16_identity : machine16.vm.IdentityUpTo 4 := by
  obtain ⟨hdone, -, -, htotal⟩ := boot16_initPaging
  have hcount : Vm.tableCount (0x1000000 : UInt32).toNat = 4 := by decide
  have hmap := Vm.initPaging_spec (by rw [htotal]; decide) hdone
  rw [hcount, ← machine16_vm] at hmap
  exact hmap

theorem machine16_spec : machine16.vm.Tables machine16.vm.kernelDir ∧
    machine16.vm.pfa.FreeFrom 0x105 ∧ machine16.vm.pfa.totalFrames = 0x1000 := by
  obtain ⟨-, hfree, htotal, -⟩ := boot16_initPaging
  refine ⟨machine16_identity.tables, ?_⟩
  rw [machine16_vm]
  exact ⟨hfree, htotal⟩

theorem machine16_zero : machine16.vm.pfa.testBit 0 = true := by
  obtain ⟨-, hfree, htotal⟩ := machine16_spec
  exact hfree.used 0 (by decide) (by rw [htotal]; decide)

/-- The machine with only two frames left. -/
def scarce16 : Kernel := { machine16 with vm := takeFrames 0xEF9 machine16.vm }

theorem machine16_takeFrames {n : Nat} (hroom : 0x105 + n ≤ 0x1000) :
    (takeFrames n machine16.vm).Tables (takeFrames n machine16.vm).kernelDir ∧
      (takeFrames n machine16.vm).pfa.FreeFrom (0x105 + n) ∧
      (takeFrames n machine16.vm).pfa.totalFrames = 0x1000 := by
  obtain ⟨hk, hfree, htotal⟩ := machine16_spec
  obtain ⟨hk', hfree', htotal'⟩ := takeFrames_spec hk hfree (htotal ▸ hroom)
  exact ⟨hk', hfree', htotal'.trans htotal⟩

theorem scarce16_spec : scarce16.vm.Tables scarce16.vm.kernelDir ∧
    scarce16.vm.pfa.FreeFrom 0xFFE ∧ scarce16.vm.pfa.totalFrames = 0x1000 := by
  have hvm : scarce16.vm = takeFrames 0xEF9 machine16.vm := withVm_vm machine16 _
  rw [hvm]
  exact @machine16_takeFrames 0xEF9 (by decide)

/-- The machine with only one frame left. -/
def lastFrame16 : Kernel := { machine16 with vm := takeFrames 0xEFA machine16.vm }

theorem lastFrame16_spec : lastFrame16.vm.Tables lastFrame16.vm.kernelDir ∧
    lastFrame16.vm.pfa.FreeFrom 0xFFF ∧ lastFrame16.vm.pfa.totalFrames = 0x1000 := by
  have hvm : lastFrame16.vm = takeFrames 0xEFA machine16.vm := withVm_vm machine16 _
  rw [hvm]
  exact @machine16_takeFrames 0xEFA (by decide)

/-! ## Frames lost by a failure -/

section

variable {k k' : Kernel} {cpu : Cpu} {f : Image}

/-- When `elf_exec` returns -1, the free frames are those of before iff the file was rejected, or
    there was at most one free frame. -/
theorem elfExec_error_frames_iff (hk : k.vm.Tables k.vm.kernelDir)
    (hzero : k.vm.pfa.testBit 0 = true) {e : ElfError} (h : elfExec k cpu f = some (.error e, k')) :
    k'.vm.pfa.freeFrameSet = k.vm.pfa.freeFrameSet ↔
      f.validate ≠ none ∨ k.vm.pfa.getFreeFrameCount ≤ 1 := by
  rcases elfExec_spec hk hzero h with
    ⟨e', hinvalid, -, rfl⟩ | ⟨hvalid, -, hfailed⟩ | ⟨_, _, _, _, _, _, hok, -⟩
  · exact iff_of_true rfl (.inl (by rw [hinvalid]; simp))
  · rcases hfailed with ⟨hfew, hsame⟩ | ⟨hmany, g, hfree, hlost⟩
    · exact iff_of_true hsame (.inr hfew)
    refine iff_of_false (fun hsame => hlost (hsame ▸ hfree)) ?_
    rintro (hinvalid | hfew)
    · exact hinvalid hvalid
    · omega
  · cases hok

theorem elfExec_error_of_few (hk : k.vm.Tables k.vm.kernelDir) {q : Nat}
    (hfree : k.vm.pfa.FreeFrom q) (hq : 0 < q) (hlt : q < k.vm.pfa.totalFrames)
    (hfew : k.vm.pfa.totalFrames ≤ q + 2) (hvalid : f.validate = none) :
    ∃ e k', elfExec k cpu f = some (.error e, k') := by
  obtain ⟨haddr, -, -⟩ := Vm.allocFrame_freeFrom hfree hlt
  have hpd : k.vm.allocFrame.1 ≠ 0 := by omega
  obtain ⟨hfst, hspace⟩ := @userSpace_create k.vm 0 (fun _ => 0) hk hpd
  rcases mapUserPages_spec (hfree.used 0 hq (by omega)) (by omega) hpd userPageCount 0 0
    (fun _ => 0) _ hspace rfl with ⟨-, table, page, hspace'⟩ | ⟨⟨e, herror⟩, -⟩
  · -- the directory, the table and the first page are three frames
    have hlast : ∀ g, g ∈ spaceFrames k.vm.allocFrame.1 table page userPageCount →
        q ≤ g ∧ g < k.vm.pfa.totalFrames := by
      intro g hg
      have hfits := hspace'.took.fits g hg
      refine ⟨?_, hfits⟩
      by_contra hlow
      have hused := hfree.used g (by omega) hfits
      exact absurd (hused.symm.trans (hspace'.took.free g hg)) (by decide)
    obtain ⟨hpd4096, hpdmem⟩ := hspace'.pd_mem
    obtain ⟨hodd, htable⟩ := hspace'.present (by decide)
    have htablepd := hspace'.tables.apart userPdeIdx (by decide) hodd
    obtain ⟨hpagepd, hpagetable⟩ := hspace'.apart 0 (by decide)
    have h1 := hlast _ hpdmem
    have h2 := hlast table (.inr (.inl ⟨by decide, rfl⟩))
    have h3 := hlast (page 0) (.inr (.inr ⟨0, by decide, rfl⟩))
    omega
  rw [Nat.zero_mul, Nat.add_zero] at herror
  have hload : ∃ k', loadProgram { k with vm := k.vm.pageDirCreate.2 } cpu f k.vm.allocFrame.1
      = some (.error e, k') := by
    unfold loadProgram
    simp only
    rw [herror]
    exact ⟨_, rfl⟩
  obtain ⟨k', hload⟩ := hload
  refine ⟨e, k', ?_⟩
  unfold elfExec
  rw [hvalid]
  simp only
  rw [hfst, if_neg hpd, hload]

/-- With one frame left the directory gets it, there is none for the first page, and the
    directory is freed. -/
theorem elfExec_error_frames_iff_lastFrame16 : ∃ e k',
    elfExec lastFrame16 0 (Image.oneSegment [0x10, 0, 0, 0]) = some (.error e, k') ∧
      (Image.oneSegment [0x10, 0, 0, 0]).validate = none ∧
      lastFrame16.vm.pfa.getFreeFrameCount ≤ 1 ∧
      k'.vm.pfa.freeFrameSet = lastFrame16.vm.pfa.freeFrameSet := by
  obtain ⟨hk, hfree, htotal⟩ := lastFrame16_spec
  have hvalid : (Image.oneSegment [0x10, 0, 0, 0]).validate = none := by decide
  have hzero := hfree.used 0 (by decide) (by rw [htotal]; decide)
  obtain ⟨e, k', herror⟩ := @elfExec_error_of_few lastFrame16 0 _ hk 0xFFF hfree (by decide)
    (by rw [htotal]; decide) (by rw [htotal]; decide) hvalid
  have honly : ∀ g ∈ lastFrame16.vm.pfa.freeFrameSet, g = 0xFFF := by
    rintro g ⟨hlt, hg⟩
    by_contra hne
    have hused := hfree.used g (by omega) hlt
    exact Bool.false_ne_true (hg.symm.trans hused)
  have hfew : lastFrame16.vm.pfa.getFreeFrameCount ≤ 1 :=
    Pfa.getFreeFrameCount_le_one_iff.mpr fun g hg g' hg' => (honly g hg).trans (honly g' hg').symm
  exact ⟨e, k', herror, hvalid, hfew, (elfExec_error_frames_iff hk hzero herror).mpr (.inr hfew)⟩

theorem mem_freeFrameSet {p : Pfa} {n g : Nat} (h : p.FreeFrom n) (hlo : n ≤ g)
    (hhi : g < p.totalFrames) : g ∈ p.freeFrameSet := ⟨hhi, h.free g hlo hhi⟩

/-- With two frames left, the first page gets the second one, and there is none for the table.  The
    directory is freed, the page is not. -/
theorem scarce16_loses_frame : ∃ e k',
    elfExec scarce16 0 (Image.oneSegment [0x10, 0, 0, 0]) = some (.error e, k') ∧
      k'.vm.pfa.freeFrameSet ≠ scarce16.vm.pfa.freeFrameSet := by
  obtain ⟨hk, hfree, htotal⟩ := scarce16_spec
  have hvalid : (Image.oneSegment [0x10, 0, 0, 0]).validate = none := by decide
  have hzero := hfree.used 0 (by decide) (by rw [htotal]; decide)
  obtain ⟨e, k', herror⟩ := @elfExec_error_of_few scarce16 0 _ hk 0xFFE hfree (by decide)
    (by rw [htotal]; decide) (by rw [htotal]) hvalid
  refine ⟨e, k', herror, fun hsame => ?_⟩
  rcases elfExec_spec hk hzero herror with
    ⟨e', hinvalid, -, -⟩ | ⟨-, -, ⟨hfew, -⟩ | ⟨-, g, hgfree, hlost⟩⟩ | ⟨_, _, _, _, _, _, hok, -⟩
  · exact absurd (hvalid.symm.trans hinvalid) (by simp)
  · have hfrees : ∀ g, 0xFFE ≤ g → g < 0x1000 → g ∈ scarce16.vm.pfa.freeFrameSet := by
      intro g hlo hhi
      rw [← htotal] at hhi
      exact mem_freeFrameSet hfree hlo hhi
    have heq := Pfa.getFreeFrameCount_le_one_iff.mp hfew 0xFFE (hfrees _ (by decide) (by decide))
      0xFFF (hfrees _ (by decide) (by decide))
    exact absurd heq (by decide)
  · rw [hsame] at hlost
    exact hlost hgfree
  · cases hok

end

/-! ## Mappings a started task lacks -/

section

variable {k k' : Kernel} {cpu : Cpu} {f : Image} {t : Tid}

/-- The addresses that the kernel uses with a task's directory in CR3: its image, the task's
    kernel stack, the heap. -/
def KernelAddr (bssEnd stack v : Nat) : Prop :=
  (0x2000 ≤ v ∧ v < bssEnd) ∨ (stack ≤ v ∧ v < stack + taskStackSize) ∨
    (heapStart ≤ v ∧ v < heapStart + heapSize)

/-- These addresses are mapped for the task as they are for the kernel. -/
def KernelMapped (k : Kernel) (bssEnd : Nat) (t : Tid) : Prop :=
  ∀ v, KernelAddr bssEnd (k.tasks t).kernelStackBase v →
    translate k.vm.mem (k.tasks t).pageDir v = translate k.vm.mem k.vm.kernelDir v

/-- Whatever the file, no started task has the kernel's addresses mapped as the kernel has, if
    the kernel has mapped some page of its image, which lies below 8 MB. -/
theorem not_kernelMapped (hk : k.vm.Tables k.vm.kernelDir) (hzero : k.vm.pfa.testBit 0 = true)
    {bssEnd v : Nat} (himage : 0x2000 ≤ v ∧ v < bssEnd) (hlow : v < userElfBase)
    (hmapped : translate k.vm.mem k.vm.kernelDir v ≠ none)
    (h : elfExec k cpu f = some (.ok t, k')) : ¬ KernelMapped k' bssEnd t := by
  intro hall
  obtain ⟨pd, table, page, i, st, hstarted⟩ := started_of_elfExec hk hzero h
  have hbase : userElfBase = 0x800000 := rfl
  -- the entries of the first 8 MB were cleared, those of the kernel's directory are as before
  have hnone : translate k'.vm.mem (k'.tasks t).pageDir v = none := by
    rw [translate_eq, hstarted.pageDir.1, hstarted.pageAt_low (by unfold pdeIdx; omega)]
    rfl
  have hkernel : translate k'.vm.mem k'.vm.kernelDir v = translate k.vm.mem k.vm.kernelDir v := by
    rw [translate_eq, translate_eq, hstarted.pageAt_kernelDir hk]
  exact hmapped (hkernel.symm.trans ((hall v (.inl himage)).symm.trans hnone))

theorem machine16_elfExec :
    ∃ t k', elfExec machine16 0 (Image.oneSegment [0x10, 0, 0, 0]) = some (.ok t, k') := by
  obtain ⟨hk, hfree, htotal⟩ := machine16_spec
  have hload : ∀ i, i < (Image.oneSegment [0x10, 0, 0, 0]).ePhnum →
      (Image.oneSegment [0x10, 0, 0, 0]).pType i = ptLoad →
      (Image.oneSegment [0x10, 0, 0, 0]).pVaddr i + (Image.oneSegment [0x10, 0, 0, 0]).pMemsz i
        < 2 ^ 32 := by decide
  exact elfExec_ok hk hfree (by decide) (by rw [htotal]; decide) (by decide) hload

theorem machine16_image : translate machine16.vm.mem machine16.vm.kernelDir 0x2000 ≠ none := by
  rw [translate_eq, machine16_identity.page 0x2000, if_pos (by decide)]
  simp

theorem not_kernelMapped_machine16 : ∃ t k',
    elfExec machine16 0 (Image.oneSegment [0x10, 0, 0, 0]) = some (.ok t, k') ∧
      ¬ KernelMapped k' 0x100000 t := by
  obtain ⟨hk, -, -⟩ := machine16_spec
  obtain ⟨t, k', hok⟩ := machine16_elfExec
  exact ⟨t, k', hok, not_kernelMapped hk machine16_zero (by decide) (by decide) machine16_image hok⟩

/-- The first page of the image is mapped for the kernel, and not for the task. -/
theorem machine16_not_kernelMapped : ∃ t k',
    elfExec machine16 0 (Image.oneSegment [0x10, 0, 0, 0]) = some (.ok t, k') ∧
      KernelAddr 0x100000 (k'.tasks t).kernelStackBase 0x2000 ∧
      translate k'.vm.mem (k'.tasks t).pageDir 0x2000 = none ∧
      translate k'.vm.mem k'.vm.kernelDir 0x2000 ≠ none := by
  obtain ⟨hk, -, -⟩ := machine16_spec
  obtain ⟨t, k', hok⟩ := machine16_elfExec
  obtain ⟨pd, table, page, i, st, hstarted⟩ := started_of_elfExec hk machine16_zero hok
  have himage := machine16_image
  refine ⟨t, k', hok, .inl (by decide), ?_, ?_⟩
  · rw [translate_eq, hstarted.pageDir.1, hstarted.pageAt_low (by decide)]
    rfl
  · rw [translate_eq] at himage ⊢
    rwa [hstarted.pageAt_kernelDir hk]

end

end Noverix.Elf
