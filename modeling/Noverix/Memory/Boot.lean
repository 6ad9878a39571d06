/-
  The kernel's mappings at the end of boot (kernel/kernel.c, kernel_main).

  The kernel reaches a frame at its physical address, so every frame that the
  allocator may hand out should be mapped to itself.  All mappings made during
  boot are of that kind except those of the two paging tests: both map
  0x00F00000 to a frame that they free again, and leave the mapping in place.
-/

import Noverix.Memory.PageMap

namespace Noverix.Memory

open Lib

/-! ## The model -/

abbrev testVirt : Nat := 0x00F00000

namespace Vm

/-- The first paging test of `kernel_main`. -/
def pagingDeepTest (s : Vm) : Vm :=
  let phys := s.allocFrame.1
  let s := s.allocFrame.2
  if phys = 0 then s
  else
    let s := s.storeWord phys 0xDEADBEEF
    let s := s.storeWord (phys + 4) 0xCAFEBABE
    let s := (s.mapPage testVirt phys pageWrite).2
    let s := s.storeWord testVirt 0x12345678
    s.freeFrame phys

/-- The second one. -/
def mapPageTest (s : Vm) : Vm :=
  let phys := s.allocFrame.1
  let s := s.allocFrame.2
  if phys = 0 then s
  else
    let s := (s.mapPage testVirt phys pageWrite).2
    s.freeFrame phys

/-- `pfa_init`. -/
def bootPfa (mem : Mem) (ram bssEnd : UInt32) : Vm := ⟨mem, Pfa.init ram bssEnd, 0⟩

theorem bootPfa_pfa (mem : Mem) (ram bssEnd : UInt32) :
    (bootPfa mem ram bssEnd).pfa = Pfa.init ram bssEnd := by
  simp only [bootPfa]

/-- What `kernel_main` does to the mappings up to the end of the first test. -/
def bootTested (s : Vm) (ram : UInt32) : Vm :=
  (s.initPaging ram).2.pagingEnableUserAccess.pagingDeepTest

end Vm

/-- The other steps of boot.  The memory of devices and firmware tables is mapped to itself
    (`acpi_parse_madt`, `lapic_init`, `ioapic_init`, `start_aps`, the frame buffer), and frames are
    taken and freed and memory is written. -/
inductive BootOp where
  | mapIdentity (addr flags : UInt32)
  | other (mem : Mem) (pfa : Pfa)

def bootStep : BootOp → Vm → Vm
  | .mapIdentity addr flags, s => (s.mapPage addr.toNat addr.toNat flags.toNat).2
  | .other mem pfa, s => { s with mem := mem, pfa := pfa }

/-- The addresses mapped to themselves are `ok`; the other steps leave the tables alone. -/
def BootAllowed (ok : Nat → Prop) : BootOp → Vm → Prop
  | .mapIdentity addr _, _ => ok addr.toNat
  | .other mem pfa, s => s.LeavesTables mem pfa ∧ pfa.totalFrames = s.pfa.totalFrames

/-- Every frame that the allocator can still return is mapped to itself. -/
def ManagedIdentity (s : Vm) : Prop :=
  ∀ f, f < s.pfa.totalFrames → s.pfa.testBit f = false →
    s.getPageMapping (f * 4096) = some (f * 4096)

/-! ## The mappings during boot -/

/-- Memory is mapped to itself except for the page of the tests, which is mapped to `p`. -/
structure BootMap (ram : Nat) (frames : Nat) (s : Vm) (p : Nat) : Prop where
  tables : s.Tables s.kernelDir
  total : s.pfa.totalFrames = frames
  page : ∀ w, pageNo w < 1024 * Vm.tableCount ram → pageNo w ≠ 0xF00 →
    s.getPageMapping w = some (pageNo w * 4096)
  test : ∀ w, pageNo w = 0xF00 → s.getPageMapping w = some p

namespace BootMap

variable {ram frames p : Nat} {s s' : Vm}

section

variable (h : BootMap ram frames s p)
include h

theorem leaves {mem : Mem} {pfa : Pfa} (hleaves : s.LeavesTables mem pfa)
    (htotal : pfa.totalFrames = s.pfa.totalFrames) :
    BootMap ram frames { s with mem := mem, pfa := pfa } p := by
  obtain ⟨htables, hpage⟩ := h.tables.leaves hleaves
  refine ⟨htables, htotal.trans h.total, fun w hw hne => ?_, fun w hw => ?_⟩
  · exact (hpage w).trans (h.page w hw hne)
  · exact (hpage w).trans (h.test w hw)

/-- The page of `virt` is mapped: to itself, or it is the page of the tests. -/
theorem remaps {virt v : Nat} (hmap : s.Remaps s.kernelDir virt (some v) s')
    (hv : pageNo virt = 0xF00 ∨ v = pageNo virt * 4096) :
    BootMap ram frames s' (if pageNo virt = 0xF00 then v else p) := by
  have hread : ∀ w, s'.getPageMapping w =
      if pageNo w = pageNo virt then some v else s.getPageMapping w := by
    intro w
    show pageAt s'.mem s'.kernelDir w = _
    rw [hmap.kernelDir]
    exact hmap.page w
  refine ⟨hmap.kernelDir ▸ hmap.tables, hmap.grew.total.trans h.total, fun w hw hne => ?_,
    fun w hw => ?_⟩
  · rw [hread w]
    split
    · next heq => rcases hv with htest | rfl <;> [exact absurd (heq.trans htest) hne; rw [heq]]
    · exact h.page w hw hne
  · rw [hread w, hw]
    by_cases htest : pageNo virt = 0xF00
    · rw [if_pos htest.symm, if_pos htest]
    rw [if_neg (Ne.symm htest), if_neg htest]
    exact h.test w hw

theorem step {ok : Nat → Prop} {op : BootOp} (hop : BootAllowed ok op s) :
    ∃ p', BootMap ram frames (bootStep op s) p' ∧ ((∀ a, ok a → pageNo a ≠ 0xF00) → p' = p) := by
  cases op with
  | mapIdentity addr flags =>
    have hpage : addr.toNat / 4096 * 4096 = pageNo addr.toNat * 4096 := by
      have hlt := addr.toNat_lt
      unfold pageNo
      omega
    rcases @Vm.mapPageToDir_spec s s.kernelDir addr.toNat addr.toNat flags.toNat h.tables
      addr.toNat_lt with ⟨-, hmap, -⟩ | ⟨-, hstate, -⟩
    · exact ⟨_, h.remaps hmap (.inr hpage), fun hok => if_neg (hok _ hop)⟩
    refine ⟨p, ?_, fun _ => rfl⟩
    show BootMap ram frames (s.mapPageToDir _ _ _ _).2 p
    rw [hstate]
    have hgrew := s.pfa.grew_allocFrame
    exact h.leaves (h.tables.leaves_grew hgrew) hgrew.total
  | other mem pfa => exact ⟨p, h.leaves hop.1 hop.2, fun _ => rfl⟩

variable {i : Nat}

/-- Both tests, from the call of `map_page` on: the page of the tests is mapped to their frame. -/
theorem mapTest (hi : i < s.pfa.totalFrames) (hfree : ¬ s.TablePage (i * 4096)) :
    ∃ s', s.mapPage testVirt (i * 4096) pageWrite = (true, s') ∧
      BootMap ram frames s' (i * 4096) ∧ ¬ s'.TablePage (i * 4096) ∧ s'.pfa = s.pfa := by
  have hsmall := h.tables.total
  have htest : pageNo testVirt = 0xF00 := by decide
  -- there is a table for the page of the tests
  have hpresent : entry s.mem s.kernelDir (pdeIdx testVirt) % 2 = 1 := by
    rcases Nat.mod_two_eq_zero_or_one (entry s.mem s.kernelDir (pdeIdx testVirt)) with heven | hodd
    · exact absurd ((h.test testVirt htest).symm.trans (pageAt_of_absent heven)) (by simp)
    · exact hodd
  rcases @Vm.mapPageToDir_spec s s.kernelDir testVirt (i * 4096) pageWrite h.tables (by omega) with
    ⟨hok, hmap, -⟩ | ⟨-, -, -, heven⟩
  · have hmapped := h.remaps hmap (.inl htest)
    rw [if_pos htest, Nat.mul_div_cancel i (by decide)] at hmapped
    refine ⟨_, Prod.ext hok rfl, hmapped, ?_, hmap.allocates hpresent⟩
    -- its tables are those it had
    show ¬ (s.mapPageToDir s.kernelDir testVirt (i * 4096) pageWrite).2.TablePage (i * 4096)
    unfold Vm.TablePage at hfree ⊢
    rw [hmap.kernelDir]
    rintro (heq | ⟨j, hj, hodd, heq⟩)
    · exact hfree (.inl heq)
    · rw [hmap.entries j hj fun hjv => hjv ▸ hpresent] at hodd heq
      exact hfree (.inr ⟨j, hj, hodd, heq⟩)
  · omega

theorem freeTest (hi : i < s.pfa.totalFrames) (hpos : 0 < i)
    (hfree : ¬ s.TablePage (i * 4096)) : BootMap ram frames (s.freeFrame (i * 4096)) p := by
  have hsmall := h.tables.total
  have hframe : frameOf (addrOf i) = i := frameOf_addrOf (by omega)
  have hgave := @Pfa.freeFrame_spec s.pfa (addrOf i) (by omega) (by omega)
  rw [hframe] at hgave
  exact h.leaves (h.tables.leaves_gave hgave hfree) hgave.total

theorem storeWord {virt a : Nat} (v : Nat) (hmapped : s.getPageMapping virt = some a)
    (hword : virt % 4096 + 4 ≤ 4096) (hfree : ¬ s.TablePage a) :
    BootMap ram frames (s.storeWord virt v) p ∧ (s.storeWord virt v).pfa = s.pfa ∧
      ∀ t, (s.storeWord virt v).TablePage t ↔ s.TablePage t := by
  obtain ⟨mem, heq, hleaves⟩ := h.tables.storeWord v hmapped hword hfree
  rw [heq]
  exact ⟨h.leaves hleaves rfl, rfl, fun t => hleaves.tablePage_iff⟩

theorem allocTest (hsome : s.allocFrame.1 ≠ 0) :
    ∃ i, s.allocFrame.1 = i * 4096 ∧ 0 < i ∧ i < frames ∧
      BootMap ram frames s.allocFrame.2 p ∧ ¬ s.allocFrame.2.TablePage (i * 4096) := by
  obtain ⟨i, hi, htook, -⟩ := Vm.allocFrame_spec h.tables.total hsome
  have hfits := htook.fits
  have htotal := h.total
  have hleaves := h.tables.leaves_grew htook.grew
  refine ⟨i, hi, by omega, by omega, h.leaves hleaves htook.total, ?_⟩
  rw [show s.allocFrame.2 = { s with mem := s.mem, pfa := s.allocFrame.2.pfa } from rfl,
    hleaves.tablePage_iff]
  exact fun ht => htook.ne_of_held (h.tables.held_of_tablePage ht) rfl

end

theorem freeFrame_allocFrame (s : Vm) :
    UInt32.ofNat s.allocFrame.1 = s.pfa.allocFrame.1 := UInt32.ofNat_toNat

theorem mapPageTest (h : BootMap ram frames s p) (hsome : s.allocFrame.1 ≠ 0) :
    BootMap ram frames s.mapPageTest s.allocFrame.1 ∧
      s.mapPageTest.pfa = s.pfa.allocFrame.2.freeFrame s.pfa.allocFrame.1 := by
  obtain ⟨i, hi, hpos, hlt, halloc, hfree⟩ := h.allocTest hsome
  obtain ⟨s', hmap, hmapped, hfree', hpfa⟩ := halloc.mapTest (halloc.total ▸ hlt) hfree
  have heq : s.mapPageTest = s'.freeFrame (i * 4096) := by
    unfold Vm.mapPageTest
    rw [if_neg hsome, hi, hmap]
  rw [heq, hi]
  refine ⟨hmapped.freeTest (hmapped.total ▸ hlt) hpos hfree', ?_⟩
  rw [← freeFrame_allocFrame, hi]
  exact congrArg (Pfa.freeFrame · _) hpfa

/-- The first test, which also writes to the frame at both addresses. -/
theorem pagingDeepTest (h : BootMap ram frames s (0xF00 * 4096))
    (hframes : frames ≤ 1024 * Vm.tableCount ram) :
    (∃ p', BootMap ram frames s.pagingDeepTest p') ∧
      s.pagingDeepTest.pfa = s.pfa.allocFrame.2.freeFrame s.pfa.allocFrame.1 := by
  by_cases hsome : s.allocFrame.1 = 0
  · have hgrew := s.pfa.grew_allocFrame
    have heq : s.pagingDeepTest = s.allocFrame.2 := by
      unfold Vm.pagingDeepTest
      rw [if_pos hsome]
    rw [heq, ← freeFrame_allocFrame, hsome]
    refine ⟨⟨0xF00 * 4096, h.leaves (h.tables.leaves_grew hgrew) hgrew.total⟩, ?_⟩
    exact (if_pos rfl).symm
  obtain ⟨i, hi, hpos, hlt, halloc, hfree⟩ := h.allocTest hsome
  have hsmall := h.tables.total
  have htotal := h.total
  -- the frame is still mapped to itself
  have hself : ∀ {s : Vm}, BootMap ram frames s (0xF00 * 4096) → ∀ w, pageNo w = i →
      s.getPageMapping w = some (i * 4096) := by
    intro s hs w hw
    by_cases htest : pageNo w = 0xF00
    · rw [hs.test w htest, ← hw, htest]
    · rw [hs.page w (by omega) htest, hw]
  obtain ⟨h1, hpfa1, hpages1⟩ := halloc.storeWord 0xDEADBEEF
    (hself halloc (i * 4096) (by unfold pageNo; omega)) (by omega) hfree
  obtain ⟨h2, hpfa2, hpages2⟩ := h1.storeWord 0xCAFEBABE
    (hself h1 (i * 4096 + 4) (by unfold pageNo; omega)) (by omega)
    (mt (hpages1 _).mp hfree)
  obtain ⟨s3, hmap, h3, hfree3, hpfa3⟩ := h2.mapTest (h2.total ▸ hlt)
    (mt ((hpages2 _).trans (hpages1 _)).mp hfree)
  obtain ⟨h4, hpfa4, hpages4⟩ := h3.storeWord 0x12345678 (h3.test testVirt (by decide))
    (by decide) hfree3
  have heq : s.pagingDeepTest = (s3.storeWord testVirt 0x12345678).freeFrame (i * 4096) := by
    unfold Vm.pagingDeepTest
    rw [if_neg hsome, hi]
    simp only [hmap]
  rw [heq]
  refine ⟨⟨i * 4096, h4.freeTest (h4.total ▸ hlt) hpos (mt (hpages4 _).mp hfree3)⟩, ?_⟩
  rw [← freeFrame_allocFrame, hi]
  exact congrArg (Pfa.freeFrame · _) (hpfa4.trans (hpfa3.trans (hpfa2.trans hpfa1)))

end BootMap

/-! ## The end of boot -/

theorem ramFrames_le_tables {ram : UInt32} :
    Pfa.ramFrames ram ≤ 1024 * Vm.tableCount ram.toNat := by
  unfold Pfa.ramFrames Vm.tableCount
  split <;> omega

theorem bootMap_bootTested {s : Vm} {ram : UInt32} (hram : 0x1000000 ≤ ram.toNat)
    (htotal : s.pfa.totalFrames = Pfa.ramFrames ram) (hdone : (s.initPaging ram).1 = true) :
    (∃ p, BootMap ram.toNat (Pfa.ramFrames ram) (s.bootTested ram) p) ∧
      (s.bootTested ram).pfa = (s.initPaging ram).2.pfa.allocFrame.2.freeFrame
        (s.initPaging ram).2.pfa.allocFrame.1 := by
  have hinit := Vm.initPaging_spec (htotal.symm ▸ Pfa.ramFrames_le ram) hdone
  obtain ⟨htables, hpfa, hsame⟩ := Vm.pagingEnableUserAccess_spec hinit.tables
  have hgrew := Vm.grew_initPaging s ram
  have hcount : 4 ≤ Vm.tableCount ram.toNat := by
    unfold Vm.tableCount
    omega
  have hpage : ∀ w, pageNo w < 1024 * Vm.tableCount ram.toNat →
      (s.initPaging ram).2.pagingEnableUserAccess.getPageMapping w = some (pageNo w * 4096) :=
    fun w hw => (hsame w).trans ((hinit.page w).trans (if_pos hw))
  have hstart : BootMap ram.toNat (Pfa.ramFrames ram)
      (s.initPaging ram).2.pagingEnableUserAccess (0xF00 * 4096) := by
    refine ⟨htables, ?_, fun w hw _ => hpage w hw, fun w hw => ?_⟩
    · rw [hpfa, hgrew.total, htotal]
    · rw [hpage w (by omega), hw]
  rw [← hpfa]
  exact hstart.pagingDeepTest ramFrames_le_tables

theorem bootMap_of_reach {ram frames p : Nat} {ok : Nat → Prop} {s0 s : Vm}
    (h : Reach bootStep (BootAllowed ok) s0 s) (h0 : BootMap ram frames s0 p) :
    ∃ p', BootMap ram frames s p' ∧ ((∀ a, ok a → pageNo a ≠ 0xF00) → p' = p) := by
  refine h.invariant
    (fun s => ∃ p', BootMap ram frames s p' ∧ ((∀ a, ok a → pageNo a ≠ 0xF00) → p' = p))
    ⟨p, h0, fun _ => rfl⟩ ?_
  rintro op s ⟨p', hs, hkept⟩ hop
  obtain ⟨p'', hs', hkept'⟩ := hs.step hop
  exact ⟨p'', hs', fun hok => (hkept' hok).trans (hkept hok)⟩

/-- Whatever else boot does: every frame that the allocator can still return is mapped to itself
    iff the frame at 0x00F00000 is in use, or the second paging test happened to get it. -/
theorem managedIdentity_iff {mem : Mem} {ram bssEnd : UInt32} (hram : 0x1000000 ≤ ram.toNat)
    (hdone : ((Vm.bootPfa mem ram bssEnd).initPaging ram).1 = true) {s₁ s₂ : Vm}
    (hbefore : Reach bootStep (BootAllowed fun _ => True)
      ((Vm.bootPfa mem ram bssEnd).bootTested ram) s₁)
    (htest : s₁.allocFrame.1 ≠ 0)
    (hafter : Reach bootStep (BootAllowed fun a => pageNo a ≠ 0xF00) s₁.mapPageTest s₂) :
    ManagedIdentity s₂ ↔ s₂.pfa.testBit 0xF00 = true ∨ s₁.allocFrame.1 = 0x00F00000 := by
  have hinit : (Vm.bootPfa mem ram bssEnd).pfa.totalFrames = Pfa.ramFrames ram := by
    rw [Vm.bootPfa_pfa, (Pfa.init_spec ram bssEnd).1]
  obtain ⟨⟨p, htested⟩, -⟩ := bootMap_bootTested hram hinit hdone
  obtain ⟨p₁, hmap₁, -⟩ := bootMap_of_reach hbefore htested
  obtain ⟨p₂, hmap₂, hkept⟩ := bootMap_of_reach hafter (hmap₁.mapPageTest htest).1
  obtain rfl : p₂ = s₁.allocFrame.1 := hkept fun _ ha => ha
  have hframes := @ramFrames_le_tables ram
  have hsmall := hmap₂.tables.total
  have htotal := hmap₂.total
  have htestFrame : 0xF00 < s₂.pfa.totalFrames := by
    have hmax : maxMemory = 0x40000000 := rfl
    rw [htotal]
    unfold Pfa.ramFrames
    split <;> omega
  constructor
  · intro hall
    -- the frame of the tests is taken, or mapped to itself
    cases hbit : s₂.pfa.testBit 0xF00 with
    | true => exact .inl rfl
    | false =>
      have hself := hall 0xF00 htestFrame hbit
      rw [hmap₂.test (0xF00 * 4096) (by decide)] at hself
      exact .inr (Option.some.inj hself)
  · intro hcond f hf hbit
    have hpage : pageNo (f * 4096) = f := by
      unfold pageNo
      omega
    by_cases hftest : f = 0xF00
    · subst hftest
      rcases hcond with htaken | hself
      · exact absurd (htaken.symm.trans hbit) (by decide)
      · rw [hmap₂.test _ hpage, hself]
    · rw [hmap₂.page _ (by omega) (by omega), hpage]

/-! ### 16 MB -/

/-- Memory of zero bytes, 16 MB of it, and a kernel that ends at 1 MB. -/
def boot16 : Vm := Vm.bootPfa (fun _ => 0) 0x1000000 0x100000

theorem freeFrom_test {q : Pfa} {n : Nat} (h : q.FreeFrom n) (hpos : 0 < n)
    (hn : n < q.totalFrames) :
    (q.allocFrame.2.freeFrame q.allocFrame.1).FreeFrom n ∧
      (q.allocFrame.2.freeFrame q.allocFrame.1).totalFrames = q.totalFrames := by
  obtain ⟨haddr, htotal, hfree⟩ := h.allocFrame hn
  obtain ⟨htotal', hfree'⟩ := hfree.freeFrame hpos (htotal.symm ▸ hn)
  rw [haddr]
  exact ⟨hfree', htotal'.trans htotal⟩

theorem boot16_initPaging : (boot16.initPaging 0x1000000).1 = true ∧
    (boot16.initPaging 0x1000000).2.pfa.FreeFrom 0x105 ∧
    (boot16.initPaging 0x1000000).2.pfa.totalFrames = 0x1000 ∧
    boot16.pfa.totalFrames = 0x1000 := by
  have hpfa : boot16.pfa = Pfa.init 0x1000000 0x100000 := Vm.bootPfa_pfa ..
  have hkernel : Pfa.kernelFrames 0x100000 = 0x100 := by decide
  have hram : Pfa.ramFrames 0x1000000 = 0x1000 := by decide
  have htables : Vm.tableCount 0x1000000 = 4 := by decide
  have hword : (0x1000000 : UInt32).toNat = 0x1000000 := rfl
  have htotal : boot16.pfa.totalFrames = 0x1000 := by
    rw [hpfa, (Pfa.init_spec ..).1, hram]
  have hfree : boot16.pfa.FreeFrom 0x100 := by
    rw [hpfa, ← hkernel]
    exact Pfa.freeFrom_init (by omega)
  obtain ⟨hdone, htotal', hfree'⟩ := @Vm.initPaging_done boot16 0x1000000 0x100
    (by omega) hfree (by decide) (by rw [hword, htables, htotal]; decide)
  rw [hword, htables] at hfree'
  exact ⟨hdone, hfree', htotal'.trans htotal, htotal⟩

theorem boot16_spec : (boot16.initPaging 0x1000000).1 = true ∧
    (boot16.bootTested 0x1000000).pfa.FreeFrom 0x105 ∧
    (boot16.bootTested 0x1000000).pfa.totalFrames = 0x1000 ∧
    ∃ p, BootMap 0x1000000 0x1000 (boot16.bootTested 0x1000000) p := by
  have hram : Pfa.ramFrames 0x1000000 = 0x1000 := by decide
  obtain ⟨hdone, hfree, htotal', htotal⟩ := boot16_initPaging
  obtain ⟨hmap, htested⟩ := bootMap_bootTested (by decide) (htotal.trans hram.symm) hdone
  rw [hram] at hmap
  obtain ⟨hfree', htotal''⟩ := freeFrom_test hfree (by decide) (by rw [htotal']; decide)
  rw [htested]
  exact ⟨hdone, hfree', htotal''.trans htotal', hmap⟩

/-- With 16 MB, both tests get another frame, and the one at 0x00F00000 is still free. -/
theorem managedIdentity_iff_boot16 :
    ManagedIdentity (boot16.bootTested 0x1000000).mapPageTest ↔
      (boot16.bootTested 0x1000000).mapPageTest.pfa.testBit 0xF00 = true ∨
        (boot16.bootTested 0x1000000).allocFrame.1 = 0x00F00000 := by
  obtain ⟨hdone, hfree, htotal, -⟩ := boot16_spec
  obtain ⟨haddr, -⟩ := Vm.allocFrame_freeFrom hfree (by rw [htotal]; decide)
  exact managedIdentity_iff (by decide) hdone .start (by rw [haddr]; decide) .start

theorem boot16_not_managedIdentity :
    ¬ ManagedIdentity (boot16.bootTested 0x1000000).mapPageTest := by
  obtain ⟨hdone, hfree, htotal, p, hmap⟩ := boot16_spec
  obtain ⟨haddr, -⟩ := Vm.allocFrame_freeFrom hfree (by rw [htotal]; decide)
  obtain ⟨hmap', hpfa⟩ := hmap.mapPageTest (by rw [haddr]; decide)
  obtain ⟨hfree', htotal'⟩ := freeFrom_test hfree (by decide) (by rw [htotal]; decide)
  rw [← hpfa] at hfree' htotal'
  intro hall
  have hself := hall 0xF00 (by rw [htotal', htotal]; decide)
    (hfree'.free 0xF00 (by decide) (by rw [htotal', htotal]; decide))
  rw [hmap'.test _ (by decide), haddr] at hself
  exact absurd hself (by decide)

end Noverix.Memory
