/-
  `unmap_page` on a machine with several CPUs (kernel/memory/paging.c,
  kernel/sync/tlb.c, kernel/apic/lapic.c).

  The call clears the entry of the page table, drops the page from the TLB of its
  own CPU, sends an interrupt to every other CPU and returns.  Each interrupt is
  a message that may take any time; its handler reloads CR3 and so empties the
  TLB of the CPU it arrives at.  The other CPUs go on using memory all the while.

  Nothing in the call waits for the handlers.  So what holds after it has returned
  depends on how the messages were delivered before it returned
  (`shootdown_safe_iff`).
-/

import Noverix.Lib.Runs
import Noverix.Memory.Tables

namespace Noverix.Memory

open Lib

/-! ## The model -/

/-- A translation in a TLB: the address of the entry it was loaded from, and the entry. -/
structure Cached where
  addr : Nat
  pte : Nat
deriving DecidableEq

/-- The address of the entry for `virt` in the page table that `dir` has for it. -/
def pteAddr (m : Mem) (dir virt : Nat) : Nat :=
  entry m dir (pdeIdx virt) / 4096 * 4096 + 4 * pteIdx virt

/-- The page walk of the processor. -/
def walk (m : Mem) (dir virt : Nat) : Option Cached :=
  if entry m dir (pdeIdx virt) % 2 = 0 then none
  else
    let pte := entry m (entry m dir (pdeIdx virt) / 4096 * 4096) (pteIdx virt)
    if pte % 2 = 0 then none else some ⟨pteAddr m dir virt, pte⟩

/-- How far `unmap_page` has come. -/
inductive Phase where
  /-- It has been called. -/
  | called
  /-- `unmap_page_from_dir` has returned 0. -/
  | removed
  /-- `invlpg` is done. -/
  | flushed
  /-- `lapic_send_ipi_all_exc_self` is done. -/
  | sent
  | returned (ok : Bool)
deriving DecidableEq

/-- The machine while CPU `self` is in `unmap_page(virt)`. -/
structure Smp where
  vm : Vm
  cpus : Nat
  /-- The directory each CPU runs on. -/
  cr3 : Nat → Nat
  /-- The TLB of each CPU, by page. -/
  tlb : Nat → Nat → Option Cached
  /-- The interrupts of vector `TLB_IPI_VECTOR` in flight, by destination. -/
  ipis : List Nat
  apicEnabled : Bool
  self : Nat
  virt : Nat
  phase : Phase
  /-- The address of the entry that the call has removed. -/
  removed : Option Nat

namespace Smp

/-- The TLBs without page `page` on CPU `cpu`. -/
def invlpg (s : Smp) (cpu page : Nat) : Nat → Nat → Option Cached :=
  Function.update s.tlb cpu (Function.update (s.tlb cpu) page none)

/-- The next step of `unmap_page`.  The lock is held around the first one. -/
def unmapNext (s : Smp) : Smp :=
  match s.phase with
  | .called =>
    if (s.vm.unmapPage s.virt).1 then
      { s with
        vm := (s.vm.unmapPage s.virt).2
        removed := some (pteAddr s.vm.mem s.vm.kernelDir s.virt)
        phase := .removed }
    else { s with phase := .returned false }
  | .removed => { s with tlb := s.invlpg s.self (pageNo s.virt), phase := .flushed }
  | .flushed =>
    if s.apicEnabled then
      { s with ipis := s.ipis ++ (List.range s.cpus).filter (· != s.self), phase := .sent }
    else { s with phase := .sent }
  | .sent => { s with phase := .returned true }
  | .returned _ => s

/-- The translation that CPU `cpu` uses for `virt`: the one in its TLB, or what a walk finds. -/
def lookup (s : Smp) (cpu virt : Nat) : Option Cached :=
  match s.tlb cpu (pageNo virt) with
  | some c => some c
  | none => walk s.vm.mem (s.cr3 cpu) virt

end Smp

/-- What happens on the machine. -/
inductive SmpOp where
  /-- The call under way takes its next step. -/
  | unmap
  /-- A CPU uses an address, and keeps the translation. -/
  | access (cpu virt : Nat)
  /-- An interrupt arrives: `tlb_ipi_handler`. -/
  | deliver (cpu : Nat)
  /-- A TLB loses an entry, as it may at any time. -/
  | evict (cpu page : Nat)

def smpStep : SmpOp → Smp → Smp
  | .unmap, s => s.unmapNext
  | .access cpu virt, s =>
    let mine := Function.update (s.tlb cpu) (pageNo virt) (s.lookup cpu virt)
    { s with tlb := Function.update s.tlb cpu mine }
  | .deliver cpu, s =>
    { s with
      ipis := s.ipis.erase cpu
      tlb := Function.update s.tlb cpu fun _ => none }
  | .evict cpu page, s => { s with tlb := s.invlpg cpu page }

/-- An interrupt arrives only where one was sent to. -/
def SmpAllowed : SmpOp → Smp → Prop
  | .deliver cpu, s => cpu ∈ s.ipis
  | _, _ => True

/-- The call has not done anything yet. -/
structure Called (s : Smp) : Prop where
  phase : s.phase = .called
  removed : s.removed = none

/-- Once the call has returned 0, no CPU translates the address through the entry that the call
    has removed. -/
def ShotDown (s : Smp) : Prop :=
  s.phase = .returned true →
    ∀ cpu, cpu < s.cpus → ∀ c, s.lookup cpu s.virt = some c → s.removed ≠ some c.addr

/-- CPU `cpu` has the removed entry in its TLB. -/
def Stale (s : Smp) (cpu : Nat) : Prop :=
  ∃ c, s.tlb cpu (pageNo s.virt) = some c ∧ s.removed = some c.addr

/-- The call returns only after the interrupt has arrived at every CPU that has the removed entry
    in its TLB; if no interrupts are sent, no other CPU has it. -/
def Acknowledged : SmpOp → Smp → Prop
  | .unmap, s => s.phase = .sent →
      (∀ cpu, cpu < s.cpus → cpu ∈ s.ipis → ¬ Stale s cpu) ∧
        (s.apicEnabled = false → ∀ cpu, cpu < s.cpus → cpu ≠ s.self → ¬ Stale s cpu)
  | _, _ => True

/-! ## Page walks -/

/-- The walk finds what `translate` says. -/
theorem translate_eq_walk (m : Mem) (dir virt : Nat) :
    translate m dir virt = (walk m dir virt).map fun c => c.pte / 4096 * 4096 + virt % 4096 := by
  unfold translate walk
  simp only
  by_cases hpde : entry m dir (pdeIdx virt) % 2 = 0
  · rw [if_pos hpde, if_pos hpde]
    rfl
  rw [if_neg hpde, if_neg hpde, apply_ite (Option.map _)]
  rfl

theorem walk_present {m : Mem} {dir virt : Nat} {c : Cached} (h : walk m dir virt = some c) :
    load32 m c.addr % 2 = 1 := by
  unfold walk at h
  simp only at h
  split at h
  · cases h
  split at h
  · cases h
  next hodd =>
  cases h
  exact Nat.mod_two_ne_zero.mp hodd

/-- `unmap_page_from_dir` that returns 0 leaves a zero at the address of the entry. -/
theorem unmapPage_clears {vm : Vm} {virt : Nat} (h : (vm.unmapPage virt).1 = true) :
    load32 (vm.unmapPage virt).2.mem (pteAddr vm.mem vm.kernelDir virt) = 0 := by
  unfold Vm.unmapPage Vm.unmapPageFromDir at h ⊢
  by_cases hpde : entry vm.mem vm.kernelDir (pdeIdx virt) % 2 = 0
  · rw [if_pos hpde] at h
    cases h
  rw [if_neg hpde] at h ⊢
  simp only at h ⊢
  by_cases hpte : entry vm.mem (entry vm.mem vm.kernelDir (pdeIdx virt) / 4096 * 4096)
      (pteIdx virt) % 2 = 0
  · rw [if_pos hpte] at h
    cases h
  rw [if_neg hpte]
  exact load32_store32_same ..

/-! ## The invariant -/

structure SmpInv (s : Smp) : Prop where
  /-- The entry that was removed reads as zero. -/
  gone : ∀ a, s.removed = some a → load32 s.vm.mem a = 0
  called : s.phase = .called → s.removed = none
  /-- After `invlpg` the call's own CPU does not have it. -/
  own : s.phase ≠ .called → s.phase ≠ .removed → ¬ Stale s s.self
  /-- A CPU that has it has an interrupt on its way. -/
  mail : s.phase = .sent → s.apicEnabled = true →
    ∀ cpu, cpu < s.cpus → cpu ≠ s.self → Stale s cpu → cpu ∈ s.ipis
  done : s.phase = .returned true → ∀ cpu, cpu < s.cpus → ¬ Stale s cpu

/-- What goes on around the call: TLBs get no new copy of the removed entry, and lose what they
    have once their interrupt has arrived. -/
structure Ages (s s' : Smp) : Prop where
  vm : s'.vm = s.vm
  cpus : s'.cpus = s.cpus
  apic : s'.apicEnabled = s.apicEnabled
  self : s'.self = s.self
  phase : s'.phase = s.phase
  removed : s'.removed = s.removed
  stale : ∀ cpu, Stale s' cpu → Stale s cpu ∧ (cpu ∈ s.ipis → cpu ∈ s'.ipis)

section

variable {s s' : Smp}

theorem Called.inv (h : Called s) : SmpInv s where
  gone a ha := absurd (h.removed.symm.trans ha) (by simp)
  called _ := h.removed
  own hphase := absurd h.phase hphase
  mail hphase := absurd (h.phase.symm.trans hphase) (by decide)
  done hphase := absurd (h.phase.symm.trans hphase) (by decide)

theorem SmpInv.shotDown_iff (h : SmpInv s) :
    ShotDown s ↔ (s.phase = .returned true → ∀ cpu < s.cpus, ¬ Stale s cpu) := by
  constructor
  · rintro hsafe hphase cpu hcpu ⟨c, hc, hrem⟩
    refine hsafe hphase cpu hcpu c ?_ hrem
    unfold Smp.lookup
    rw [hc]
  · intro hstale hphase cpu hcpu c hc hrem
    unfold Smp.lookup at hc
    cases htlb : s.tlb cpu (pageNo s.virt) with
    | some c' =>
      rw [htlb] at hc
      rw [← some.inj hc] at hrem
      exact hstale hphase cpu hcpu ⟨c', htlb, hrem⟩
    | none =>
      rw [htlb] at hc
      have hodd := walk_present hc
      rw [h.gone _ hrem] at hodd
      contradiction

theorem SmpInv.shotDown (h : SmpInv s) : ShotDown s := h.shotDown_iff.mpr h.done

theorem Ages.inv (h : SmpInv s) (ha : Ages s s') : SmpInv s' where
  gone a hrem := by
    rw [ha.vm]
    exact h.gone a (ha.removed ▸ hrem)
  called hphase := ha.removed.trans (h.called (ha.phase ▸ hphase))
  own hcalled hremoved hstale := by
    rw [ha.phase] at hcalled hremoved
    rw [ha.self] at hstale
    exact h.own hcalled hremoved (ha.stale _ hstale).1
  mail hphase happ cpu hcpu hother hstale := by
    rw [ha.phase] at hphase
    rw [ha.apic] at happ
    rw [ha.cpus] at hcpu
    rw [ha.self] at hother
    obtain ⟨hold, hmail⟩ := ha.stale cpu hstale
    exact hmail (h.mail hphase happ cpu hcpu hother hold)
  done hphase cpu hcpu hstale := by
    rw [ha.phase] at hphase
    rw [ha.cpus] at hcpu
    exact h.done hphase cpu hcpu (ha.stale cpu hstale).1

theorem ages_access (h : SmpInv s) (cpu virt : Nat) : Ages s (smpStep (.access cpu virt) s) := by
  refine ⟨rfl, rfl, rfl, rfl, rfl, rfl, ?_⟩
  rintro c ⟨e, he, hrem⟩
  refine ⟨?_, id⟩
  change update s.tlb cpu
    (update (s.tlb cpu) (pageNo virt) (s.lookup cpu virt)) c (pageNo s.virt) = some e at he
  by_cases hc : c = cpu
  · subst hc
    rw [update_self] at he
    by_cases hpage : pageNo s.virt = pageNo virt
    · rw [hpage, update_self] at he
      unfold Smp.lookup at he
      rw [← hpage] at he
      cases htlb : s.tlb c (pageNo s.virt) with
      | some e' =>
        rw [htlb] at he
        rw [← some.inj he] at hrem
        exact ⟨e', htlb, hrem⟩
      | none =>
        -- a walk finds present entries only, and the removed one is zero
        rw [htlb] at he
        have hodd := walk_present he
        rw [h.gone _ hrem] at hodd
        contradiction
    rw [update_of_ne hpage] at he
    exact ⟨e, he, hrem⟩
  rw [update_of_ne hc] at he
  exact ⟨e, he, hrem⟩

theorem ages_deliver (s : Smp) (cpu : Nat) : Ages s (smpStep (.deliver cpu) s) := by
  refine ⟨rfl, rfl, rfl, rfl, rfl, rfl, ?_⟩
  rintro c ⟨e, he, hrem⟩
  change update s.tlb cpu (fun _ => none) c (pageNo s.virt) = some e at he
  by_cases hc : c = cpu
  · subst hc
    rw [update_self] at he
    cases he
  rw [update_of_ne hc] at he
  exact ⟨⟨e, he, hrem⟩, (List.mem_erase_of_ne hc).mpr⟩

theorem invlpg_eq_some {cpu page c p : Nat} {e : Cached} (h : s.invlpg cpu page c p = some e) :
    ¬ (c = cpu ∧ p = page) ∧ s.tlb c p = some e := by
  unfold Smp.invlpg at h
  by_cases hc : c = cpu
  · subst hc
    rw [update_self] at h
    by_cases hp : p = page
    · subst hp
      rw [update_self] at h
      cases h
    rw [update_of_ne hp] at h
    exact ⟨fun hboth => hp hboth.2, h⟩
  rw [update_of_ne hc] at h
  exact ⟨fun hboth => hc hboth.1, h⟩

theorem ages_evict (s : Smp) (cpu page : Nat) : Ages s (smpStep (.evict cpu page) s) := by
  refine ⟨rfl, rfl, rfl, rfl, rfl, rfl, ?_⟩
  rintro c ⟨e, he, hrem⟩
  exact ⟨⟨e, (invlpg_eq_some he).2, hrem⟩, id⟩

/-! ## The steps of the call -/

section

variable (h : SmpInv s)
include h

theorem SmpInv.remove (hphase : s.phase = .called) : SmpInv s.unmapNext := by
  unfold Smp.unmapNext
  rw [hphase]
  simp only
  by_cases hok : (s.vm.unmapPage s.virt).1 = true
  · rw [if_pos hok]
    refine ⟨fun a ha => ?_, fun hcalled => ?_, fun _ hremoved => ?_, fun hsent => ?_,
      fun hret => ?_⟩
    · rw [← some.inj ha]
      exact unmapPage_clears hok
    · cases hcalled
    · exact absurd rfl hremoved
    · cases hsent
    · cases hret
  rw [if_neg hok]
  -- nothing is removed, so no TLB has it
  have hnone : ∀ cpu, ¬ Stale { s with phase := .returned false } cpu := by
    rintro cpu ⟨e, -, hrem⟩
    exact absurd ((h.called hphase).symm.trans hrem) (by simp)
  exact ⟨h.gone, fun _ => h.called hphase, fun _ _ => hnone _, fun _ _ cpu _ _ hst =>
    absurd hst (hnone cpu), fun _ cpu _ => hnone cpu⟩

theorem SmpInv.flush (hphase : s.phase = .removed) : SmpInv s.unmapNext := by
  unfold Smp.unmapNext
  rw [hphase]
  simp only
  refine ⟨h.gone, fun hcalled => ?_, fun _ _ => ?_, fun hsent => ?_, fun hret => ?_⟩
  · cases hcalled
  · rintro ⟨e, he, -⟩
    exact (invlpg_eq_some he).1 ⟨rfl, rfl⟩
  · cases hsent
  · cases hret

theorem SmpInv.send (hphase : s.phase = .flushed) : SmpInv s.unmapNext := by
  have hown : ¬ Stale s s.self :=
    h.own (by rw [hphase]; decide) (by rw [hphase]; decide)
  unfold Smp.unmapNext
  rw [hphase]
  simp only
  by_cases hon : s.apicEnabled = true
  · rw [if_pos hon]
    refine ⟨h.gone, fun hcalled => ?_, fun _ _ => hown, fun _ _ cpu hcpu hother _ => ?_,
      fun hret => ?_⟩
    · cases hcalled
    · -- the broadcast has every other CPU among its destinations
      refine mem_append_right _ (List.mem_filter.mpr ⟨mem_range.mpr hcpu, ?_⟩)
      simpa using hother
    · cases hret
  rw [if_neg hon]
  refine ⟨h.gone, fun hcalled => ?_, fun _ _ => hown, fun _ happ => ?_, fun hret => ?_⟩
  · cases hcalled
  · exact absurd happ hon
  · cases hret

/-- When the call returns, it is the interrupts still in flight that matter. -/
theorem SmpInv.acknowledged_iff (hphase : s.phase = .sent) :
    (∀ cpu < s.cpus, ¬ Stale s cpu) ↔ Acknowledged .unmap s := by
  constructor
  · exact fun hnone _ => ⟨fun cpu hcpu _ => hnone cpu hcpu, fun _ cpu hcpu _ => hnone cpu hcpu⟩
  · intro hack cpu hcpu hstale
    obtain ⟨hmail, hoff⟩ := hack hphase
    by_cases hself : cpu = s.self
    · subst hself
      exact h.own (by rw [hphase]; decide) (by rw [hphase]; decide) hstale
    cases happ : s.apicEnabled with
    | true => exact hmail cpu hcpu (h.mail hphase happ cpu hcpu hself hstale) hstale
    | false => exact hoff happ cpu hcpu hself hstale

theorem SmpInv.return (hphase : s.phase = .sent) (hack : Acknowledged .unmap s) :
    SmpInv s.unmapNext := by
  have hnone := (h.acknowledged_iff hphase).mpr hack
  unfold Smp.unmapNext
  rw [hphase]
  simp only
  refine ⟨h.gone, fun hcalled => ?_, fun _ _ => ?_, fun hsent => ?_, fun _ => hnone⟩
  · cases hcalled
  · exact h.own (by rw [hphase]; decide) (by rw [hphase]; decide)
  · cases hsent

end

end

/-! ## Whole runs -/

/-- Every step keeps the invariant as long as the call does not return too early, and the property
    is lost when it does. -/
theorem smp_keeps {s : Smp} (h : SmpInv s) (op : SmpOp) :
    (Acknowledged op s → SmpInv (smpStep op s)) ∧
      (ShotDown (smpStep op s) → Acknowledged op s) := by
  cases op with
  | access cpu virt => exact ⟨fun _ => (ages_access h cpu virt).inv h, fun _ => trivial⟩
  | deliver cpu => exact ⟨fun _ => (ages_deliver s cpu).inv h, fun _ => trivial⟩
  | evict cpu page => exact ⟨fun _ => (ages_evict s cpu page).inv h, fun _ => trivial⟩
  | unmap =>
    show (Acknowledged .unmap s → SmpInv s.unmapNext) ∧
      (ShotDown s.unmapNext → Acknowledged .unmap s)
    cases hphase : s.phase with
    | called =>
      exact ⟨fun _ => h.remove hphase, fun _ hsent => absurd (hphase.symm.trans hsent) (by decide)⟩
    | removed =>
      exact ⟨fun _ => h.flush hphase, fun _ hsent => absurd (hphase.symm.trans hsent) (by decide)⟩
    | flushed =>
      exact ⟨fun _ => h.send hphase, fun _ hsent => absurd (hphase.symm.trans hsent) (by decide)⟩
    | sent =>
      refine ⟨h.return hphase, fun hsafe => (h.acknowledged_iff hphase).mp ?_⟩
      rintro cpu hcpu ⟨c, hc, hrem⟩
      have hnext : s.unmapNext = { s with phase := .returned true } := by
        unfold Smp.unmapNext
        rw [hphase]
      rw [hnext] at hsafe
      refine hsafe rfl cpu hcpu c ?_ hrem
      unfold Smp.lookup
      simp only [hc]
    | returned ok =>
      have hsame : s.unmapNext = s := by
        unfold Smp.unmapNext
        rw [hphase]
      rw [hsame]
      exact ⟨fun _ => h, fun _ hsent => absurd (hphase.symm.trans hsent) (by simp)⟩

/-- In every interleaving in which `unmap_page` returns only after the interrupt has arrived at each
    CPU that has the translation cached, no CPU uses the removed entry after the return; and from
    each state on the way, a step keeps it so exactly if it meets that condition. -/
theorem shootdown_safe_iff {s₀ s : Smp} (h0 : Called s₀)
    (h : Reach smpStep (fun op s => SmpAllowed op s ∧ Acknowledged op s) s₀ s) :
    ShotDown s ∧ ∀ op, SmpAllowed op s → (ShotDown (smpStep op s) ↔ Acknowledged op s) := by
  have hinv : SmpInv s :=
    h.invariant SmpInv h0.inv fun op s hs hop => (smp_keeps hs op).1 hop.2
  refine ⟨hinv.shotDown, fun op _ => ⟨(smp_keeps hinv op).2, fun hack => ?_⟩⟩
  exact ((smp_keeps hinv op).1 hack).shotDown

/-! ## Two CPUs -/

/-- Two CPUs on one directory, in which the page at 4 MB is mapped to frame `0x3000`; the first one
    calls `unmap_page` on it. -/
def twoCpus : Smp where
  vm := ⟨store32 (store32 (fun _ => 0) 4100 0x2003) 0x2000 0x3003, ⟨fun _ => 0, 0⟩, 4096⟩
  cpus := 2
  cr3 := fun _ => 4096
  tlb := fun _ _ => none
  ipis := []
  apicEnabled := true
  self := 0
  virt := 0x400000
  phase := .called
  removed := none

theorem called_twoCpus : Called twoCpus := ⟨rfl, rfl⟩

/-- The second CPU has used the page, and the call has sent its interrupt. -/
def twoCpusSent : Smp :=
  smpStep .unmap (smpStep .unmap (smpStep .unmap (smpStep (.access 1 0x400000) twoCpus)))

theorem reach_twoCpusSent :
    Reach smpStep (fun op s => SmpAllowed op s ∧ Acknowledged op s) twoCpus twoCpusSent := by
  have hearly : ∀ s : Smp, s.phase ≠ .sent → SmpAllowed .unmap s ∧ Acknowledged .unmap s :=
    fun s hs => ⟨trivial, fun hsent => absurd hsent hs⟩
  refine .next _ (.next _ (.next _ (.next _ .start ⟨trivial, trivial⟩) ?_) ?_) ?_ <;>
    exact hearly _ (by decide)

/-- The call returns while the interrupt is in flight: the second CPU still goes through the entry
    that is no longer there, to frame `0x3000`. -/
theorem twoCpus_returns_early :
    Called twoCpus ∧ Reach smpStep SmpAllowed twoCpus (smpStep .unmap twoCpusSent) ∧
      (smpStep .unmap twoCpusSent).lookup 1 0x400000 = some ⟨0x2000, 0x3003⟩ ∧
      ¬ ShotDown (smpStep .unmap twoCpusSent) := by
  refine ⟨called_twoCpus, ?_, by decide, fun hsafe => ?_⟩
  · exact .next _ (.next _ (.next _ (.next _ (.next _ .start trivial) trivial) trivial) trivial)
      trivial
  · exact hsafe (by decide) 1 (by decide) ⟨0x2000, 0x3003⟩ (by decide) (by decide)

/-- If the interrupt arrives before the call returns, the page is gone everywhere. -/
theorem shootdown_safe_iff_twoCpus :
    Reach smpStep (fun op s => SmpAllowed op s ∧ Acknowledged op s) twoCpus
        (smpStep .unmap (smpStep (.deliver 1) twoCpusSent)) ∧
      ShotDown (smpStep .unmap (smpStep (.deliver 1) twoCpusSent)) := by
  have harrived : (smpStep (.deliver 1) twoCpusSent).ipis = [] := by decide
  have hreach : Reach smpStep (fun op s => SmpAllowed op s ∧ Acknowledged op s) twoCpus
      (smpStep .unmap (smpStep (.deliver 1) twoCpusSent)) := by
    refine .next _ (.next _ reach_twoCpusSent ⟨?_, trivial⟩) ⟨trivial, fun _ => ⟨?_, ?_⟩⟩
    · show 1 ∈ twoCpusSent.ipis
      decide
    · intro cpu _ hmail
      rw [harrived] at hmail
      cases hmail
    · intro hoff
      contradiction
  exact ⟨hreach, (shootdown_safe_iff called_twoCpus hreach).1⟩

end Noverix.Memory
