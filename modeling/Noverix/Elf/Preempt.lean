/-
  Loading a program while the timer preempts the shell (kernel/elf.c, elf_exec).

  Between its two calls of `page_dir_switch` `elf_exec` stores the program
  through the new directory, with interrupts enabled.  A preemption switches to
  another task and later back to the shell, and `task_switch_from` then loads
  CR3 with the shell's directory, the kernel's.  From there on the program's
  addresses are those of the kernel's heap.
-/

import Noverix.Elf.Outcomes

namespace Noverix.Elf

open Lib Memory Sched

variable {bytes : List (Nat × UInt8)} {n table : Nat} {pre : Nat → Bool} {page : Nat → Nat}

/-! ## The steps of the load -/

/-- A step between two points where the timer may strike. -/
inductive LoadStep where
  | pageDirSwitch (dir : Nat)
  | store (bytes : List (Nat × UInt8))

/-- The stores, each with the bytes that one instruction writes: `lib_memcpy`, `lib_memset` and the
    trampoline store single bytes, the stack gets a word. -/
def storeGroups (f : Image) : List (List (Nat × UInt8)) :=
  (f.loadStores ++ trampoline).map (fun st => [st]) ++ [stackWord]

/-- From the first `page_dir_switch` to the second. -/
def loadSteps (f : Image) (pd kernelDir : Nat) : List LoadStep :=
  .pageDirSwitch pd :: ((storeGroups f).map .store ++ [.pageDirSwitch kernelDir])

/-- CR3, memory, and for every byte stored so far its virtual and its physical address. -/
structure Loading where
  cr3 : Nat
  mem : Mem
  written : List (Nat × Nat)

/-- A byte is stored through CR3; `none` if its page is not mapped. -/
def Loading.storeByte (s : Loading) (st : Nat × UInt8) : Option Loading :=
  (translate s.mem s.cr3 st.1).map fun a =>
    { s with mem := Function.update s.mem a st.2, written := s.written ++ [(st.1, a)] }

def Loading.storeBytes (s : Loading) (bytes : List (Nat × UInt8)) : Option Loading :=
  bytes.foldlM Loading.storeByte s

def LoadStep.run : LoadStep → Loading → Option Loading
  | .pageDirSwitch dir, s => some { s with cr3 := dir }
  | .store bytes, s => s.storeBytes bytes

/-- The shell is switched out and back in. -/
def Loading.preempt (s : Loading) (shellDir : Nat) (preempted : Bool) : Loading :=
  if preempted then { s with cr3 := shellDir } else s

/-- The steps from number `n` on, with a preemption before each step in `pre`. -/
def runSteps (shellDir : Nat) (pre : Nat → Bool) : Nat → List LoadStep → Loading → Option Loading
  | _, [], s => some s
  | n, step :: rest, s =>
    (step.run (s.preempt shellDir (pre n))).bind (runSteps shellDir pre (n + 1) rest)

/-- The new directory, and the machine when it is first switched to. -/
def mappedSpace (s : Vm) : Option (Nat × Vm) :=
  let pd := s.pageDirCreate.1
  let s := s.pageDirCreate.2
  if pd = 0 then none
  else
    let r := mapUserPages pd userPageCount userElfBase
      { s with mem := setEntry s.mem pd userPdeIdx 0 }
    match r.1 with
    | some _ => none
    | none => some (pd, r.2)

/-- Every byte was stored in the frame that `pd` maps its address to, and none in the heap. -/
def StoredSafely (m : Mem) (pd : Nat) (written : List (Nat × Nat)) : Prop :=
  ∀ p ∈ written, translate m pd p.1 = some p.2 ∧
    ¬ (heapStart ≤ p.2 ∧ p.2 < heapStart + heapSize)

/-! ## Runs of the steps -/

section

variable {shellDir : Nat} {pre : Nat → Bool} {s s' : Loading}

theorem storeBytes_cons (s : Loading) (st : Nat × UInt8) (bytes : List (Nat × UInt8)) :
    s.storeBytes (st :: bytes) = (s.storeByte st).bind fun s' => s'.storeBytes bytes :=
  foldlM_cons ..

/-- Nothing is taken out of the record, and every byte stored is in it. -/
theorem written_storeBytes (h : s.storeBytes bytes = some s') :
    (∀ p ∈ s.written, p ∈ s'.written) ∧ ∀ st ∈ bytes, ∃ a, (st.1, a) ∈ s'.written := by
  induction bytes generalizing s with
  | nil =>
    obtain rfl : s = s' := some.inj h
    exact ⟨fun _ hp => hp, fun st hst => absurd hst not_mem_nil⟩
  | cons st bytes ih =>
    rw [storeBytes_cons] at h
    obtain ⟨s1, hfirst, hrest⟩ := bind_eq_some_iff.mp h
    obtain ⟨a, -, rfl⟩ := map_eq_some_iff.mp hfirst
    obtain ⟨hkept, hall⟩ := ih hrest
    refine ⟨fun p hp => hkept p (mem_append_left _ hp), fun st' hst' => ?_⟩
    rcases mem_cons.mp hst' with rfl | hst'
    · exact ⟨a, hkept _ (mem_append_right _ (mem_singleton.mpr rfl))⟩
    · exact hall st' hst'

theorem preempt_written (s : Loading) (b : Bool) : (s.preempt shellDir b).written = s.written := by
  cases b <;> rfl

theorem written_runSteps {steps : List LoadStep} (h : runSteps shellDir pre n steps s = some s') :
    (∀ p ∈ s.written, p ∈ s'.written) ∧
      ∀ bytes, .store bytes ∈ steps → ∀ st ∈ bytes, ∃ a, (st.1, a) ∈ s'.written := by
  induction steps generalizing s n with
  | nil =>
    obtain rfl : s = s' := some.inj h
    exact ⟨fun _ hp => hp, fun _ hb => absurd hb not_mem_nil⟩
  | cons step rest ih =>
    obtain ⟨s1, hfirst, hrest⟩ := bind_eq_some_iff.mp h
    obtain ⟨hkept, hall⟩ := ih hrest
    cases step with
    | pageDirSwitch dir =>
      cases hfirst
      refine ⟨fun p hp => hkept p (by rw [preempt_written]; exact hp), fun bytes hb => ?_⟩
      rcases mem_cons.mp hb with heq | hb
      · exact absurd heq LoadStep.noConfusion
      · exact hall bytes hb
    | store bytes =>
      obtain ⟨hkept1, hall1⟩ := written_storeBytes hfirst
      rw [preempt_written] at hkept1
      refine ⟨fun p hp => hkept p (hkept1 p hp), fun bytes' hb st hst => ?_⟩
      rcases mem_cons.mp hb with heq | hb
      · obtain rfl := LoadStep.store.inj heq
        obtain ⟨a, ha⟩ := hall1 st hst
        exact ⟨a, hkept _ ha⟩
      · exact hall bytes' hb st hst

end

/-! ## Stores through the new directory -/

section

variable {k u : Vm} {pd table : Nat} {page : Nat → Nat} {m : Mem} {s s' : Loading}
  {pre : Nat → Bool}

theorem mappedSpace_spec (hk : k.Tables k.kernelDir) (hzero : k.pfa.testBit 0 = true)
    (h : mappedSpace k = some (pd, u)) :
    ∃ table page, UserSpace k pd table page userPageCount u := by
  have hfits := hk.dir_held.fits
  unfold mappedSpace at h
  simp only at h
  by_cases hnone : k.allocFrame.1 = 0
  · have hcreate : k.pageDirCreate.1 = 0 := by
      unfold Vm.pageDirCreate
      rw [if_pos hnone]
    rw [if_pos hcreate] at h
    cases h
  obtain ⟨hfst, hspace⟩ := @userSpace_create k 0 (fun _ => 0) hk hnone
  rw [hfst, if_neg hnone] at h
  rcases mapUserPages_spec hzero (by omega) hnone userPageCount 0 0 (fun _ => 0) _ hspace rfl with
    ⟨hdone, table, page, hspace'⟩ | ⟨⟨e, herror⟩, -⟩
  · rw [Nat.zero_mul, Nat.add_zero] at hdone hspace'
    rw [hdone] at h
    cases h
    exact ⟨table, page, hspace'⟩
  rw [Nat.zero_mul, Nat.add_zero] at herror
  rw [herror] at h
  cases h

theorem mappedSpace_ok {q : Nat} (hk : k.Tables k.kernelDir) (hfree : k.pfa.FreeFrom q) (hq : 0 < q)
    (hroom : q + 514 ≤ k.pfa.totalFrames) : ∃ pd u, mappedSpace k = some (pd, u) := by
  obtain ⟨hfst, hpd, hdone, -⟩ := mapUserPages_ok hk hfree hq hroom
  unfold mappedSpace
  simp only
  rw [hfst, if_neg hpd, hdone]
  exact ⟨_, _, rfl⟩

/-- The kernel's directory maps what it did while the program is stored in the user's frames. -/
theorem UserSpace.translate_kernelDir (h : UserSpace k pd table page userPageCount u)
    (hk : k.Tables k.kernelDir) (hm : OnlyPages page u.mem m) (v : Nat) :
    translate m u.kernelDir v = translate k.mem k.kernelDir v := by
  have hentry : ∀ a j, k.pfa.Held a → j < 1024 → entry m a j = entry k.mem a j := by
    intro a j ha hj
    rw [hm.entry ha.aligned hj fun l hl heq =>
      h.ne_of_held ha (.inr (.inr ⟨l, hl, rfl⟩)) heq.symm]
    exact h.kept a j ha hj
  rw [translate_eq, translate_eq, h.kernelDir]
  refine congrArg (Option.map _) (pageAt_congr (hentry _ _ hk.dir_held (pdeIdx_lt v)) fun hodd => ?_)
  exact hentry _ _ (hk.held _ (pdeIdx_lt v) hodd) (pteIdx_lt v)

/-- The program is being stored through the new directory, so far as it should be. -/
structure Undisturbed (u : Vm) (pd : Nat) (page : Nat → Nat) (s : Loading) : Prop where
  cr3 : s.cr3 = pd
  pages : OnlyPages page u.mem s.mem
  own : ∀ p ∈ s.written, translate u.mem pd p.1 = some p.2

section

variable (hspace : UserSpace k pd table page userPageCount u)
include hspace

theorem Undisturbed.storeBytes :
    ∀ (bytes : List (Nat × UInt8)) (s : Loading), Undisturbed u pd page s →
      (∀ st ∈ bytes, Image.InUserRange st) →
      ∃ s', s.storeBytes bytes = some s' ∧ Undisturbed u pd page s' ∧
        ∀ p ∈ s'.written, p ∈ s.written ∨ ∃ st ∈ bytes, st.1 = p.1
  | [], s, h, _ => ⟨s, rfl, h, fun _ hp => .inl hp⟩
  | st :: bytes, s, h, hin => by
    obtain ⟨hpte, htranslate⟩ := hspace.translate_user h.pages (hin st mem_cons_self)
    obtain ⟨-, hfirst⟩ := hspace.translate_user (fun _ _ => rfl) (hin st mem_cons_self)
    have hstore : s.storeByte st = some { s with
        mem := update s.mem (page (pteIdx st.1) * 4096 + st.1 % 4096) st.2
        written := s.written ++ [(st.1, page (pteIdx st.1) * 4096 + st.1 % 4096)] } := by
      unfold Loading.storeByte
      rw [h.cr3, htranslate]
      rfl
    have hnext : Undisturbed u pd page { s with
        mem := update s.mem (page (pteIdx st.1) * 4096 + st.1 % 4096) st.2
        written := s.written ++ [(st.1, page (pteIdx st.1) * 4096 + st.1 % 4096)] } := by
      refine ⟨h.cr3, fun a ha => ?_, fun p hp => ?_⟩
      · have hne := ha _ hpte
        show update s.mem _ _ a = _
        rw [update_of_ne (by omega), h.pages a ha]
      · rcases mem_append.mp hp with hp | hp
        · exact h.own p hp
        rw [mem_singleton.mp hp]
        exact hfirst
    obtain ⟨s', hrest, hdone, hwritten⟩ := Undisturbed.storeBytes bytes _ hnext
      fun st' hst' => hin st' (mem_cons_of_mem _ hst')
    refine ⟨s', ?_, hdone, fun p hp => ?_⟩
    · rw [storeBytes_cons, hstore]
      exact hrest
    · rcases hwritten p hp with hp | ⟨st', hst', heq⟩
      · rcases mem_append.mp hp with hp | hp
        · exact .inl hp
        rw [mem_singleton.mp hp]
        exact .inr ⟨st, mem_cons_self, rfl⟩
      · exact .inr ⟨st', mem_cons_of_mem _ hst', heq⟩

theorem Undisturbed.runSteps (tail : List LoadStep) :
    ∀ (groups : List (List (Nat × UInt8))) (n : Nat) (s : Loading), Undisturbed u pd page s →
      (∀ bytes ∈ groups, ∀ st ∈ bytes, Image.InUserRange st) →
      (∀ j < groups.length, pre (n + j) = false) →
      ∃ s', Elf.runSteps u.kernelDir pre n (groups.map .store ++ tail) s =
          Elf.runSteps u.kernelDir pre (n + groups.length) tail s' ∧
        Undisturbed u pd page s' ∧
        ∀ p ∈ s'.written, p ∈ s.written ∨ ∃ bytes ∈ groups, ∃ st ∈ bytes, st.1 = p.1
  | [], n, s, h, _, _ => ⟨s, rfl, h, fun _ hp => .inl hp⟩
  | bytes :: groups, n, s, h, hin, hquiet => by
    obtain ⟨s1, hstore, h1, hwritten1⟩ := Undisturbed.storeBytes hspace bytes s h
      (hin bytes mem_cons_self)
    obtain ⟨s', hrest, hdone, hwritten⟩ := Undisturbed.runSteps tail groups (n + 1) s1 h1
      (fun b hb => hin b (mem_cons_of_mem _ hb)) (fun j hj => by
        have hnext := hquiet (j + 1) (Nat.succ_lt_succ hj)
        rwa [show n + (j + 1) = n + 1 + j by omega] at hnext)
    refine ⟨s', ?_, hdone, fun p hp => ?_⟩
    · have hfirst : pre n = false := hquiet 0 (Nat.succ_pos _)
      rw [map_cons, cons_append, Elf.runSteps, hfirst]
      show (s.storeBytes bytes).bind _ = _
      rw [hstore, length_cons, show n + (groups.length + 1) = n + 1 + groups.length by omega]
      exact hrest
    · rcases hwritten p hp with hp | ⟨b, hb, hst⟩
      · rcases hwritten1 p hp with hp | ⟨st, hst, heq⟩
        · exact .inl hp
        · exact .inr ⟨bytes, mem_cons_self, st, hst, heq⟩
      · exact .inr ⟨b, mem_cons_of_mem _ hb, hst⟩

/-- After a preemption the next byte goes to the heap. -/
theorem quiet_of_storedSafely (hk : k.Tables k.kernelDir)
    (hheap : ∀ v, heapStart ≤ v → v < heapStart + heapSize → translate k.mem k.kernelDir v = some v)
    (tail : List LoadStep) :
    ∀ (groups : List (List (Nat × UInt8))) (n : Nat) (s : Loading), Undisturbed u pd page s →
      (∀ bytes ∈ groups, bytes ≠ [] ∧ ∀ st ∈ bytes, Image.InUserRange st) →
      Elf.runSteps u.kernelDir pre n (groups.map .store ++ tail) s = some s' →
      StoredSafely u.mem pd s'.written → ∀ j < groups.length, pre (n + j) = false
  | [], _, _, _, _, _, _, j, hj => absurd hj (Nat.not_lt_zero j)
  | bytes :: groups, n, s, h, hin, hrun, hsafe, j, hj => by
    obtain ⟨hne, hrange⟩ := hin bytes mem_cons_self
    rw [map_cons, cons_append, Elf.runSteps] at hrun
    obtain ⟨s1, hfirst, hrest⟩ := bind_eq_some_iff.mp hrun
    have hquiet : pre n = false := by
      rw [← Bool.not_eq_true]
      intro hpre
      obtain ⟨st, more, rfl⟩ := List.exists_cons_of_ne_nil hne
      obtain ⟨hlo, hhi⟩ := hrange st mem_cons_self
      have hself : translate s.mem u.kernelDir st.1 = some st.1 := by
        rw [hspace.translate_kernelDir hk h.pages]
        exact hheap st.1 hlo hhi
      rw [hpre] at hfirst
      have hbytes : ({ s with cr3 := u.kernelDir } : Loading).storeBytes (st :: more) = some s1 :=
        hfirst
      rw [storeBytes_cons] at hbytes
      obtain ⟨s2, hbyte, hmore⟩ := bind_eq_some_iff.mp hbytes
      obtain ⟨a, ha, rfl⟩ := map_eq_some_iff.mp hbyte
      obtain rfl : st.1 = a := some.inj (hself.symm.trans ha)
      have hin1 := (written_storeBytes hmore).1 (st.1, st.1)
        (mem_append_right _ (mem_singleton.mpr rfl))
      exact (hsafe _ ((written_runSteps hrest).1 _ hin1)).2 ⟨hlo, hhi⟩
    rcases Nat.eq_zero_or_pos j with rfl | hpos
    · exact hquiet
    rw [hquiet] at hfirst
    obtain ⟨s1', hstore, h1, -⟩ := Undisturbed.storeBytes hspace bytes s h hrange
    obtain rfl : s1' = s1 := some.inj (hstore.symm.trans hfirst)
    have hnext := quiet_of_storedSafely hk hheap tail groups (n + 1) s1' h1
      (fun b hb => hin b (mem_cons_of_mem _ hb)) hrest hsafe (j - 1)
      (by rw [length_cons] at hj; omega)
    rwa [show n + 1 + (j - 1) = n + j by omega] at hnext

end

end

/-! ## Loading under preemption -/

section

variable {k u : Vm} {pd : Nat} {f : Image}

theorem storeGroups_flatten (f : Image) : (storeGroups f).flatten = setupStores f := by
  unfold storeGroups setupStores
  rw [List.flatten_append, ← List.flatMap_def, List.flatMap_singleton', List.flatten_singleton,
    append_assoc]

theorem storeGroups_length (f : Image) : (storeGroups f).length = f.loadStores.length + 8 := by
  unfold storeGroups
  rw [length_append, length_map, length_append]
  rfl

theorem storeGroups_ne_nil (h : bytes ∈ storeGroups f) :
    bytes ≠ [] := by
  rcases mem_append.mp h with hmem | hmem
  · obtain ⟨st, -, rfl⟩ := mem_map.mp hmem
    exact cons_ne_nil _ _
  rw [mem_singleton.mp hmem]
  exact cons_ne_nil _ _

theorem mem_loadSteps {st : Nat × UInt8} {kernelDir : Nat} (h : st ∈ setupStores f) :
    ∃ bytes, .store bytes ∈ loadSteps f pd kernelDir ∧ st ∈ bytes := by
  rw [← storeGroups_flatten] at h
  obtain ⟨bytes, hmem, hst⟩ := List.mem_flatten.mp h
  exact ⟨bytes, mem_cons_of_mem _ (mem_append_left _ (mem_map_of_mem hmem)), hst⟩

theorem storeBytes_mem (bytes : List (Nat × UInt8)) (s : Loading) :
    (s.storeBytes bytes).map (fun s' => (s'.cr3, s'.mem)) =
      (storeBytes s.cr3 s.mem bytes).map fun m => (s.cr3, m) := by
  induction bytes generalizing s with
  | nil => rfl
  | cons st bytes ih =>
    have hcons : storeBytes s.cr3 s.mem (st :: bytes)
        = (storeByte s.cr3 s.mem st).bind fun m => storeBytes s.cr3 m bytes := foldlM_cons ..
    rw [storeBytes_cons, hcons]
    unfold Loading.storeByte Elf.storeByte
    cases translate s.mem s.cr3 st.1 with
    | none => rfl
    | some a => exact ih { s with
        mem := update s.mem a st.2, written := s.written ++ [(st.1, a)] }

theorem runSteps_quiet_mem (shellDir dir : Nat) (groups : List (List (Nat × UInt8))) (n : Nat)
    (s : Loading) :
    (runSteps shellDir (fun _ => false) n (groups.map .store ++ [.pageDirSwitch dir]) s).map
      Loading.mem = storeBytes s.cr3 s.mem groups.flatten := by
  induction groups generalizing n s with
  | nil => rfl
  | cons bytes groups ih =>
    have hbytes := storeBytes_mem bytes s
    rw [map_cons, cons_append, runSteps, List.flatten_cons, storeBytes_append]
    show ((s.storeBytes bytes).bind _).map _ = _
    cases hfirst : s.storeBytes bytes with
    | none =>
      rw [hfirst, map_none] at hbytes
      rw [map_eq_none_iff.mp hbytes.symm]
      rfl
    | some s1 =>
      rw [hfirst, map_some] at hbytes
      obtain ⟨m, hm, heq⟩ := map_eq_some_iff.mp hbytes.symm
      obtain ⟨hcr3, hmem⟩ := Prod.mk.inj heq
      rw [hm, bind_some, bind_some, ih, ← hcr3, ← hmem]

/-- With no preemption the steps store what `elf_exec` stores. -/
theorem loadSteps_quiet (pd kernelDir : Nat) (m : Mem) (f : Image) :
    (runSteps kernelDir (fun _ => false) 0 (loadSteps f pd kernelDir) ⟨kernelDir, m, []⟩).map
      Loading.mem = storeBytes pd m (setupStores f) := by
  rw [← storeGroups_flatten]
  exact runSteps_quiet_mem kernelDir kernelDir (storeGroups f) 1 ⟨pd, m, []⟩

/-- `elf_exec` is the steps without a preemption, once the address space is made, and then the start
    of the task. -/
theorem elfExec_of_mapped {k : Kernel} {cpu : Cpu} (hvalid : f.validate = none)
    (hmapped : mappedSpace k.vm = some (pd, u)) :
    elfExec k cpu f =
      ((runSteps u.kernelDir (fun _ => false) 0 (loadSteps f pd u.kernelDir)
        ⟨u.kernelDir, u.mem, []⟩).map Loading.mem).map fun mem =>
          startTask { k with
            vm := { u with mem := setEntry (setEntry mem pd 0 0) pd 1 0 }
            cr3 := update k.cr3 cpu u.kernelDir } pd f.eEntry := by
  rw [loadSteps_quiet]
  unfold mappedSpace at hmapped
  unfold elfExec loadProgram
  rw [hvalid]
  simp only at hmapped ⊢
  by_cases hpd : k.vm.pageDirCreate.1 = 0
  · rw [if_pos hpd] at hmapped
    exact absurd hmapped.symm (some_ne_none _)
  rw [if_neg hpd] at hmapped ⊢
  generalize mapUserPages k.vm.pageDirCreate.1 userPageCount userElfBase
    { k.vm.pageDirCreate.2 with
      mem := setEntry k.vm.pageDirCreate.2.mem k.vm.pageDirCreate.1 userPdeIdx 0 } = r at hmapped ⊢
  obtain ⟨failed, s⟩ := r
  cases failed with
  | some err => exact absurd hmapped.symm (some_ne_none _)
  | none =>
    cases hmapped
    rfl

/-- The program is stored as it should be, with the preemptions of `pre`. -/
def LoadsSafely (u : Vm) (pd : Nat) (f : Image) (pre : Nat → Bool) : Prop :=
  ∃ r, runSteps u.kernelDir pre 0 (loadSteps f pd u.kernelDir) ⟨u.kernelDir, u.mem, []⟩ = some r ∧
    StoredSafely u.mem pd r.written

theorem runSteps_loadSteps (pre : Nat → Bool) :
    runSteps u.kernelDir pre 0 (loadSteps f pd u.kernelDir) ⟨u.kernelDir, u.mem, []⟩ =
      runSteps u.kernelDir pre 1 ((storeGroups f).map .store ++ [.pageDirSwitch u.kernelDir])
        ⟨pd, u.mem, []⟩ := by
  rw [loadSteps, runSteps]
  cases pre 0 <;> rfl

theorem undisturbed_start (u : Vm) (pd : Nat) (page : Nat → Nat) :
    Undisturbed u pd page ⟨pd, u.mem, []⟩ :=
  ⟨rfl, fun _ _ => rfl, fun _ hp => absurd hp not_mem_nil⟩

theorem storeGroups_inUserRange (hvalid : f.validate = none)
    (hfits : ∀ i < f.ePhnum, f.pType i = ptLoad → f.pVaddr i + f.pMemsz i < 2 ^ 32) :
    ∀ bytes ∈ storeGroups f, ∀ st ∈ bytes, Image.InUserRange st := by
  intro bytes hb st hst
  refine setupStores_inUserRange hvalid hfits st ?_
  rw [← storeGroups_flatten]
  exact List.mem_flatten.mpr ⟨bytes, hb, hst⟩

section

variable (h : LoadsSafely u pd f pre) (hspace : UserSpace k pd table page userPageCount u)
include h hspace

/-- A segment that wraps around has a byte for the page after the user's memory. -/
theorem LoadsSafely.fits (hvalid : f.validate = none) :
    ∀ i < f.ePhnum, f.pType i = ptLoad → f.pVaddr i + f.pMemsz i < 2 ^ 32 := by
  obtain ⟨r, hrun, hsafe⟩ := h
  intro i hi hload
  by_contra hwrap
  obtain ⟨b, hmem⟩ := Image.stackTop_mem_of_wrap (Image.checkSegment_of_validate hvalid hi) hload
    (by omega)
  have hstore : (userStackTop, b) ∈ setupStores f :=
    mem_append_left _ (mem_flatMap.mpr ⟨i, mem_range.mpr hi, hmem⟩)
  obtain ⟨bytes, hb, hin⟩ := mem_loadSteps hstore
  obtain ⟨a, ha⟩ := (written_runSteps hrun).2 bytes hb _ hin
  have hidx : pdeIdx userStackTop = userPdeIdx ∧ pteIdx userStackTop = userPageCount := by decide
  have htop := (hsafe _ ha).1
  rw [translate_eq, hspace.pageAt_eq (fun _ _ => rfl) hidx.1, hidx.2,
    if_neg (Nat.lt_irrefl _)] at htop
  cases htop

theorem LoadsSafely.quiet (hk : k.Tables k.kernelDir)
    (hheap : ∀ v, heapStart ≤ v → v < heapStart + heapSize → translate k.mem k.kernelDir v = some v)
    (hvalid : f.validate = none) (hpos : 0 < n) (hle : n ≤ f.loadStores.length + 8) :
    pre n = false := by
  have hgroups := storeGroups_inUserRange hvalid (h.fits hspace hvalid)
  have hlen := storeGroups_length f
  obtain ⟨r, hrun, hsafe⟩ := h
  rw [runSteps_loadSteps] at hrun
  have hquiet := quiet_of_storedSafely hspace hk hheap [.pageDirSwitch u.kernelDir] (storeGroups f) 1
    _ (undisturbed_start u pd page) (fun b hb => ⟨storeGroups_ne_nil hb, hgroups b hb⟩) hrun hsafe
    (n - 1) (by omega)
  rwa [show 1 + (n - 1) = n by omega] at hquiet

end

/-- Whatever the preemptions: all bytes of the program are stored in the new task's frames and none
    in the heap iff no segment wraps around, the shell is not preempted from the first
    `page_dir_switch` to the last store, and no page that is written has its frame in the heap. -/
theorem loadsSafely_iff (hk : k.Tables k.kernelDir) (hzero : k.pfa.testBit 0 = true)
    (hheap : ∀ v, heapStart ≤ v → v < heapStart + heapSize → translate k.mem k.kernelDir v = some v)
    (hvalid : f.validate = none) (hmapped : mappedSpace k = some (pd, u)) (pre : Nat → Bool) :
    LoadsSafely u pd f pre ↔
      (∀ i, i < f.ePhnum → f.pType i = ptLoad → f.pVaddr i + f.pMemsz i < 2 ^ 32) ∧
      (∀ n, 0 < n → n ≤ f.loadStores.length + 8 → pre n = false) ∧
      ∀ st ∈ setupStores f, ∀ a, translate u.mem pd st.1 = some a →
        ¬ (heapStart ≤ a ∧ a < heapStart + heapSize) := by
  obtain ⟨table, page, hspace⟩ := mappedSpace_spec hk hzero hmapped
  constructor
  · intro h
    refine ⟨h.fits hspace hvalid, fun n hpos hle => h.quiet hspace hk hheap hvalid hpos hle,
      fun st hst a ha => ?_⟩
    obtain ⟨r, hrun, hsafe⟩ := h
    obtain ⟨bytes, hb, hin⟩ := mem_loadSteps hst
    obtain ⟨a', ha'⟩ := (written_runSteps hrun).2 bytes hb st hin
    obtain ⟨htranslate, hout⟩ := hsafe _ ha'
    obtain rfl : a = a' := Option.some.inj (ha.symm.trans htranslate)
    exact hout
  · rintro ⟨hfits, hquiet, hframes⟩
    have hlen := storeGroups_length f
    obtain ⟨s', hrun, hdone, hwritten⟩ := Undisturbed.runSteps hspace [.pageDirSwitch u.kernelDir]
      (storeGroups f) 1 _ (undisturbed_start u pd page) (storeGroups_inUserRange hvalid hfits)
      fun j hj => hquiet (1 + j) (by omega) (by omega)
    refine ⟨{ s' with cr3 := u.kernelDir }, ?_, fun p hp => ?_⟩
    · -- a preemption before the last step changes nothing
      rw [runSteps_loadSteps, hrun, runSteps]
      cases pre (1 + (storeGroups f).length) <;> rfl
    · have hown := hdone.own p hp
      refine ⟨hown, ?_⟩
      rcases hwritten p hp with hnil | ⟨bytes, hb, st, hst, heq⟩
      · exact absurd hnil not_mem_nil
      refine hframes st ?_ p.2 (by rw [heq]; exact hown)
      rw [← storeGroups_flatten]
      exact List.mem_flatten.mpr ⟨bytes, hb, hst⟩

/-! ### On the machine with 16 MB -/

theorem machine16_heap (v : Nat) (hlo : heapStart ≤ v) (hhi : v < heapStart + heapSize) :
    translate machine16.vm.mem machine16.vm.kernelDir v = some v := by
  have hheap : heapStart = 0x800000 ∧ heapSize = 0x200000 := ⟨rfl, rfl⟩
  have hpage : pageNo v * 4096 + v % 4096 = v ∧ pageNo v < 1024 * 4 := by
    unfold pageNo
    omega
  rw [translate_eq, machine16_identity.page v, if_pos hpage.2]
  exact congrArg some hpage.1

theorem machine16_mapped : ∃ pd u, mappedSpace machine16.vm = some (pd, u) := by
  obtain ⟨hk, hfree, htotal⟩ := machine16_spec
  exact mappedSpace_ok hk hfree (by decide) (by rw [htotal]; decide)

theorem elfExec_of_mapped_machine16 : ∃ pd u start, mappedSpace machine16.vm = some (pd, u) ∧
    elfExec machine16 0 (Image.oneSegment [0x10, 0, 0, 0]) =
      ((runSteps u.kernelDir (fun _ => false) 0
        (loadSteps (Image.oneSegment [0x10, 0, 0, 0]) pd u.kernelDir)
        ⟨u.kernelDir, u.mem, []⟩).map Loading.mem).map start := by
  obtain ⟨pd, u, hmapped⟩ := machine16_mapped
  exact ⟨pd, u, _, hmapped, elfExec_of_mapped (by decide) hmapped⟩

/-- No preemption. -/
theorem loadsSafely_iff_machine16 : ∃ pd u, mappedSpace machine16.vm = some (pd, u) ∧
    (LoadsSafely u pd (Image.oneSegment [0x10, 0, 0, 0]) (fun _ => false) ↔
      (∀ i, i < (Image.oneSegment [0x10, 0, 0, 0]).ePhnum →
        (Image.oneSegment [0x10, 0, 0, 0]).pType i = ptLoad →
        (Image.oneSegment [0x10, 0, 0, 0]).pVaddr i + (Image.oneSegment [0x10, 0, 0, 0]).pMemsz i
          < 2 ^ 32) ∧
      (∀ n, 0 < n → n ≤ (Image.oneSegment [0x10, 0, 0, 0]).loadStores.length + 8 → false = false) ∧
      ∀ st ∈ setupStores (Image.oneSegment [0x10, 0, 0, 0]), ∀ a,
        translate u.mem pd st.1 = some a → ¬ (heapStart ≤ a ∧ a < heapStart + heapSize)) := by
  obtain ⟨hk, -, -⟩ := machine16_spec
  obtain ⟨pd, u, hmapped⟩ := machine16_mapped
  exact ⟨pd, u, hmapped, loadsSafely_iff hk machine16_zero machine16_heap (by decide) hmapped _⟩

/-- After the 16 bytes of the segment the shell is preempted, and the trampoline is stored in the
    heap. -/
theorem machine16_not_loadsSafely : ∃ pd u, mappedSpace machine16.vm = some (pd, u) ∧
    ¬ LoadsSafely u pd (Image.oneSegment [0x10, 0, 0, 0]) fun n => decide (n = 17) := by
  obtain ⟨hk, -, -⟩ := machine16_spec
  obtain ⟨pd, u, hmapped⟩ := machine16_mapped
  obtain ⟨table, page, hspace⟩ := mappedSpace_spec hk machine16_zero hmapped
  refine ⟨pd, u, hmapped, fun h => ?_⟩
  have hlen : (Image.oneSegment [0x10, 0, 0, 0]).loadStores.length = 16 := by decide
  have hquiet := h.quiet hspace hk machine16_heap (by decide) (by decide : 0 < 17)
    (by rw [hlen]; decide)
  exact absurd hquiet (by decide)

end

end Noverix.Elf
