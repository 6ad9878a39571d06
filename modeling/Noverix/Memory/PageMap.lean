/-
  The kernel's address space as a map from pages to frames.

  A completed `init_paging` maps every page below the end of memory to itself.
  From there on `map_page` and `unmap_page` change the map at their own page,
  if they succeed, and `get_page_mapping` reads it, whatever else happens to
  memory and to the frame allocator as long as the directory and its tables are
  left alone.
-/

import Noverix.Memory.Tables
import Noverix.Lib.Runs

namespace Noverix.Memory

open Lib

namespace Vm

variable {s s' : Vm}

/-! ## The first directory -/

/-- The first `n` tables map their pages to themselves, and there are no others. -/
structure IdentityUpTo (s : Vm) (n : Nat) : Prop where
  tables : Tables s s.kernelDir
  absent : ∀ i, n ≤ i → i < 1024 → entry s.mem s.kernelDir i % 2 = 0
  page : ∀ w, pageAt s.mem s.kernelDir w =
    if pageNo w < 1024 * n then some (pageNo w * 4096) else none

theorem pageOf_identity {n j : Nat} (hn : n < 1024) (hj : j < 1024) :
    pageOf ((n * 0x400000 + j * frameSize ||| pagePresent ||| pageWrite) % 2 ^ 32)
      = some ((1024 * n + j) * 4096) := by
  have haddr : n * 0x400000 + j * frameSize = (1024 * n + j) * 4096 := by
    show n * 0x400000 + j * 4096 = _
    omega
  have hthree : pagePresent ||| pageWrite = 3 := rfl
  obtain ⟨hframe, hflags⟩ :=
    page_or_flags ((1024 * n + j) * 4096) (Nat.mul_mod_left ..) (by decide : 3 < 4096)
  rw [haddr, Nat.or_assoc, hthree, mod_eq_of_lt (by omega)]
  unfold pageOf
  rw [if_neg (by omega), hframe]

theorem IdentityUpTo.link {n t e : Nat} (h : IdentityUpTo s n) (hn : n < 1024)
    (hkernel : s'.kernelDir = s.kernelDir) (hnew : ∀ a, s.pfa.Held a → a ≠ t)
    (hgrew : s.pfa.Grew s'.pfa) (hheld : s'.pfa.Held t) (he : e / 4096 * 4096 = t)
    (hodd : e % 2 = 1)
    (hread : ∀ a j, a % 4096 = 0 → j < 1024 → entry s'.mem a j =
      if a = s.kernelDir ∧ j = n then e
      else if a = t then (n * 0x400000 + j * frameSize ||| pagePresent ||| pageWrite) % 2 ^ 32
      else entry s.mem a j) :
    IdentityUpTo s' (n + 1) := by
  obtain ⟨htables, hpage⟩ := h.tables.link hn hnew hgrew hheld he hodd hread
  refine ⟨hkernel ▸ htables, fun i hi hlt => ?_, fun w => ?_⟩
  · rw [hkernel, hread _ i h.tables.dir_held.aligned hlt, if_neg (by omega),
      if_neg (hnew _ h.tables.dir_held)]
    exact h.absent i (by omega) hlt
  · have hsplit : pageNo w = 1024 * pdeIdx w + pteIdx w := by
      unfold pageNo pdeIdx pteIdx
      omega
    have hpte := pteIdx_lt w
    rw [hkernel, hpage w, h.page w]
    by_cases hw : pdeIdx w = n
    · rw [if_pos hw, pageOf_identity hn hpte, if_pos (by omega), hsplit, hw]
    rw [if_neg hw]
    by_cases hlt : pageNo w < 1024 * n
    · rw [if_pos hlt, if_pos (by omega)]
    · rw [if_neg hlt, if_neg (by omega)]

/-- One round of the loop above 4 MB. -/
def upperRound (s : Vm) (virt : Nat) : Vm :=
  let r := s.createTableInDir s.kernelDir virt 0
  { r.2 with
    mem := storeWords r.2.mem r.1
      (fun _ i => virt + i * frameSize ||| pagePresent ||| pageWrite) 1024 }

theorem mapUpper_succ (ram fuel virt : Nat) (s : Vm) :
    mapUpper ram (fuel + 1) s virt =
      if virt < ram then
        if s.allocFrame.1 = 0 then (false, (s.createTableInDir s.kernelDir virt 0).2)
        else mapUpper ram fuel (s.upperRound virt) (u32 (virt + 0x400000))
      else (true, s) := by
  rw [← (createTableInDir_alloc s s.kernelDir virt 0).1]
  rfl

theorem upperRound_pfa (s : Vm) (virt : Nat) : (s.upperRound virt).pfa = s.allocFrame.2.pfa := by
  simp only [upperRound]
  exact (createTableInDir_alloc s s.kernelDir virt 0).2.1

theorem upperRound_kernelDir (s : Vm) (virt : Nat) :
    (s.upperRound virt).kernelDir = s.kernelDir := by
  simp only [upperRound]
  exact (createTableInDir_alloc s s.kernelDir virt 0).2.2.1

variable {n virt : Nat} {a j : Nat}

theorem entry_upperRound (hdir : s.pfa.Held s.kernelDir)
    (hsmall : s.pfa.totalFrames ≤ 2 ^ 18) (hn : n < 1024) (hvirt : n * 0x400000 = virt)
    (hsome : s.allocFrame.1 ≠ 0) (ha : a % 4096 = 0) (hj : j < 1024) :
    entry (s.upperRound virt).mem a j =
      if a = s.kernelDir ∧ j = n then dirEntry s.allocFrame.1 0
      else if a = s.allocFrame.1 then
        (n * 0x400000 + j * frameSize ||| pagePresent ||| pageWrite) % 2 ^ 32
      else entry s.mem a j := by
  obtain ⟨i, hi, htook, -⟩ := allocFrame_spec hsmall hsome
  obtain ⟨hfst, -, -, -⟩ := createTableInDir_alloc s s.kernelDir virt 0
  have hpde : pdeIdx virt = n := by
    unfold pdeIdx
    omega
  unfold upperRound
  simp only
  rw [hfst, entry_storeWords (w := fun i => virt + i * frameSize ||| pagePresent |||
    pageWrite) (by omega) ha hj fun _ _ _ _ => rfl,
    entry_createTableInDir hdir.aligned hsome hsmall ha hj, hpde, hvirt]
  by_cases hat : a = s.allocFrame.1
  · have hne : ¬ (a = s.kernelDir ∧ j = n) := fun heq =>
      htook.ne_of_held hdir (by rw [← heq.1, hat, hi])
    rw [if_pos hat, if_neg hne, if_pos hat]
  · simp only [if_neg hat]

theorem upperRound_spec (h : IdentityUpTo s n) (hn : n < 1024)
    (hvirt : n * 0x400000 = virt) (hsome : s.allocFrame.1 ≠ 0) :
    IdentityUpTo (s.upperRound virt) (n + 1) := by
  obtain ⟨i, hi, htook, -⟩ := allocFrame_spec h.tables.total hsome
  have hfits := htook.fits
  have hsmall := h.tables.total
  obtain ⟨htable, hodd, -⟩ := dirEntry_spec s.allocFrame.1 0 (by omega) (by omega)
  have hnew : ∀ a, s.pfa.Held a → a ≠ s.allocFrame.1 := fun a ha => hi ▸ htook.ne_of_held ha
  refine h.link hn (upperRound_kernelDir s virt) hnew ?_ ?_ htable hodd fun a j ha hj =>
    entry_upperRound h.tables.dir_held hsmall hn hvirt hsome ha hj
  · rw [upperRound_pfa]
    exact s.pfa.grew_allocFrame
  · rw [upperRound_pfa, hi]
    exact htook.held

/-- Memory above 4 GB - 4 MB makes `virt` wrap around, and the loop does not end. -/
theorem mapUpper_wrap {ram : Nat} (hram : 0xFFC00000 < ram) :
    ∀ (fuel n : Nat) (s : Vm), (mapUpper ram fuel s (u32 (n * 0x400000))).1 = false
  | 0, _, _ => rfl
  | fuel + 1, n, s => by
    have hvirt : u32 (n * 0x400000) = n % 1024 * 0x400000 := by
      unfold u32
      omega
    rw [mapUpper_succ, if_pos (by omega)]
    split
    · rfl
    have hnext : u32 (u32 (n * 0x400000) + 0x400000) = u32 ((n + 1) * 0x400000) := by
      unfold u32
      omega
    rw [hnext]
    exact mapUpper_wrap hram fuel (n + 1) _

/-- The number of tables for `ram` bytes: the first one, and one for each 4 MB begun. -/
def tableCount (ram : Nat) : Nat := max 1 ((ram + 0x3FFFFF) / 0x400000)

/-- What every round of the loop keeps holds where the loop gets to its end. -/
theorem mapUpper_invariant {ram : Nat} {I : Nat → Vm → Prop} (hram : ram ≤ 0xFFC00000)
    (hround : ∀ n s, I n s → n * 0x400000 < ram → s.allocFrame.1 ≠ 0 →
      I (n + 1) (s.upperRound (n * 0x400000))) :
    ∀ (fuel n : Nat) (s : Vm), I n s → (mapUpper ram fuel s (n * 0x400000)).1 = true →
      ∃ m, ram ≤ m * 0x400000 ∧ I m (mapUpper ram fuel s (n * 0x400000)).2
  | 0, _, _, _, hend => absurd hend Bool.false_ne_true
  | fuel + 1, n, s, h, hend => by
    rw [mapUpper_succ] at hend ⊢
    by_cases hlt : n * 0x400000 < ram
    · rw [if_pos hlt] at hend ⊢
      by_cases hnone : s.allocFrame.1 = 0
      · rw [if_pos hnone] at hend
        exact absurd hend Bool.false_ne_true
      have hnext : u32 (n * 0x400000 + 0x400000) = (n + 1) * 0x400000 := by
        unfold u32
        omega
      rw [if_neg hnone, hnext] at hend ⊢
      exact mapUpper_invariant hram hround fuel (n + 1) _ (hround n s h hlt hnone) hend
    rw [if_neg hlt]
    exact ⟨n, not_lt.mp hlt, h⟩

/-- The kernel's directory as `init_paging` first has it: an empty page. -/
def emptyDir (s : Vm) : Vm :=
  { s.allocFrame.2 with
    kernelDir := s.allocFrame.1
    mem := storeWords s.allocFrame.2.mem s.allocFrame.1 (fun _ _ => 0) 1024 }

/-- The table for the first 4 MB. -/
def firstTable (s : Vm) : Vm :=
  { s.allocFrame.2 with
    mem := Memory.setEntry
      (storeWords s.allocFrame.2.mem s.allocFrame.1
        (fun _ i => i * frameSize ||| pagePresent ||| pageWrite) 1024)
      s.kernelDir 0 (s.allocFrame.1 ||| pagePresent ||| pageWrite) }

theorem initPaging_eq (s : Vm) (ram : UInt32) :
    s.initPaging ram =
      if s.allocFrame.1 = 0 then (false, { s.allocFrame.2 with kernelDir := s.allocFrame.1 })
      else if s.emptyDir.allocFrame.1 = 0 then (false, s.emptyDir.allocFrame.2)
      else mapUpper ram.toNat (maxMemory / frameSize + 1) s.emptyDir.firstTable 0x400000 := by
  simp only [initPaging, emptyDir, firstTable]
  congr

theorem emptyDir_mem (s : Vm) :
    s.emptyDir.mem = storeWords s.mem s.allocFrame.1 (fun _ _ => 0) 1024 := by
  simp only [emptyDir, allocFrame_mem]

theorem emptyDir_kernelDir (s : Vm) : s.emptyDir.kernelDir = s.allocFrame.1 := rfl

theorem emptyDir_spec (hp : s.pfa.totalFrames ≤ 2 ^ 18) (hsome : s.allocFrame.1 ≠ 0) :
    IdentityUpTo s.emptyDir 0 := by
  obtain ⟨i, hi, htook, -⟩ := allocFrame_spec hp hsome
  have hzero : ∀ j < 1024, entry s.emptyDir.mem s.emptyDir.kernelDir j % 2 = 0 := by
    intro j hj
    rw [emptyDir_mem, emptyDir_kernelDir,
      entry_storeWords (w := fun _ => 0) (by omega) (by omega) hj fun _ _ _ _ => rfl, if_pos rfl,
      Nat.zero_mod]
  have hheld : s.emptyDir.pfa.Held s.emptyDir.kernelDir := by
    show s.allocFrame.2.pfa.Held s.allocFrame.1
    rw [hi]
    exact htook.held
  refine ⟨⟨?_, hheld, fun j hj hodd => ?_, fun j hj hodd => ?_, fun j k hj hk hodd => ?_⟩,
    fun j _ hj => hzero j hj, fun w => ?_⟩
  · show s.allocFrame.2.pfa.totalFrames ≤ 2 ^ 18
    rw [htook.total]
    exact hp
  · exact absurd (hzero j hj) (by omega)
  · exact absurd (hzero j hj) (by omega)
  · exact absurd (hzero j hj) (by omega)
  · rw [pageAt_of_absent (hzero _ (pdeIdx_lt w)), if_neg (by omega)]

theorem firstTable_kernelDir (s : Vm) : s.firstTable.kernelDir = s.kernelDir := by
  simp only [firstTable, allocFrame_kernelDir]

theorem entry_firstTable (hdir : s.kernelDir % 4096 = 0) (hsmall : s.pfa.totalFrames ≤ 2 ^ 18)
    (hsome : s.allocFrame.1 ≠ 0) (ha : a % 4096 = 0) (hj : j < 1024) :
    entry s.firstTable.mem a j =
      if a = s.kernelDir ∧ j = 0 then dirEntry s.allocFrame.1 0
      else if a = s.allocFrame.1 then
        (0 * 0x400000 + j * frameSize ||| pagePresent ||| pageWrite) % 2 ^ 32
      else entry s.mem a j := by
  obtain ⟨i, hi, htook, -⟩ := allocFrame_spec hsmall hsome
  have hfits := htook.fits
  obtain ⟨-, -, hword⟩ := dirEntry_spec s.allocFrame.1 0 (by omega) (by omega)
  have hflags : s.allocFrame.1 ||| pagePresent ||| pageWrite = dirEntry s.allocFrame.1 0 := by
    unfold dirEntry
    rw [Nat.zero_and, Nat.or_zero]
  unfold firstTable
  rw [entry_setEntry hdir ha (by decide) hj, hflags, hword,
    entry_storeWords (w := fun i => i * frameSize ||| pagePresent ||| pageWrite) (by omega) ha hj
      fun _ _ _ _ => rfl, allocFrame_mem, Nat.zero_mul, Nat.zero_add]

theorem firstTable_spec (h : IdentityUpTo s 0) (hsome : s.allocFrame.1 ≠ 0) :
    IdentityUpTo s.firstTable 1 := by
  obtain ⟨i, hi, htook, -⟩ := allocFrame_spec h.tables.total hsome
  have hfits := htook.fits
  have hsmall := h.tables.total
  have hnew : ∀ a, s.pfa.Held a → a ≠ s.allocFrame.1 := fun a ha => hi ▸ htook.ne_of_held ha
  obtain ⟨htable, hodd, -⟩ := dirEntry_spec s.allocFrame.1 0 (by omega) (by omega)
  exact h.link (by decide) rfl hnew htook.grew (hi ▸ htook.held) htable hodd fun a j ha hj =>
    entry_firstTable h.tables.dir_held.aligned hsmall hsome ha hj

variable {ram : UInt32}

/-- `init_paging` that completes has its two first frames and comes to the end of memory. -/
theorem initPaging_ends (hdone : (s.initPaging ram).1 = true) :
    s.allocFrame.1 ≠ 0 ∧ s.emptyDir.allocFrame.1 ≠ 0 ∧ ram.toNat ≤ 0xFFC00000 ∧
      s.initPaging ram =
        mapUpper ram.toNat (maxMemory / frameSize + 1) s.emptyDir.firstTable (1 * 0x400000) := by
  rw [initPaging_eq] at hdone ⊢
  by_cases hdir : s.allocFrame.1 = 0
  · rw [if_pos hdir] at hdone
    exact absurd hdone Bool.false_ne_true
  rw [if_neg hdir] at hdone ⊢
  by_cases hfirst : s.emptyDir.allocFrame.1 = 0
  · rw [if_pos hfirst] at hdone
    exact absurd hdone Bool.false_ne_true
  rw [if_neg hfirst] at hdone ⊢
  refine ⟨hdir, hfirst, not_lt.mp fun hram => ?_, rfl⟩
  have hwrap := mapUpper_wrap hram (maxMemory / frameSize + 1) 1 s.emptyDir.firstTable
  exact absurd (hdone.symm.trans hwrap) (by decide)

/-- A completed `init_paging` maps the pages up to the end of memory to themselves. -/
theorem initPaging_spec (hp : s.pfa.totalFrames ≤ 2 ^ 18)
    (hdone : (s.initPaging ram).1 = true) :
    IdentityUpTo (s.initPaging ram).2 (tableCount ram.toNat) := by
  obtain ⟨hdir, hfirst, hram, heq⟩ := initPaging_ends hdone
  rw [heq] at hdone ⊢
  have hone := firstTable_spec (emptyDir_spec hp hdir) hfirst
  obtain ⟨m, hend, hmap, hpos, hle⟩ := mapUpper_invariant
    (I := fun n s => IdentityUpTo s n ∧ 0 < n ∧ n ≤ tableCount ram.toNat) hram
    (fun n s h hlt hnone => ⟨upperRound_spec h.1 (by omega) rfl hnone, by omega, by
      unfold tableCount
      omega⟩) _ 1 _ ⟨hone, Nat.one_pos, Nat.le_max_left ..⟩ hdone
  have hlast : tableCount ram.toNat = m := by
    unfold tableCount at hle ⊢
    omega
  rw [hlast]
  exact hmap

/-- Every present entry of the kernel's directory is as `create_table_in_dir` makes it. -/
def PlainEntries (s : Vm) : Prop :=
  ∀ l, l < 1024 → entry s.mem s.kernelDir l % 2 = 1 →
    ∃ a, a ≠ 0 ∧ a % 4096 = 0 ∧ a < 2 ^ 32 ∧ entry s.mem s.kernelDir l = dirEntry a 0

theorem PlainEntries.link {n t : Nat} {g : Nat → Nat} (h : PlainEntries s)
    (hdir : s.kernelDir % 4096 = 0) (hkernel : s'.kernelDir = s.kernelDir) (hne : s.kernelDir ≠ t)
    (ht : t ≠ 0) (haligned : t % 4096 = 0) (hlt : t < 2 ^ 32)
    (hread : ∀ a j, a % 4096 = 0 → j < 1024 → entry s'.mem a j =
      if a = s.kernelDir ∧ j = n then dirEntry t 0 else if a = t then g j else entry s.mem a j) :
    PlainEntries s' := by
  intro j hj hodd
  rw [hkernel, hread _ j hdir hj] at hodd ⊢
  by_cases hjn : j = n
  · rw [if_pos ⟨rfl, hjn⟩]
    exact ⟨t, ht, haligned, hlt, rfl⟩
  rw [if_neg fun heq => hjn heq.2, if_neg hne] at hodd ⊢
  exact h j hj hodd

theorem plainEntries_initPaging (hp : s.pfa.totalFrames ≤ 2 ^ 18)
    (hdone : (s.initPaging ram).1 = true) : PlainEntries (s.initPaging ram).2 := by
  obtain ⟨hdir, hfirst, hram, heq⟩ := initPaging_ends hdone
  rw [heq] at hdone ⊢
  have hempty := emptyDir_spec hp hdir
  have hheld := hempty.tables.dir_held
  have hsmall := hempty.tables.total
  obtain ⟨i, hi, htook, -⟩ := allocFrame_spec hempty.tables.total hfirst
  have hfits := htook.fits
  have hnone : PlainEntries s.emptyDir := fun j hj hodd =>
    absurd (hempty.absent j (Nat.zero_le j) hj) (by omega)
  have hone : PlainEntries s.emptyDir.firstTable :=
    hnone.link hheld.aligned (firstTable_kernelDir _) (hi ▸ htook.ne_of_held hheld) hfirst (by omega)
      (by omega) fun a j ha hj => entry_firstTable hheld.aligned hsmall hfirst ha hj
  obtain ⟨m, -, -, hplain⟩ := mapUpper_invariant
    (I := fun n s => IdentityUpTo s n ∧ PlainEntries s) hram (fun n s h hlt hsome => by
      -- a round links one more table
      obtain ⟨i, hi, htook, -⟩ := allocFrame_spec h.1.tables.total hsome
      have hfits := htook.fits
      have hsmall := h.1.tables.total
      have hdir := h.1.tables.dir_held
      refine ⟨upperRound_spec h.1 (by omega) rfl hsome, ?_⟩
      exact h.2.link hdir.aligned (upperRound_kernelDir s _) (hi ▸ htook.ne_of_held hdir) hsome
        (by omega) (by omega) fun a j ha hj =>
          entry_upperRound hdir hsmall (by omega) rfl hsome ha hj)
    _ 1 _ ⟨firstTable_spec hempty hfirst, hone⟩ hdone
  exact hplain

theorem grew_mapUpper (ram : Nat) :
    ∀ (fuel virt : Nat) (s : Vm), s.pfa.Grew (mapUpper ram fuel s virt).2.pfa
  | 0, _, s => .refl s.pfa
  | fuel + 1, virt, s => by
    have hgrew := s.pfa.grew_allocFrame
    rw [mapUpper_succ]
    split
    · split
      · rw [(createTableInDir_alloc s s.kernelDir virt 0).2.1]
        exact hgrew
      have hrest := grew_mapUpper ram fuel (u32 (virt + 0x400000)) (s.upperRound virt)
      rw [upperRound_pfa] at hrest
      exact hgrew.trans hrest
    · exact .refl s.pfa

theorem grew_initPaging (s : Vm) (ram : UInt32) : s.pfa.Grew (s.initPaging ram).2.pfa := by
  have hdir := s.pfa.grew_allocFrame
  have hfirst : s.pfa.Grew s.emptyDir.allocFrame.2.pfa := hdir.trans s.emptyDir.pfa.grew_allocFrame
  rw [initPaging_eq]
  split
  · exact hdir
  split
  · exact hfirst
  · exact hfirst.trans (grew_mapUpper ram.toNat _ _ s.emptyDir.firstTable)

theorem pagingEnableUserAccess_spec (h : Tables s s.kernelDir) :
    Tables s.pagingEnableUserAccess s.pagingEnableUserAccess.kernelDir ∧
      s.pagingEnableUserAccess.pfa = s.pfa ∧
      ∀ w, s.pagingEnableUserAccess.getPageMapping w = s.getPageMapping w := by
  have hsame := samePages_dirAddUserFlag s.mem h.dir_held.aligned
  unfold pagingEnableUserAccess pageDirAddUserFlag getPageMapping
  generalize dirAddUserFlag s.mem s.kernelDir = mem at hsame ⊢
  exact ⟨h.samePages rfl hsame, rfl, fun w => hsame.pageAt h.dir_held.aligned⟩

/-! ### What leaves the tables alone -/

/-- A page of the kernel's directory: the directory, or one of its tables. -/
def TablePage (s : Vm) (t : Nat) : Prop :=
  t = s.kernelDir ∨ ∃ i, i < 1024 ∧ entry s.mem s.kernelDir i % 2 = 1 ∧
    t = entry s.mem s.kernelDir i / 4096 * 4096

/-- With `mem` and `pfa`, the kernel's directory and its tables are in use and unchanged. -/
structure LeavesTables (s : Vm) (mem : Mem) (pfa : Pfa) : Prop where
  total : pfa.totalFrames ≤ 2 ^ 18
  held : ∀ t, s.TablePage t → pfa.Held t
  same : ∀ t, s.TablePage t → ∀ j, j < 1024 → entry mem t j = entry s.mem t j

section

variable (h : Tables s s.kernelDir)
include h

theorem Tables.held_of_tablePage {t : Nat} (ht : s.TablePage t) : s.pfa.Held t := by
  rcases ht with rfl | ⟨i, hi, hodd, rfl⟩
  · exact h.dir_held
  · exact h.held i hi hodd

variable {pfa : Pfa}

theorem Tables.leaves {mem : Mem} (hleaves : s.LeavesTables mem pfa) :
    Tables { s with mem := mem, pfa := pfa } s.kernelDir ∧
      ∀ w, pageAt mem s.kernelDir w = pageAt s.mem s.kernelDir w := by
  have hentry := hleaves.same s.kernelDir (.inl rfl)
  refine ⟨⟨hleaves.total, hleaves.held _ (.inl rfl), fun i hi hodd => ?_, fun i hi hodd => ?_,
    fun i j hi hj hoddi hoddj => ?_⟩, fun w => ?_⟩
  · rw [hentry i hi] at hodd ⊢
    exact hleaves.held _ (.inr ⟨i, hi, hodd, rfl⟩)
  · rw [hentry i hi] at hodd ⊢
    exact h.apart i hi hodd
  · rw [hentry i hi] at hoddi ⊢
    rw [hentry j hj] at hoddj ⊢
    exact h.inj i j hi hj hoddi hoddj
  · refine pageAt_congr (hentry _ (pdeIdx_lt w)) fun hodd => ?_
    exact hleaves.same _ (.inr ⟨_, pdeIdx_lt w, hodd, rfl⟩) _ (pteIdx_lt w)

theorem Tables.leaves_grew (hgrew : s.pfa.Grew pfa) : s.LeavesTables s.mem pfa :=
  ⟨hgrew.total ▸ h.total, fun _ ht => hgrew.held (h.held_of_tablePage ht), fun _ _ _ _ => rfl⟩

theorem Tables.leaves_store {a v : Nat} (hword : a % 4096 + 4 ≤ 4096)
    (hpage : ¬ s.TablePage (a / 4096 * 4096)) : s.LeavesTables (store32 s.mem a v) s.pfa := by
  refine ⟨h.total, fun t ht => h.held_of_tablePage ht, fun t ht j hj => ?_⟩
  have haligned := (h.held_of_tablePage ht).aligned
  have hne : a / 4096 * 4096 ≠ t := fun heq => hpage (heq ▸ ht)
  exact load32_store32_disjoint s.mem (by omega)

theorem Tables.storeWord {virt a : Nat} (v : Nat) (hmapped : s.getPageMapping virt = some a)
    (hword : virt % 4096 + 4 ≤ 4096) (hpage : ¬ s.TablePage a) :
    ∃ mem, s.storeWord virt v = { s with mem := mem } ∧ s.LeavesTables mem s.pfa := by
  have haligned := pageAt_aligned hmapped
  have htranslate : translate s.mem s.kernelDir virt = some (a + virt % 4096) := by
    rw [translate_eq]
    exact congrArg (Option.map (· + virt % 4096)) hmapped
  refine ⟨store32 s.mem (a + virt % 4096) v, ?_, h.leaves_store (by omega) ?_⟩
  · unfold Vm.storeWord
    rw [htranslate]
  · have hdown : (a + virt % 4096) / 4096 * 4096 = a := by omega
    rw [hdown]
    exact hpage

end

variable {pfa : Pfa}

theorem LeavesTables.tablePage_iff {mem : Mem} (h : s.LeavesTables mem pfa) {t : Nat} :
    Vm.TablePage { s with mem := mem, pfa := pfa } t ↔ s.TablePage t := by
  unfold TablePage
  refine or_congr Iff.rfl (exists_congr fun i => and_congr_right fun hi => ?_)
  rw [h.same s.kernelDir (.inl rfl) i hi]

theorem Tables.leaves_gave (h : Tables s s.kernelDir) {i : Nat}
    (hgave : s.pfa.Gave i 1 pfa) (hpage : ¬ s.TablePage (i * 4096)) :
    s.LeavesTables s.mem pfa := by
  refine ⟨hgave.total ▸ h.total, fun t ht => ?_, fun _ _ _ _ => rfl⟩
  have hheld := h.held_of_tablePage ht
  have haligned := hheld.aligned
  refine ⟨haligned, hgave.total ▸ hheld.fits, ?_⟩
  rw [hgave.bits _ hheld.fits, if_neg]
  · exact hheld.taken
  · intro heq
    have hti : i * 4096 = t := by omega
    exact hpage (hti ▸ ht)

/-! ### Enough memory -/

theorem mapUpper_done {ram : Nat} (hram : ram ≤ 0xFFC00000) :
    ∀ (fuel k n : Nat) (s : Vm), s.pfa.FreeFrom n → 0 < n →
      n + (tableCount ram - k) ≤ s.pfa.totalFrames → tableCount ram - k < fuel → 0 < k →
      (mapUpper ram fuel s (k * 0x400000)).1 = true ∧
        (mapUpper ram fuel s (k * 0x400000)).2.pfa.totalFrames = s.pfa.totalFrames ∧
        (mapUpper ram fuel s (k * 0x400000)).2.pfa.FreeFrom (n + (tableCount ram - k))
  | 0, _, _, _, _, _, _, hfuel, _ => absurd hfuel (Nat.not_lt_zero _)
  | fuel + 1, k, n, s, h, hpos, hroom, hfuel, hk => by
    have hcount : k * 0x400000 < ram ↔ k < tableCount ram := by
      unfold tableCount
      omega
    rw [mapUpper_succ]
    by_cases hlt : k * 0x400000 < ram
    · have hlt' := hcount.mp hlt
      obtain ⟨haddr, htotal, hfree⟩ := allocFrame_freeFrom h (by omega)
      have hnext : u32 (k * 0x400000 + 0x400000) = (k + 1) * 0x400000 := by
        unfold u32
        omega
      have hrest := mapUpper_done hram fuel (k + 1) (n + 1) (s.upperRound (k * 0x400000))
        (upperRound_pfa s _ ▸ hfree) (by omega) (by rw [upperRound_pfa, htotal]; omega) (by omega)
        (by omega)
      rw [upperRound_pfa, htotal] at hrest
      have hsum : n + 1 + (tableCount ram - (k + 1)) = n + (tableCount ram - k) := by omega
      rw [if_pos hlt, if_neg (by omega), hnext, ← hsum]
      exact hrest
    have hend : tableCount ram - k = 0 := by
      omega
    rw [if_neg hlt, hend]
    exact ⟨rfl, rfl, h⟩

/-- `init_paging` completes if there is a frame for the directory and for each table. -/
theorem initPaging_done {ram : UInt32} {n : Nat} (hram : ram.toNat ≤ 0xFFC00000)
    (h : s.pfa.FreeFrom n) (hpos : 0 < n)
    (hroom : n + 1 + tableCount ram.toNat ≤ s.pfa.totalFrames) :
    (s.initPaging ram).1 = true ∧ (s.initPaging ram).2.pfa.totalFrames = s.pfa.totalFrames ∧
      (s.initPaging ram).2.pfa.FreeFrom (n + 1 + tableCount ram.toNat) := by
  have hone : 1 ≤ tableCount ram.toNat := Nat.le_max_left ..
  have hmax : maxMemory / frameSize = 2 ^ 18 := rfl
  have hsmall := h.total
  obtain ⟨haddr, htotal, hfree⟩ := allocFrame_freeFrom h (by omega)
  obtain ⟨haddr', htotal', hfree'⟩ := @allocFrame_freeFrom s.emptyDir (n + 1) hfree (by
    show n + 1 < s.allocFrame.2.pfa.totalFrames
    omega)
  have htotals : s.emptyDir.firstTable.pfa.totalFrames = s.pfa.totalFrames := htotal'.trans htotal
  have hloop := mapUpper_done hram (maxMemory / frameSize + 1) 1 (n + 2) s.emptyDir.firstTable hfree'
    (by omega) (by omega) (by omega) Nat.one_pos
  have hsum : n + 2 + (tableCount ram.toNat - 1) = n + 1 + tableCount ram.toNat := by omega
  rw [htotals, hsum, Nat.one_mul] at hloop
  rw [initPaging_eq, if_neg (by omega), if_neg (by omega)]
  exact hloop

end Vm

/-! ## Runs of the paging calls -/

/-- A call of `map_page` or `unmap_page`. -/
inductive PageCall where
  | map (virt phys flags : UInt32)
  | unmap (virt : UInt32)

namespace PageCall

def virt : PageCall → UInt32
  | map virt _ _ => virt
  | unmap virt => virt

/-- What a successful call maps its page to. -/
def mapsTo : PageCall → Option Nat
  | map _ phys _ => some (phys.toNat / 4096 * 4096)
  | unmap _ => none

/-- The call; `false` is -1. -/
def run : PageCall → Vm → Bool × Vm
  | map virt phys flags, s => s.mapPage virt.toNat phys.toNat flags.toNat
  | unmap virt, s => s.unmapPage virt.toNat

end PageCall

/-- A step of a run: a call, or whatever else the kernel does to memory and the allocator. -/
inductive PageOp where
  | call (c : PageCall)
  | other (mem : Mem) (pfa : Pfa)

/-- The machine, and the calls so far with their results, the last one first. -/
abbrev PageRun := Vm × List (PageCall × Bool)

def pageStep : PageOp → PageRun → PageRun
  | .call c, r => ((c.run r.1).2, (c, (c.run r.1).1) :: r.2)
  | .other mem pfa, r => ({ r.1 with mem := mem, pfa := pfa }, r.2)

/-- The other steps leave the kernel's tables alone. -/
def PageAllowed : PageOp → PageRun → Prop
  | .call _, _ => True
  | .other mem pfa, r => r.1.LeavesTables mem pfa

/-- The frame of a page: what the last successful call for it said, at first the page itself
    below `ram` bytes, rounded up to 4 MB. -/
def lastMapping (ram : Nat) : List (PageCall × Bool) → Nat → Option Nat
  | [], page =>
    if page * 4096 < (ram + 0x3FFFFF) / 0x400000 * 0x400000 then some (page * 4096) else none
  | (c, ok) :: earlier, page =>
    if ok = true ∧ pageNo c.virt.toNat = page then c.mapsTo else lastMapping ram earlier page

variable {s : Vm}

/-- A call changes the mapping of its own page, if it succeeds, and no other one. -/
theorem PageCall.run_spec (c : PageCall) (h : s.Tables s.kernelDir) :
    (c.run s).2.Tables (c.run s).2.kernelDir ∧ ∀ w, (c.run s).2.getPageMapping w =
      if (c.run s).1 = true ∧ pageNo c.virt.toNat = pageNo w then c.mapsTo
      else s.getPageMapping w := by
  -- both calls either remap the page or fail without touching memory
  have hdone : ∀ {v : Option Nat} {r : Bool × Vm}, r.1 = true →
      s.Remaps s.kernelDir c.virt.toNat v r.2 → r.2.Tables r.2.kernelDir ∧ ∀ w,
        r.2.getPageMapping w = if r.1 = true ∧ pageNo c.virt.toNat = pageNo w then v
          else s.getPageMapping w := by
    intro v r hok hremaps
    refine ⟨hremaps.kernelDir ▸ hremaps.tables, fun w => ?_⟩
    show pageAt r.2.mem r.2.kernelDir w = _
    rw [hremaps.kernelDir, hremaps.page w]
    by_cases hw : pageNo w = pageNo c.virt.toNat
    · rw [if_pos hw, if_pos ⟨hok, hw.symm⟩]
    rw [if_neg hw, if_neg fun hc => hw hc.2.symm]
    rfl
  have hfail : ∀ {v : Option Nat} {r : Bool × Vm}, r.1 = false → s.pfa.Grew r.2.pfa →
      r.2.mem = s.mem → r.2.kernelDir = s.kernelDir → r.2.Tables r.2.kernelDir ∧ ∀ w,
        r.2.getPageMapping w = if r.1 = true ∧ pageNo c.virt.toNat = pageNo w then v
          else s.getPageMapping w := by
    intro v r hno hgrew hmem hkernel
    refine ⟨?_, fun w => ?_⟩
    · rw [hkernel]
      exact h.frame hgrew fun i _ => by rw [hmem]
    · show pageAt r.2.mem r.2.kernelDir w = _
      rw [hkernel, hmem, if_neg fun hc => Bool.false_ne_true (hno.symm.trans hc.1)]
      rfl
  cases c with
  | map virt phys flags =>
    rcases @Vm.mapPageToDir_spec s s.kernelDir virt.toNat phys.toNat flags.toNat h
      phys.toNat_lt with
      ⟨hok, hremaps, -⟩ | ⟨hno, hstate, -, -⟩
    · exact hdone hok hremaps
    have hstate' : ((map virt phys flags).run s).2 = s.allocFrame.2 := hstate
    exact hfail hno (hstate' ▸ s.pfa.grew_allocFrame) (by rw [hstate']; rfl)
      (by rw [hstate']; rfl)
  | unmap virt =>
    rcases @Vm.unmapPageFromDir_spec s s.kernelDir virt.toNat h with ⟨hok, hremaps⟩ | ⟨hno, hstate, -⟩
    · exact hdone hok hremaps
    have hstate' : ((unmap virt).run s).2 = s := hstate
    exact hfail hno (by rw [hstate']; exact .refl _) (by rw [hstate']) (by rw [hstate'])

/-- What holds in a run from a completed `init_paging`. -/
structure Refines (ram : Nat) (r : PageRun) : Prop where
  tables : r.1.Tables r.1.kernelDir
  page : ∀ w, r.1.getPageMapping w = lastMapping ram r.2 (pageNo w)

theorem Refines.step {ram : Nat} {r : PageRun} (op : PageOp) (h : Refines ram r)
    (hop : PageAllowed op r) : Refines ram (pageStep op r) := by
  cases op with
  | call c =>
    obtain ⟨htables, hpage⟩ := c.run_spec h.tables
    refine ⟨htables, fun w => ?_⟩
    show (c.run r.1).2.getPageMapping w = lastMapping ram ((c, (c.run r.1).1) :: r.2) (pageNo w)
    rw [hpage w, h.page w]
    rfl
  | other mem pfa =>
    obtain ⟨htables, hpage⟩ := h.tables.leaves hop
    exact ⟨htables, fun w => (hpage w).trans (h.page w)⟩

variable {ram : UInt32}

section

variable (hp : s.pfa.totalFrames ≤ Pfa.ramFrames ram) (hdone : (s.initPaging ram).1 = true)
include hp hdone

theorem tableCount_of_initPaging : Vm.tableCount ram.toNat = (ram.toNat + 0x3FFFFF) / 0x400000 := by
  have hdir : s.allocFrame.1 ≠ 0 := by
    intro hnone
    rw [Vm.initPaging_eq, if_pos hnone] at hdone
    exact Bool.false_ne_true hdone
  obtain ⟨i, -, htook, -⟩ := Vm.allocFrame_spec (hp.trans (Pfa.ramFrames_le ram)) hdir
  have hfits := htook.fits
  have hram : Pfa.ramFrames ram ≤ ram.toNat / 4096 := by
    unfold Pfa.ramFrames
    split
    · exact Nat.div_le_div_right (by omega)
    · exact le_rfl
  unfold Vm.tableCount
  omega

theorem refines_init : Refines ram.toNat ((s.initPaging ram).2, []) := by
  have hinit := Vm.initPaging_spec (hp.trans (Pfa.ramFrames_le ram)) hdone
  refine ⟨hinit.tables, fun w => (hinit.page w).trans ?_⟩
  rw [tableCount_of_initPaging hp hdone]
  unfold lastMapping
  by_cases hw : pageNo w < 1024 * ((ram.toNat + 0x3FFFFF) / 0x400000)
  · rw [if_pos hw, if_pos (by omega)]
  · rw [if_neg hw, if_neg (by omega)]

end

/-- From a completed `init_paging` on, whatever the calls of `map_page` and `unmap_page`:
    `get_page_mapping` returns the frame of the last successful call for the page; a call
    changes the mapping of no other page, and none at all if it fails. -/
theorem page_tables_refine_map {ram : UInt32} {s₀ : Vm}
    (hp : s₀.pfa.totalFrames ≤ Pfa.ramFrames ram) (hdone : (s₀.initPaging ram).1 = true)
    {r : PageRun} (h : Reach pageStep PageAllowed ((s₀.initPaging ram).2, []) r) :
    (∀ virt : UInt32,
      r.1.getPageMapping virt.toNat = lastMapping ram.toNat r.2 (pageNo virt.toNat)) ∧
    ∀ (c : PageCall) (virt : UInt32),
      pageNo c.virt.toNat ≠ pageNo virt.toNat ∨ (c.run r.1).1 = false →
        (c.run r.1).2.getPageMapping virt.toNat = r.1.getPageMapping virt.toNat := by
  have hrefines := h.invariant (Refines ram.toNat) (refines_init hp hdone)
    fun op r hr hop => hr.step op hop
  refine ⟨fun virt => hrefines.page _, fun c virt hother => ?_⟩
  rw [(c.run_spec hrefines.tables).2, if_neg]
  rintro ⟨hok, hpage⟩
  rcases hother with hne | hno
  · exact hne hpage
  · exact Bool.false_ne_true (hno.symm.trans hok)

/-- Three frames, of which two are free: enough for the directory and the first table. -/
def threeFrames : Vm := ⟨fun _ => 0, ⟨fun _ => 1, 3⟩, 0⟩

/-- Page 1 is mapped to frame 2 and page 2 is unmapped. -/
def remapped : PageRun :=
  pageStep (.call (.unmap 0x2000)) (pageStep (.call (.map 0x1000 0x2000 3))
    ((threeFrames.initPaging 0x3000).2, []))

theorem page_tables_refine_map_remapped :
    Reach pageStep PageAllowed ((threeFrames.initPaging 0x3000).2, []) remapped ∧
      remapped.2.map Prod.snd = [true, true] ∧ remapped.1.getPageMapping 0x1000 = some 0x2000 ∧
      remapped.1.getPageMapping 0x2000 = none ∧ remapped.1.getPageMapping 0 = some 0 := by
  have hdone : (threeFrames.initPaging 0x3000).1 = true := by decide +kernel
  have hrun : Reach pageStep PageAllowed ((threeFrames.initPaging 0x3000).2, []) remapped :=
    .next _ (.next _ .start trivial) trivial
  have hok : remapped.2.map Prod.snd = [true, true] := by decide +kernel
  have hpage := (page_tables_refine_map (by decide) hdone hrun).1
  exact ⟨hrun, hok, (hpage 0x1000).trans (by decide +kernel), (hpage 0x2000).trans (by decide +kernel),
    (hpage 0).trans (by decide +kernel)⟩

end Noverix.Memory
