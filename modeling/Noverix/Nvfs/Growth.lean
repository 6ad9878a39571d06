/-
  Growing the inode table.  `expand_inode_table` takes the first free data block
  and adds one sector to the table, but inode numbers are turned into sectors
  by counting from the start of the table.  The two agree only when the block
  found is the one right behind the table; otherwise the new inodes overlay a
  block in use.

  `wp_expandInodeTable` says what the expansion does to variables and disk.
  Where it takes the block behind the table, ownership carries over to the
  larger table (`Owned.expanded`), and a call that ran out of inodes behaves as
  if the table had been larger from the start (`wp_inodeAlloc_expanded`).
-/

import Noverix.Nvfs.Ownership

namespace Noverix.Nvfs

open Lib
open Lib.DiskProg (wp wp_bind wp_getState wp_mono)

/-! ## The expansion -/

/-- The variables after a successful expansion. -/
def Globals.expanded (g : Globals) : Globals :=
  { g with
    sbInodeBlocks := u32 (g.sbInodeBlocks + 1)
    sbInodeCount := u32 (u32 (g.sbInodeBlocks + 1) * inodesPerSec) }

/-- `sb_write_field(offset, val)`. -/
def Disk.setSb (d : Disk) (offset val : Nat) : Disk :=
  Function.update d 1 (Sector.ofMem (store32 (d 1).byte offset val))

/-- The disk after an expansion of a table of `ib` sectors with block `b`. -/
def Disk.expanded (d : Disk) (ib b : Nat) : Disk :=
  (((d.setBit b true).setBlk b Sector.zero).setSb 36 (ib + 1)).setSb 28 (4 * (ib + 1))

section

variable {ib : Nat} {g : Globals} {d : Disk} {C : Disk → Prop}

theorem Geometry.expanded (hg : Geometry ib g) (hib : ib < 32758) :
    Geometry (ib + 1) g.expanded where
  mounted := hg.mounted
  offset := hg.offset
  bitmapStart := hg.bitmapStart
  bitmapSectors := hg.bitmapSectors
  inodeStart := hg.inodeStart
  dataStart := hg.dataStart
  inodeBlocks := by
    show u32 (g.sbInodeBlocks + 1) = ib + 1
    rw [hg.inodeBlocks, u32_of_lt (by omega)]
  inodeCount := by
    show u32 (u32 (g.sbInodeBlocks + 1) * 4) = 4 * (ib + 1)
    rw [hg.inodeBlocks, u32_of_lt (by omega : ib + 1 < 2 ^ 32), u32_of_lt (by omega)]
    omega
  lo := by have := hg.lo; omega
  hi := hib

variable {Q : Bool → Globals → Disk → Prop}

theorem wp_sbWriteField (hoff : g.nvfsOffset = 0) {offset val : Nat} :
    wp 32768 C (sbWriteField offset val) Q g d ↔
      C (d.setSb offset val) ∧ Q true g (d.setSb offset val) := by
  have hsec : u32 (g.nvfsOffset + 1) = 1 := by rw [hoff]; rfl
  unfold sbWriteField readSector writeSector
  simp only [wp_bind, wp_getState, wp_readSec]
  rw [hsec, answer_lt (by omega)]
  simp only [wp_writeSec]
  rw [if_pos (by omega)]
  rfl

/-- What an expansion does: nothing without a free bit; a mark set and cleared again when
    the bit lies behind the data area; otherwise it succeeds. -/
theorem wp_expandInodeTable (hg : Geometry ib g)
    (hlo : ∀ b, (vol ib d).bit b = false → ib ≤ b + 32) :
    wp 32768 (fun _ => True) expandInodeTable Q g d ↔
      match val 32768 (bitmapFind 1) g d with
      | none => Q false g d
      | some b =>
        if b < 32726 then Q true g.expanded (d.expanded ib b)
        else Q false g ((d.setBit b true).setBit b false) := by
  unfold expandInodeTable
  rw [wp_bind, wp_readOnly (readOnly_bitmapFind _)]
  cases hfind : val 32768 (bitmapFind 1) g d with
  | none => rfl
  | some b =>
    have hb := bitmapFind_lt hg hfind
    simp only
    rw [wp_bind, wp_bitmapSet hg hb, wp_bind, true_and]
    by_cases hend : b < 32726
    · have hfree := hlo b (bitmapFind_free hg hfind (Or.inl rfl) hb)
      have hg' := hg.expanded (by omega : ib < 32758)
      have hblocks : u32 (g.sbInodeBlocks + 1) = ib + 1 := hg'.inodeBlocks
      have hcount : u32 (u32 (g.sbInodeBlocks + 1) * inodesPerSec) = 4 * (ib + 1) := hg'.inodeCount
      rw [wp_writeBlock hg hend, if_pos hend, if_pos rfl, wp_bind,
        wp_getState, wp_bind, wp_sbWriteField hg.offset, if_pos rfl,
        wp_bind, DiskProg.wp_setState, wp_bind, true_and, true_and]
      show wp 32768 _ (sbWriteField 28 (u32 (u32 (g.sbInodeBlocks + 1) * inodesPerSec))) _
        g.expanded _ ↔ _
      rw [wp_sbWriteField hg'.offset, if_pos rfl, hcount, hblocks, true_and]
      rfl
    rw [wp_writeBlock_end hg (by omega) (by omega), if_neg hend, if_neg Bool.false_ne_true,
      wp_bind, wp_bitmapSet hg hb, true_and]
    rfl

end

/-! ## The volume after an expansion -/

section

variable {ib b : Nat} {d : Disk}

/-- An expansion touches the superblock, one bitmap sector and one data block. -/
theorem Disk.expanded_sector {l : Nat} (h1 : l ≠ 1) (h2 : l ≠ 2 + b / 4096) (h3 : l ≠ 42 + b) :
    d.expanded ib b l = d l := by
  unfold Disk.expanded Disk.setSb Disk.setBlk Disk.setBit
  rw [update_of_ne h1, update_of_ne h1, update_of_ne h3,
    update_of_ne h2]

theorem Disk.expanded_block : d.expanded ib b (42 + b) = Sector.zero := by
  unfold Disk.expanded Disk.setSb Disk.setBlk
  rw [update_of_ne (by omega), update_of_ne (by omega), update_self]

variable {i : Nat}

theorem expanded_ino (hb : b < 32768) (hlo : ib ≤ b + 32) (hi : i < 4 * ib) :
    (vol (ib + 1) (d.expanded ib b)).ino i = (vol ib d).ino i := by
  rw [vol_ino, vol_ino, if_pos (by omega), if_pos hi,
    Disk.expanded_sector (by omega) (by omega) (by omega)]

theorem expanded_bit (hb : b < 32768) (c : Nat) :
    (vol (ib + 1) (d.expanded ib b)).bit c = if c = b then true else (vol ib d).bit c := by
  have hset : (vol (ib + 1) (d.setBit b true)).bit c = if c = b then true else (vol ib d).bit c := by
    rw [vol_setBit hb, setBit_bit]
    rfl
  rw [← hset, vol_bit, vol_bit]
  by_cases hc : c < 32768
  · rw [if_pos hc, if_pos hc]
    unfold Disk.expanded Disk.setSb Disk.setBlk
    rw [update_of_ne (by omega), update_of_ne (by omega),
      update_of_ne (by omega)]
  · rw [if_neg hc, if_neg hc]

theorem expanded_blk (hb : b < 32768) {c : Nat} (hc : InData (ib + 1) c) (hcb : c ≠ b) :
    (vol (ib + 1) (d.expanded ib b)).blk c = (vol ib d).blk c := by
  obtain ⟨hlo, hhi⟩ := hc
  rw [vol_blk, vol_blk, if_pos ⟨hlo, hhi⟩, if_pos ⟨by omega, hhi⟩,
    Disk.expanded_sector (by omega) (by omega) (by omega)]

/-- When the block taken is the one behind the table, the new inodes are free and hold
    nothing. -/
theorem expanded_new (hin : b + 32 = ib) (hi : 4 * ib ≤ i) :
    ((vol (ib + 1) (d.expanded ib b)).ino i).type = 0 ∧
      ((vol (ib + 1) (d.expanded ib b)).ino i).extentCount = 0 := by
  rw [vol_ino]
  by_cases hlt : i < 4 * (ib + 1)
  · have hsec : 10 + i / 4 = 42 + b := by omega
    have hzero : load32 Sector.zero.byte (i % 4 * 128 + 8) = 0 := by
      simp [load32]
    have hcount : (Inode.load Sector.zero.byte (i % 4 * 128)).extentCount = 0 := by
      show UInt32.ofNat (load32 Sector.zero.byte (i % 4 * 128 + 8)) = 0
      rw [hzero]
      rfl
    rw [if_pos hlt, hsec, Disk.expanded_block, capExtents_of_le (by rw [hcount]; decide)]
    exact ⟨byte_zero _, hcount⟩
  rw [if_neg hlt]
  exact ⟨rfl, rfl⟩

/-- Then every block still has one owner, and none lies in the larger table. -/
theorem Owned.expanded {P : Inode → Bool} (hV : Owned P ib (vol ib d)) (hb : b < 32726)
    (hin : b + 32 = ib) (hfree : (vol ib d).bit b = false) :
    Owned P (ib + 1) (vol (ib + 1) (d.expanded ib b)) := by
  have hne : ∀ i, ∀ c ∈ (vol ib d).holds P i, c ≠ b := by
    rintro i c hc rfl
    rw [hV.marked i c hc] at hfree
    cases hfree
  have hdata : ∀ i, ∀ c ∈ (vol ib d).holds P i, InData (ib + 1) c := fun i c hc => by
    have h1 := hV.inData i c hc
    have h2 := hne i c hc
    exact ⟨by have := h1.1; omega, h1.2⟩
  have hholds : ∀ i, (vol (ib + 1) (d.expanded ib b)).holds P i = (vol ib d).holds P i := by
    intro i
    unfold Vol.holds
    by_cases hi : i < 4 * ib
    · rw [expanded_ino (by omega) (by omega) hi]
      by_cases hp : P ((vol ib d).ino i) = true
      · rw [if_pos hp, if_pos hp]
        refine refs_congr fun c hc => ?_
        have hmem : c ∈ (vol ib d).holds P i := by
          rw [holds_pos hp]
          exact mem_append_right _ hc
        exact expanded_blk (by omega) (hdata i c hmem) (hne i c hmem)
      · rw [if_neg hp, if_neg hp]
    -- neither a new inode nor one outside the table refers to anything
    have hold : (vol ib d).refs ((vol ib d).ino i) = [] := by
      rw [vol_ino, if_neg hi]
      exact refs_of_count_zero rfl
    rw [refs_of_count_zero (expanded_new hin (by omega)).2, hold, ite_self, ite_self]
  refine ⟨fun i c hc => ?_, fun i c hc => ?_, fun i => ?_, fun i j hij c hc => ?_, fun c hc => ?_⟩
  · rw [hholds] at hc
    exact hdata i c hc
  · rw [hholds] at hc
    rw [expanded_bit (by omega), if_neg (hne i c hc)]
    exact hV.marked i c hc
  · rw [hholds]
    exact hV.nodup i
  · rw [hholds] at hc ⊢
    exact hV.disjoint i j hij c hc
  · rw [expanded_bit (by omega)]
    by_cases hcb : c = b
    · exact if_pos hcb
    rw [if_neg hcb]
    exact hV.table c (by omega)

end

/-! ## Allocation without a free slot -/

section

variable {ib : Nat} {g : Globals} {d : Disk} {type : UInt8} {ticks : Nat}
  {Q : Option Nat → Globals → Disk → Prop}

theorem find_slot_none (hno : ¬ FreeSlot ib (vol ib d)) {is : List Nat}
    (his : ∀ i ∈ is, 1 ≤ i ∧ i < 4 * ib) :
    (is.find? fun i => ((vol ib d).ino i).type = 0) = none := by
  refine find?_eq_none.mpr fun i hi => ?_
  obtain ⟨h1, h2⟩ := his i hi
  exact fun ht => hno ⟨i, h1, h2, by simpa using ht⟩

/-- Without a free slot the table is expanded, and the new slots are tried. -/
theorem wp_inodeAlloc_full (hg : Geometry ib g)
    (hlo : ∀ b, (vol ib d).bit b = false → ib ≤ b + 32) (hno : ¬ FreeSlot ib (vol ib d)) :
    wp 32768 (fun _ => True) (inodeAlloc type ticks) Q g d ↔
      match val 32768 (bitmapFind 1) g d with
      | none => Q none g d
      | some b =>
        if b < 32726 then
          match (range' (4 * ib) 4).find?
              fun i => ((vol (ib + 1) (d.expanded ib b)).ino i).type = 0 with
          | none => Q none g.expanded (d.expanded ib b)
          | some i => Q (some i) g.expanded
              ((d.expanded ib b).setIno i (freshInode type (nowSec ticks)))
        else Q none g ((d.setBit b true).setBit b false) := by
  unfold inodeAlloc
  rw [wp_bind, wp_getState,
    wp_inodeAllocLoop hg fun i hi => ((hg.mem_slots i).mp hi).2,
    find_slot_none hno fun i hi => (hg.mem_slots i).mp hi]
  simp only
  unfold inodeAllocGrow
  rw [wp_bind, wp_expandInodeTable hg hlo]
  cases hfind : val 32768 (bitmapFind 1) g d with
  | none => rfl
  | some b =>
    simp only
    split
    · have hfree := hlo b (bitmapFind_free hg hfind (Or.inl rfl) (by omega))
      have hg' := hg.expanded (by omega : ib < 32758)
      have hfirst : u32 (g.expanded.sbInodeCount + 2 ^ 32 - inodesPerSec) = 4 * ib := by
        rw [hg'.inodeCount]
        unfold u32
        simp only [inodesPerSec, nvfsSectorSize, nvfsInodeSize]
        omega
      have hlen : g.expanded.sbInodeCount - 4 * ib = 4 := by
        rw [hg'.inodeCount]
        omega
      rw [if_pos trivial, wp_bind, wp_getState, hfirst, hlen,
        wp_inodeAllocLoop hg' fun i hi => by rw [mem_range'_1] at hi; omega]
      cases (range' (4 * ib) 4).find?
          fun i => ((vol (ib + 1) (d.expanded ib b)).ino i).type = 0 with
      | none => rfl
      | some i => exact iff_of_eq (true_and _)
    · rfl

/-- After an expansion in place, it is as if the table had been larger before. -/
theorem wp_inodeAlloc_expanded (hg : Geometry ib g)
    (hlo : ∀ b, (vol ib d).bit b = false → ib ≤ b + 32) (hno : ¬ FreeSlot ib (vol ib d)) {b : Nat}
    (hfind : val 32768 (bitmapFind 1) g d = some b) (hb : b < 32726) (hin : b + 32 = ib) :
    wp 32768 (fun _ => True) (inodeAlloc type ticks) Q g d ↔
      wp 32768 (fun _ => True) (inodeAlloc type ticks) Q g.expanded (d.expanded ib b) := by
  have h32 := hg.lo
  have hg' := hg.expanded (by omega : ib < 32758)
  have hnew := (expanded_new (d := d) hin (Nat.le_refl (4 * ib))).1
  have hnew4 : (range' (4 * ib) 4).find?
      (fun i => ((vol (ib + 1) (d.expanded ib b)).ino i).type = 0) = some (4 * ib) := by
    rw [List.range'_succ, List.find?_cons_of_pos (by simpa using hnew)]
  -- the slots of the larger table are the old ones, all in use, and the new ones
  have hslots : range' 1 (g.expanded.sbInodeCount - 1)
      = range' 1 (4 * ib - 1) ++ range' (4 * ib) 4 := by
    rw [hg'.inodeCount, show 4 * (ib + 1) - 1 = (4 * ib - 1) + 4 by omega, ← List.range'_append_1,
      show 1 + (4 * ib - 1) = 4 * ib by omega]
  have hold : (range' 1 (4 * ib - 1)).find?
      (fun i => ((vol (ib + 1) (d.expanded ib b)).ino i).type = 0) = none := by
    refine find?_eq_none.mpr fun i hi => ?_
    rw [mem_range'_1] at hi
    rw [expanded_ino (by omega) (by omega) (by omega)]
    exact fun ht => hno ⟨i, by omega, by omega, by simpa using ht⟩
  rw [wp_inodeAlloc_full hg hlo hno, hfind]
  simp only
  rw [if_pos hb, hnew4]
  unfold inodeAlloc
  rw [wp_bind, wp_getState,
    wp_inodeAllocLoop hg' fun i hi => ((hg'.mem_slots i).mp hi).2, hslots, find?_append, hold,
    none_or, hnew4]
  simp only [true_and]

/-- Without a free slot and without a free data block, `inode_alloc` fails. -/
theorem wp_inodeAlloc_noRoom (hg : Geometry ib g)
    (hlo : ∀ b, (vol ib d).bit b = false → ib ≤ b + 32) (hno : ¬ FreeSlot ib (vol ib d))
    (hfull : ∀ b, val 32768 (bitmapFind 1) g d = some b → ¬ b < 32726)
    (hQ : ∀ d', vol ib d' = vol ib d → Q none g d') :
    wp 32768 (fun _ => True) (inodeAlloc type ticks) Q g d := by
  rw [wp_inodeAlloc_full hg hlo hno]
  cases hfind : val 32768 (bitmapFind 1) g d with
  | none => exact hQ d rfl
  | some b =>
    have hb := bitmapFind_lt hg hfind
    have hfree : (vol ib d).bit b = false := bitmapFind_free hg hfind (Or.inl rfl) hb
    simp only
    rw [if_neg (hfull b hfind)]
    -- the mark is set and cleared again
    refine hQ _ ?_
    rw [vol_setBit hb, vol_setBit hb]
    apply Vol.ext <;> try rfl
    funext c
    rw [setBit_bit, setBit_bit]
    by_cases hc : c = b
    · rw [if_pos hc, hc, hfree]
    · rw [if_neg hc, if_neg hc]

end

/-! ## Calls -/

section

variable {ib : Nat} {P : Inode → Bool}

theorem createFile_eq (env : Env) (parent : Nat) (name : List UInt8) (data : Mem) (size : Nat) :
    ∃ rest, createFile env parent name data size
      = inodeAlloc nvfsTypeFile (env.ticks 0) >>= rest ∧ rest none = pure false := ⟨_, rfl, rfl⟩

theorem createDir_eq (env : Env) (parent : Nat) (name : List UInt8) :
    ∃ rest, createDir env parent name = inodeAlloc nvfsTypeDir (env.ticks 0) >>= rest ∧
      rest none = pure false := ⟨_, rfl, rfl⟩

variable {s : State} {op : Op}

section

variable (hP : Counts P) (hg : Geometry ib s.g)
include hP hg

/-- A call that allocates is `inode_alloc` followed by a program that gives up without an
    inode, and with one keeps ownership. -/
theorem allocates_wp (ha : op.Allocates s) :
    ∃ (type : UInt8) (ticks : Nat) (rest : Option Nat → NvfsM Bool), rest none = pure false ∧
      (∀ Q, wp 32768 (fun _ => True) (inodeAlloc type ticks >>= rest) Q s.g s.d →
        wp 32768 (fun _ => True) op.prog Q s.g s.d) ∧
      ∀ {ib : Nat} {g : Globals} {d : Disk}, Geometry ib g → Owned P ib (vol ib d) →
        FreeSlot ib (vol ib d) →
        wp 32768 (fun _ => True) (inodeAlloc type ticks >>= rest)
          (fun _ g' d' => g' = g ∧ Kept P ib (vol ib d) (vol ib d')) g d := by
  cases op with
  | write env path data size =>
    obtain ⟨parent, name, hres, hfind⟩ := ha
    obtain ⟨rest, heq, hnone⟩ := createFile_eq env parent name data size.toNat
    refine ⟨nvfsTypeFile, env.ticks 0, rest, hnone, fun Q hw => ?_, fun hg' hV' hslot => ?_⟩
    · show wp 32768 _ (nvfsWrite env path.bytes data size.toNat) Q s.g s.d
      rw [wp_nvfsWrite hg, hres]
      simp only
      rw [hfind, heq]
      exact hw
    · rw [← heq]
      refine wp_mono (fun _ _ => trivial) ?_ (createFile_spec hP hg' hV' hslot
        (resolveNamed_nulFree hres) env data size.toNat)
      rintro r g' d' ⟨rfl, hmade⟩
      exact ⟨rfl, hmade.kept hP hV'⟩
  | mkdir env path =>
    obtain ⟨parent, name, hres⟩ := ha
    obtain ⟨rest, heq, hnone⟩ := createDir_eq env parent name
    refine ⟨nvfsTypeDir, env.ticks 0, rest, hnone, fun Q hw => ?_, fun hg' hV' hslot => ?_⟩
    · show wp 32768 _ (nvfsMkdir env path.bytes) Q s.g s.d
      rw [wp_nvfsMkdir, hres]
      simp only
      rw [heq]
      exact hw
    · rw [← heq]
      refine wp_mono (fun _ _ => trivial) ?_ (createDir_spec hP hg' hV' hslot
        (resolveNamed_nulFree hres) env)
      rintro r g' d' ⟨rfl, hmade⟩
      exact ⟨rfl, hmade.kept hP hV'⟩
  | _ => exact ha.elim

/-- A call that runs out of inodes and cannot grow the table changes nothing. -/
theorem step_noRoom (hV : Owned P ib (vol ib s.d)) (ha : op.Allocates s)
    (hno : ¬ FreeSlot ib (vol ib s.d))
    (hfull : ∀ b, val 32768 (bitmapFind 1) s.g s.d = some b → ¬ b < 32726) :
    (step op s).g = s.g ∧ vol ib (step op s).d = vol ib s.d := by
  obtain ⟨type, ticks, rest, hnone, hprog, -⟩ := allocates_wp hP hg ha
  refine step_of_wp (Q := fun g' d' => g' = s.g ∧ vol ib d' = vol ib s.d) (hprog _ ?_)
  rw [wp_bind]
  refine wp_inodeAlloc_noRoom hg (fun _ => hV.lo_of_free) hno hfull fun d' hd' => ?_
  rw [hnone]
  exact ⟨rfl, hd'⟩

/-- A call that grows the table by the block behind it keeps ownership, for the larger
    table. -/
theorem step_expanded (hV : Owned P ib (vol ib s.d)) (ha : op.Allocates s)
    (hno : ¬ FreeSlot ib (vol ib s.d)) {b : Nat} (hfind : val 32768 (bitmapFind 1) s.g s.d = some b)
    (hb : b < 32726) (hin : b + 32 = ib) :
    Geometry (ib + 1) (step op s).g ∧ Owned P (ib + 1) (vol (ib + 1) (step op s).d) := by
  obtain ⟨type, ticks, rest, -, hprog, hkept⟩ := allocates_wp hP hg ha
  have hg' := hg.expanded (by omega : ib < 32758)
  have hlo := hg.lo
  have hfree : (vol ib s.d).bit b = false := bitmapFind_free hg hfind (Or.inl rfl) (by omega)
  have hV' := hV.expanded hb hin hfree
  have hslot : FreeSlot (ib + 1) (vol (ib + 1) (s.d.expanded ib b)) :=
    ⟨4 * ib, by omega, by omega, (expanded_new hin le_rfl).1⟩
  refine step_of_wp (Q := fun g' d' => Geometry (ib + 1) g' ∧ Owned P (ib + 1) (vol (ib + 1) d'))
    (hprog _ ?_)
  rw [wp_bind, wp_inodeAlloc_expanded hg (fun _ => hV.lo_of_free) hno hfind hb hin,
    ← wp_bind]
  refine wp_mono (fun _ h => h) ?_ (hkept hg' hV' hslot)
  rintro r g' d' ⟨rfl, hk⟩
  exact ⟨hg', hk.owned⟩

end

end

end Noverix.Nvfs
