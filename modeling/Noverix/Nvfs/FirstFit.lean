/-
  The search of `bitmap_find`, for any place and length of the bitmap.

  The outer loops visit the bits of the bitmap in order.  For a clear one, the
  inner loop asks `bitmap_test` for the bits that follow, and `bitmap_test`
  knows where the bitmap starts but not where it ends: behind the last sector of
  the bitmap it reads the bits of whatever sectors are there.  A run found is
  therefore the first run of clear bits that starts in the bitmap, and it may
  reach past its end.
-/

import Noverix.Lib.Loops
import Noverix.Nvfs.Observers

namespace Noverix.Nvfs

open Lib

/-- The bitmap lies on a disk of `n` sectors, and the numbers of its bits fit an `int`. -/
structure BitmapOn (n : Nat) (g : Globals) : Prop where
  inside : g.nvfsOffset + g.sbBitmapStart + g.sbBitmapSectors ≤ n
  sectors : n ≤ 2 ^ 32
  bits : g.sbBitmapSectors * 4096 ≤ 2 ^ 31

/-- The bit of block `b` in the bitmap. -/
def diskBit (g : Globals) (d : Disk) (b : Nat) : Bool :=
  bitAt (d (g.nvfsOffset + g.sbBitmapStart + b / 4096)).byte (b % 4096)

/-- What `bitmap_test` reads for block `b`, in the bitmap or behind it. -/
def testedBit (n : Nat) (g : Globals) (d : Disk) (b : Nat) : Option Bool :=
  (answer n d (bitmapSector g b)).map fun buf => bitAt buf.byte (b % bitsPerSec)

/-- What `bitmap_find` accepts as the start of a run. -/
def startsAt (n : Nat) (g : Globals) (d : Disk) (count b : Nat) : Bool :=
  testedBit n g d b == some false && (count == 1 || val n (bitmapRun b 1 (count - 1)) g d)

section

variable {n : Nat} {g : Globals} {d : Disk}

theorem val_bitmapTest_eq (b : Nat) : val n (bitmapTest b) g d = testedBit n g d b := by
  unfold bitmapTest readSector testedBit
  simp only [val_bind_getState, DiskProg.val_bind_readSec]
  cases answer n d (bitmapSector g b) with
  | none => rfl
  | some buf => rfl

theorem testedBit_inside (hg : BitmapOn n g) {b : Nat} (hb : b < g.sbBitmapSectors * 4096) :
    testedBit n g d b = some (diskBit g d b) := by
  have hinside := hg.inside
  have hsectors := hg.sectors
  have hsector : bitmapSector g b = g.nvfsOffset + g.sbBitmapStart + b / 4096 := by
    unfold bitmapSector
    simp only [bitsPerSec, nvfsSectorSize]
    exact u32_of_lt (by omega)
  have hanswer : answer n d (bitmapSector g b) = some (d (bitmapSector g b)) :=
    if_pos (by rw [hsector]; omega)
  unfold testedBit diskBit
  rw [hanswer, hsector]
  rfl

/-- The inner loop accepts a run exactly if every bit it tests is clear. -/
theorem val_bitmapRun_iff {start j k : Nat} : val n (bitmapRun start j k) g d = true ↔
    ∀ i, j ≤ i → i < j + k → testedBit n g d (u32 (start + i)) = some false := by
  induction k generalizing j with
  | zero => exact iff_of_true rfl fun i h1 h2 => by omega
  | succ k ih =>
    unfold bitmapRun
    rw [val_bind (readOnly_bitmapTest _), val_bitmapTest_eq]
    by_cases hclear : testedBit n g d (u32 (start + j)) = some false
    · rw [hclear]
      refine Iff.trans ih ⟨fun h i h1 h2 => ?_, fun h i h1 h2 => h i (by omega) (by omega)⟩
      rcases Nat.eq_or_lt_of_le h1 with rfl | hlt
      · exact hclear
      · exact h i hlt (by omega)
    refine iff_of_false (fun h => ?_) fun h => hclear (h j le_rfl (by omega))
    rcases hbit : testedBit n g d (u32 (start + j)) with _ | _ | _
    · rw [hbit] at h
      exact absurd h Bool.false_ne_true
    · exact hclear hbit
    rw [hbit] at h
    exact absurd h Bool.false_ne_true

theorem startsAt_iff {count b : Nat} (hcount : 0 < count) (hb : b < 2 ^ 32) :
    startsAt n g d count b = true ↔
      ∀ j < count, testedBit n g d (u32 (b + j)) = some false := by
  have hfirst : u32 (b + 0) = b := u32_of_lt hb
  unfold startsAt
  rw [Bool.and_eq_true, beq_iff_eq, Bool.or_eq_true, beq_iff_eq, val_bitmapRun_iff]
  constructor
  · rintro ⟨hbit, hrest⟩ j hj
    rcases Nat.eq_zero_or_pos j with rfl | hpos
    · rw [hfirst, hbit]
    rcases hrest with rfl | hrest
    · omega
    · exact hrest j hpos (by omega)
  · intro hall
    refine ⟨?_, .inr fun i h1 h2 => hall i (by omega)⟩
    rw [← hall 0 hcount, hfirst]

theorem val_bitmapScan_eq (buf : Sector) (base total count : Nat) (bs : List Nat)
    (hin : ∀ b ∈ bs, base + b < total)
    (hbit : ∀ b ∈ bs, testedBit n g d (base + b) = some (bitAt buf.byte b)) :
    val n (bitmapScan buf base total count bs) g d
      = (bs.map (base + ·)).find? (startsAt n g d count) := by
  induction bs with
  | nil => rfl
  | cons b bs ih =>
    have ih' := ih (fun c hc => hin c (mem_cons_of_mem _ hc))
      (fun c hc => hbit c (mem_cons_of_mem _ hc))
    have hb := hbit b mem_cons_self
    unfold bitmapScan
    rw [if_pos (hin b mem_cons_self), map_cons, find?_cons]
    cases hval : bitAt buf.byte b with
    | true =>
      have hno : startsAt n g d count (base + b) = false := by
        unfold startsAt
        rw [hb, hval]
        rfl
      rw [hno, if_pos rfl]
      exact ih'
    | false =>
      have hyes : startsAt n g d count (base + b)
          = (count == 1 || val n (bitmapRun (base + b) 1 (count - 1)) g d) := by
        unfold startsAt
        rw [hb, hval]
        rfl
      rw [if_neg Bool.false_ne_true, hyes]
      by_cases hc : count = 1
      · rw [if_pos hc, hc]
        rfl
      have hone : (count == 1) = false := beq_false_of_ne hc
      rw [if_neg hc, val_bind (readOnly_bitmapRun _ _ _), hone, Bool.false_or]
      cases val n (bitmapRun (base + b) 1 (count - 1)) g d with
      | true => rfl
      | false => exact ih'

/-- `bitmap_find` returns the first bit of the bitmap that it accepts as the start of a run. -/
theorem val_bitmapFind_eq (hg : BitmapOn n g) (count : Nat) : val n (bitmapFind count) g d
    = (range (g.sbBitmapSectors * 4096)).find? (startsAt n g d count) := by
  have hinside := hg.inside
  have hsectors := hg.sectors
  have hbits := hg.bits
  have hloop : ∀ ss : List Nat, (∀ s ∈ ss, s < g.sbBitmapSectors) →
      val n (bitmapSectors (g.sbBitmapSectors * 4096) count ss) g d
        = (ss.flatMap fun s => (range 4096).map (s * 4096 + ·)).find?
            (startsAt n g d count) := by
    intro ss hss
    induction ss with
    | nil => rfl
    | cons s ss ih =>
      have hs : s < g.sbBitmapSectors := hss s mem_cons_self
      have hbase : u32 (s * bitsPerSec) = s * 4096 := u32_of_lt (by
        simp only [bitsPerSec, nvfsSectorSize]
        omega)
      have hsector : u32 (g.nvfsOffset + g.sbBitmapStart + s)
          = g.nvfsOffset + g.sbBitmapStart + s := u32_of_lt (by omega)
      have hanswer : answer n d (g.nvfsOffset + g.sbBitmapStart + s)
          = some (d (g.nvfsOffset + g.sbBitmapStart + s)) := if_pos (by omega)
      have hscan := val_bitmapScan_eq (n := n) (g := g) (d := d)
        (d (g.nvfsOffset + g.sbBitmapStart + s)) (s * 4096) (g.sbBitmapSectors * 4096) count
        (range 4096)
        (fun b hb => by
          have := mem_range.mp hb
          omega)
        (fun b hb => by
          have := mem_range.mp hb
          have hquot : (s * 4096 + b) / 4096 = s := by omega
          have hrem : (s * 4096 + b) % 4096 = b := by omega
          rw [testedBit_inside hg (by omega), diskBit, hquot, hrem])
      unfold bitmapSectors readSector
      simp only [val_bind_getState, DiskProg.val_bind_readSec]
      rw [hsector, hanswer, flatMap_cons, find?_append, ← hscan, hbase]
      simp only [bitsPerSec, nvfsSectorSize]
      rw [val_bind (readOnly_bitmapScan _ _ _ _ _)]
      generalize hv : val n (bitmapScan _ _ _ _ _) g d = r
      cases r with
      | none => exact ih fun t ht => hss t (mem_cons_of_mem _ ht)
      | some start =>
        -- a start found lies in this sector, so it is a positive `int`
        have hmem := mem_of_find?_eq_some (hscan.symm.trans hv)
        obtain ⟨b, hb, rfl⟩ := mem_map.mp hmem
        have hb := mem_range.mp hb
        exact asInt_of_lt (by omega)
  have htotal : u32 (g.sbBitmapSectors * bitsPerSec) = g.sbBitmapSectors * 4096 := by
    simp only [bitsPerSec, nvfsSectorSize]
    exact u32_of_lt (by omega)
  unfold bitmapFind
  simp only [val_bind_getState]
  rw [htotal, hloop _ fun s hs => mem_range.mp hs, range_flatMap_rows]

end

/-! ## First fit -/

/-- A run of `count` clear bits inside the bitmap. -/
def ClearRun (g : Globals) (d : Disk) (count start : Nat) : Prop :=
  start + count ≤ g.sbBitmapSectors * 4096 ∧ ∀ j, j < count → diskBit g d (start + j) = false

/-- The first run of `count` clear bits inside the bitmap, `none` if there is none. -/
def FirstFit (g : Globals) (d : Disk) (count : Nat) : Option Nat → Prop
  | some start => ClearRun g d count start ∧ ∀ s, s < start → ¬ ClearRun g d count s
  | none => ∀ s, ¬ ClearRun g d count s

/-- A run that starts in the bitmap and goes on behind it, in sectors whose bits are clear. -/
def Overruns (n : Nat) (g : Globals) (d : Disk) (count start : Nat) : Prop :=
  start < g.sbBitmapSectors * 4096 ∧ g.sbBitmapSectors * 4096 < start + count ∧
    ∀ j, j < count → testedBit n g d (u32 (start + j)) = some false

section

variable {n : Nat} {g : Globals} {d : Disk} {count : Nat}

section

variable (hg : BitmapOn n g) (hcount : 0 < count)
include hg hcount

variable {start : Nat}

theorem startsAt_iff_clearRun (hend : start + count ≤ g.sbBitmapSectors * 4096) :
    startsAt n g d count start = true ↔ ClearRun g d count start := by
  have hbits := hg.bits
  have htest : ∀ j, j < count →
      (testedBit n g d (u32 (start + j)) = some false ↔ diskBit g d (start + j) = false) := by
    intro j hj
    rw [u32_of_lt (by omega), testedBit_inside hg (by omega), some_inj]
  rw [startsAt_iff hcount (by omega)]
  exact ⟨fun h => ⟨hend, fun j hj => (htest j hj).mp (h j hj)⟩,
    fun h j hj => (htest j hj).mpr (h.2 j hj)⟩

/-- A run found lies inside the bitmap or goes on behind it. -/
theorem clearRun_or_overruns (hfind : val n (bitmapFind count) g d = some start) :
    ClearRun g d count start ∨ Overruns n g d count start := by
  have hbits := hg.bits
  rw [val_bitmapFind_eq hg] at hfind
  obtain ⟨hstarts, hmem, -⟩ := find?_range_eq_some.mp hfind
  have hlt := mem_range.mp hmem
  rcases Nat.lt_or_ge (g.sbBitmapSectors * 4096) (start + count) with hend | hend
  · exact .inr ⟨hlt, hend, (startsAt_iff hcount (by omega)).mp hstarts⟩
  · exact .inl ((startsAt_iff_clearRun hg hcount hend).mp hstarts)

/-- A run inside the bitmap is found, at its place or before it. -/
theorem bitmapFind_of_clearRun (hrun : ClearRun g d count start) :
    ∃ s, s ≤ start ∧ val n (bitmapFind count) g d = some s ∧ ClearRun g d count s ∧
      ∀ t < s, ¬ ClearRun g d count t := by
  have hend := hrun.1
  rw [val_bitmapFind_eq hg]
  cases hfind : (range (g.sbBitmapSectors * 4096)).find? (startsAt n g d count) with
  | none =>
    have hnot := find?_eq_none.mp hfind start (mem_range.mpr (by omega))
    exact absurd ((startsAt_iff_clearRun hg hcount hend).mpr hrun) hnot
  | some s =>
    obtain ⟨hstarts, -, hbefore⟩ := find?_range_eq_some.mp hfind
    have hle : s ≤ start := by
      by_contra hlt
      have hno := hbefore start (by omega)
      rw [(startsAt_iff_clearRun hg hcount hend).mpr hrun] at hno
      contradiction
    refine ⟨s, hle, rfl, (startsAt_iff_clearRun hg hcount (by omega)).mp hstarts, ?_⟩
    intro t ht hclear
    have hno := hbefore t ht
    rw [(startsAt_iff_clearRun hg hcount hclear.1).mpr hclear] at hno
    contradiction

/-- A run that goes on behind the bitmap is found if there is none inside. -/
theorem bitmapFind_of_overruns (hrun : Overruns n g d count start) :
    val n (bitmapFind count) g d ≠ none := by
  have hbits := hg.bits
  obtain ⟨hlt, -, htest⟩ := hrun
  intro hnone
  rw [val_bitmapFind_eq hg] at hnone
  exact find?_eq_none.mp hnone start (mem_range.mpr hlt)
    ((startsAt_iff hcount (by omega)).mpr htest)

theorem firstFit_iff : FirstFit g d count (val n (bitmapFind count) g d) ↔
      (∃ s, ClearRun g d count s) ∨ ∀ s, ¬ Overruns n g d count s := by
  by_cases hrun : ∃ s, ClearRun g d count s
  · refine iff_of_true ?_ (.inl hrun)
    obtain ⟨start, hrun⟩ := hrun
    obtain ⟨s, -, hfind, hclear, hbefore⟩ := bitmapFind_of_clearRun hg hcount hrun
    rw [hfind]
    exact ⟨hclear, hbefore⟩
  rw [or_iff_right hrun]
  cases hfind : val n (bitmapFind count) g d with
  | none =>
    refine iff_of_true (fun s hclear => hrun ⟨s, hclear⟩) fun s hover => ?_
    exact bitmapFind_of_overruns hg hcount hover hfind
  | some start =>
    have hnot : ¬ ClearRun g d count start := fun hclear => hrun ⟨start, hclear⟩
    refine iff_of_false (fun hfit => hnot hfit.1) fun hnone => ?_
    exact hnone start ((clearRun_or_overruns hg hcount hfind).resolve_left hnot)

end

end

/-- For every bitmap, every length of a run and every contents of the sectors behind the bitmap:
    `bitmap_find` is first fit within the bitmap exactly if there is a run inside it or none
    that starts in it and goes on behind it. -/
theorem bitmap_find_first_fit_iff (n : Nat) (g : Globals) (hg : BitmapOn n g) (d : Disk)
    (count : Nat) (hcount : 1 ≤ count) :
    FirstFit g d count (val n (bitmapFind count) g d) ↔
      (∃ s, ClearRun g d count s) ∨ ∀ s, ¬ Overruns n g d count s :=
  firstFit_iff hg hcount

/-! ## The last bit -/

/-- A volume whose bitmap is one sector, followed by an inode table of one sector. -/
def oneSectorGlobals : Globals where
  mounted := true
  nvfsCh := 0
  nvfsDr := 0
  nvfsCwd := 0
  sbDataStart := 4
  sbInodeStart := 3
  sbInodeCount := 4
  sbInodeBlocks := 1
  sbBitmapStart := 2
  sbBitmapSectors := 1
  nvfsOffset := 0

theorem bitmapOn_oneSector : BitmapOn 4100 oneSectorGlobals := ⟨by decide, by decide, by decide⟩

/-- A bitmap with its last bit clear. -/
def lastFree : Sector := Sector.ofMem fun i => if i = 511 then 0x7F else 0xFF

/-- The disk of such a volume; behind the bitmap all bytes are zero. -/
def lastFreeDisk : Disk := fun l => if l = 2 then lastFree else Sector.zero

/-- The search for one block is first fit on it. -/
theorem bitmap_find_first_fit_iff_lastFree :
    FirstFit oneSectorGlobals lastFreeDisk 1
      (val 4100 (bitmapFind 1) oneSectorGlobals lastFreeDisk) := by
  rw [bitmap_find_first_fit_iff 4100 oneSectorGlobals bitmapOn_oneSector lastFreeDisk 1 (by decide)]
  refine .inr fun s hover => ?_
  have hlt : s < 4096 := hover.1
  have hend : 4096 < s + 1 := hover.2.1
  omega

theorem diskBit_lastFree {b : Nat} (hb : b < 4095) :
    diskBit oneSectorGlobals lastFreeDisk b = true := by
  have hsector : lastFreeDisk (0 + 2 + b / 4096) = lastFree := if_pos (by omega)
  have hbyte : lastFree.byte (b % 4096 / 8) = if b % 4096 / 8 = 511 then 0x7F else 0xFF :=
    byte_ofMem (by omega)
  have hbits : ∀ k < 8, (0xFF : UInt8).toBitVec.getLsbD k = true ∧
      (k < 7 → (0x7F : UInt8).toBitVec.getLsbD k = true) := by decide
  show bitAt (lastFreeDisk (0 + 2 + b / 4096)).byte (b % 4096) = true
  rw [hsector]
  unfold bitAt
  rw [hbyte]
  obtain ⟨hfull, hpart⟩ := hbits (b % 4096 % 8) (by omega)
  split
  · exact hpart (by omega)
  · exact hfull

/-- With only the last bit clear, two blocks are found there, one of them past the end. -/
theorem bitmap_find_overrun :
    val 4100 (bitmapFind 2) oneSectorGlobals lastFreeDisk = some 4095 ∧
      ¬ FirstFit oneSectorGlobals lastFreeDisk 2
        (val 4100 (bitmapFind 2) oneSectorGlobals lastFreeDisk) := by
  have hover : Overruns 4100 oneSectorGlobals lastFreeDisk 2 4095 := by
    refine ⟨by decide, by decide, fun j hj => ?_⟩
    have hlast : lastFree.byte 511 = 0x7F := byte_ofMem (by decide)
    rcases (show j = 0 ∨ j = 1 by omega) with rfl | rfl
    · show some ((lastFree.byte 511).toBitVec.getLsbD 7) = some false
      rw [hlast]
      rfl
    show some ((Sector.zero.byte 0).toBitVec.getLsbD 0) = some false
    rw [byte_zero]
    rfl
  have hnone : ∀ s, ¬ ClearRun oneSectorGlobals lastFreeDisk 2 s := by
    rintro s ⟨hend, hclear⟩
    have hend : s + 2 ≤ 4096 := hend
    have hbit := hclear 0 (by decide)
    rw [Nat.add_zero, diskBit_lastFree (by omega)] at hbit
    contradiction
  have hfound : val 4100 (bitmapFind 2) oneSectorGlobals lastFreeDisk = some 4095 := by
    cases hfind : val 4100 (bitmapFind 2) oneSectorGlobals lastFreeDisk with
    | none => exact absurd hfind (bitmapFind_of_overruns bitmapOn_oneSector (by decide) hover)
    | some start =>
      obtain ⟨hlt, hend, -⟩ := (clearRun_or_overruns bitmapOn_oneSector (by decide)
        hfind).resolve_left (hnone start)
      have hlt : start < 4096 := hlt
      rw [show start = 4095 by omega]
  refine ⟨hfound, ?_⟩
  rw [firstFit_iff bitmapOn_oneSector (by decide)]
  rintro (⟨s, hclear⟩ | hno)
  · exact hnone s hclear
  · exact hno 4095 hover

end Noverix.Nvfs
