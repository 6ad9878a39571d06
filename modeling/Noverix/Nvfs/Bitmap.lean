/-
  The block bitmap on volumes.  `bitmap_find` is a first-fit search: it returns
  the least free bit whose followers pass its run test (`val_bitmapFind`).  The
  run test reads past the end of the bitmap when a run reaches there, so all
  that is known of a run found is that its bits inside the bitmap are free
  (`bitmapFind_free`); for a single block the search is exact
  (`bitmapFind_one`, `bitmapFind_none`).
-/

import Mathlib.Data.List.Find
import Noverix.Nvfs.FirstFit
import Noverix.Nvfs.Volume

namespace Noverix.Nvfs

open Lib
open Lib.DiskProg (wp)

variable {b start j k count : Nat} {bs : List Nat}

/-! ## The search -/

section

variable {ib : Nat} {g : Globals} {d : Disk}

theorem Geometry.bitmapOn (hg : Geometry ib g) : BitmapOn 32768 g where
  inside := by
    rw [hg.offset, hg.bitmapStart, hg.bitmapSectors]
    decide
  sectors := by decide
  bits := by
    rw [hg.bitmapSectors]
    decide

theorem testedBit_vol (hg : Geometry ib g) (hb : b < 32768) :
    testedBit 32768 g d b = some ((vol ib d).bit b) := by
  rw [testedBit_inside hg.bitmapOn (by rw [hg.bitmapSectors]; exact hb), diskBit, hg.offset,
    hg.bitmapStart, Nat.zero_add, vol_bit, if_pos hb]

theorem bitmapRun_free (hg : Geometry ib g) (h : val 32768 (bitmapRun start j k) g d = true)
    {i : Nat} (hji : j ≤ i) (hi : i < j + k)
    (hb : start + i < 32768) : (vol ib d).bit (start + i) = false := by
  have hclear := val_bitmapRun_iff.mp h i hji hi
  rw [u32_of_lt (by omega), testedBit_vol hg hb] at hclear
  exact some.inj hclear

/-- What `bitmap_find` accepts as the start of a run. -/
def startsRun (ib : Nat) (g : Globals) (d : Disk) (count b : Nat) : Bool :=
  !(vol ib d).bit b && (count == 1 || val 32768 (bitmapRun b 1 (count - 1)) g d)

section

variable (hg : Geometry ib g)
include hg

theorem startsRun_eq (count : Nat) (hb : b < 32768) :
    startsRun ib g d count b = startsAt 32768 g d count b := by
  unfold startsRun startsAt
  rw [testedBit_vol hg hb]
  cases (vol ib d).bit b with
  | true => rfl
  | false => rfl

theorem val_bitmapFind (count : Nat) :
    val 32768 (bitmapFind count) g d = (range 32768).find? (startsRun ib g d count) := by
  rw [val_bitmapFind_eq hg.bitmapOn, hg.bitmapSectors]
  refine List.find?_congr fun b hb => ?_
  exact (startsRun_eq hg count (mem_range.mp hb)).symm

theorem bitmapFind_lt (h : val 32768 (bitmapFind count) g d = some start) : start < 32768 := by
  rw [val_bitmapFind hg] at h
  exact mem_range.mp (mem_of_find?_eq_some h)

theorem bitmapFind_free (h : val 32768 (bitmapFind count) g d = some start) (hj : j = 0 ∨ j < count)
    (hb : start + j < 32768) : (vol ib d).bit (start + j) = false := by
  rw [val_bitmapFind hg] at h
  have hp := find?_some h
  unfold startsRun at hp
  rw [Bool.and_eq_true, Bool.not_eq_true', Bool.or_eq_true, beq_iff_eq] at hp
  obtain ⟨hfree, hrun⟩ := hp
  rcases hj with rfl | hj
  · exact hfree
  by_cases hj0 : j = 0
  · rw [hj0]
    exact hfree
  rcases hrun with hone | hrun
  · omega
  · exact bitmapRun_free hg hrun (by omega) (by omega) hb

theorem bitmapRun_of_free (hend : start + j + k ≤ 32768)
    (hfree : ∀ i, j ≤ i → i < j + k → (vol ib d).bit (start + i) = false) :
    val 32768 (bitmapRun start j k) g d = true := by
  refine val_bitmapRun_iff.mpr fun i h1 h2 => ?_
  rw [u32_of_lt (by omega), testedBit_vol hg (by omega), hfree i h1 h2]

/-- A run of no blocks is found at the first free block. -/
theorem bitmapFind_of_free (hend : b + max 1 count ≤ 32768)
    (hfree : ∀ i < max 1 count, (vol ib d).bit (b + i) = false) :
    ∃ start, start ≤ b ∧ val 32768 (bitmapFind count) g d = some start := by
  have hstarts : startsRun ib g d count b = true := by
    have hb : (vol ib d).bit b = false := hfree 0 (by omega)
    have hrun : val 32768 (bitmapRun b 1 (count - 1)) g d = true :=
      bitmapRun_of_free hg (by omega) fun i h1 h2 => hfree i (by omega)
    unfold startsRun
    rw [hb, hrun]
    simp
  rw [val_bitmapFind hg]
  cases hfind : (range 32768).find? (startsRun ib g d count) with
  | none => exact absurd hstarts (find?_eq_none.mp hfind b (mem_range.mpr (by omega)))
  | some start =>
    refine ⟨start, ?_, rfl⟩
    by_contra hlt
    have hno := (find?_range_eq_some.mp hfind).2.2 b (by omega)
    rw [hstarts] at hno
    exact absurd hno (by simp)

theorem bitmapFind_one (h : val 32768 (bitmapFind 1) g d = some start) (hb : b < start) :
    (vol ib d).bit b = true := by
  rw [val_bitmapFind hg, find?_range_eq_some] at h
  simpa [startsRun] using h.2.2 b hb

theorem bitmapFind_none (h : val 32768 (bitmapFind 1) g d = none) (hb : b < 32768) :
    (vol ib d).bit b = true := by
  rw [val_bitmapFind hg, find?_eq_none] at h
  simpa [startsRun] using h b (mem_range.mpr hb)

end

end

/-! ## Marking and clearing runs of blocks -/

namespace Vol

/-- The volume with the blocks `bs` free. -/
def clear (V : Vol) (bs : List Nat) : Vol := { V with bit := fun b => V.bit b && decide (b ∉ bs) }

@[simp] theorem clear_ino (V : Vol) (bs : List Nat) : (V.clear bs).ino = V.ino := rfl
@[simp] theorem clear_blk (V : Vol) (bs : List Nat) : (V.clear bs).blk = V.blk := rfl

theorem clear_bit (V : Vol) (bs : List Nat) (b : Nat) :
    (V.clear bs).bit b = (V.bit b && decide (b ∉ bs)) := rfl

theorem clear_bit_of_not_mem {V : Vol} (h : b ∉ bs) :
    (V.clear bs).bit b = V.bit b := by simp [clear_bit, h]

theorem clear_nil (V : Vol) : V.clear [] = V := by
  apply Vol.ext <;> try rfl
  funext b
  simp [clear_bit]

theorem setBit_clear (V : Vol) (b : Nat) (bs : List Nat) :
    (V.setBit b false).clear bs = V.clear (b :: bs) := by
  apply Vol.ext <;> try rfl
  funext c
  rw [clear_bit, clear_bit, setBit_bit]
  by_cases hc : c = b
  · simp [hc]
  · simp [hc]

end Vol

section

variable {ib : Nat} {g : Globals} {d : Disk}

/-- Clearing blocks one after the other; on the way, some of them are free. -/
theorem bitmapClear_spec (hg : Geometry ib g) (hbs : ∀ b ∈ bs, b < 32768) :
    wp 32768 (fun d' => ∃ l, l ⊆ bs ∧ vol ib d' = (vol ib d).clear l) (bitmapClear bs)
      (fun _ g' d' => g' = g ∧ vol ib d' = (vol ib d).clear bs) g d := by
  induction bs generalizing d with
  | nil => exact ⟨rfl, (Vol.clear_nil _).symm⟩
  | cons b bs ih =>
    have hb : b < 32768 := hbs b mem_cons_self
    have hset : vol ib (d.setBit b false) = (vol ib d).setBit b false := vol_setBit hb false
    unfold bitmapClear
    rw [DiskProg.wp_bind, wp_bitmapSet hg hb]
    refine ⟨⟨[b], by simp, ?_⟩, ?_⟩
    · rw [hset, ← Vol.setBit_clear, Vol.clear_nil]
    · refine DiskProg.wp_mono ?_ ?_ (ih fun c hc => hbs c (mem_cons_of_mem _ hc))
      · rintro d' ⟨l, hl, hd'⟩
        exact ⟨b :: l, List.cons_subset_cons b hl, by rw [hd', hset, Vol.setBit_clear]⟩
      · rintro _ g' d' ⟨hg', hd'⟩
        exact ⟨hg', by rw [hd', hset, Vol.setBit_clear]⟩

end

end Noverix.Nvfs
