/-
  The lower half of the driver on a device that may fail.  Whatever fails, a
  function touches only what was free (`Spares`): `bitmap_find` returns free
  blocks, and the blocks that `extent_write` and `expand_inode_table` write are
  those it returned.  The marks are another matter, since a failed `bitmap_set`
  goes unnoticed: the bitmap shows the marks noted as stored and no others
  (`Filling`), and what a function takes back it takes back for certain only
  when the sectors of the bitmap do not fail (`BitmapServed`).
-/

import Noverix.Nvfs.Noted
import Noverix.Nvfs.View

namespace Noverix.Nvfs

open Lib
open Lib.DiskProg (must must_bind must_mono)

variable {V W X : Vol} {bs : List Nat} {b start j k count max size : Nat} {n : Inode}
  {f : Nat → Sector} {m : List Note}
  {D : Device} {g : Globals} {d : Disk}

/-! ## What is left alone -/

/-- Everything in use in `V` is as it was: the inodes, and the blocks that are marked. -/
structure Spares (V W : Vol) : Prop where
  ino : W.ino = V.ino
  bit : ∀ b, V.bit b = true → W.bit b = true
  blk : ∀ b, V.bit b = true → W.blk b = V.blk b

theorem Spares.refl (V : Vol) : Spares V V := ⟨rfl, fun _ h => h, fun _ _ => rfl⟩

theorem Spares.trans (h : Spares V W) (h' : Spares W X) : Spares V X where
  ino := h'.ino.trans h.ino
  bit b hb := h'.bit b (h.bit b hb)
  blk b hb := (h'.blk b (h.bit b hb)).trans (h.blk b hb)

/-- What a call that takes its marks back leaves on the disk. -/
abbrev Spared (D : Device) (g : Globals) (d d' : Disk) : Prop :=
  Spares (view g d) (view g d') ∧ (BitmapServed D g → (view g d').bit = (view g d).bit)

/-- Of what is in the bitmap and in the blocks, only the free block `b` has changed. -/
structure Touched (V : Vol) (b : Nat) (W : Vol) : Prop where
  free : V.bit b = false
  ino : W.ino = V.ino
  bit : ∀ c, c ≠ b → W.bit c = V.bit c
  blk : ∀ c, c ≠ b → W.blk c = V.blk c

namespace Touched

variable {V W : Vol} {b : Nat}

theorem refl (h : V.bit b = false) : Touched V b V := ⟨h, rfl, fun _ _ => rfl, fun _ _ => rfl⟩

section

variable (h : Touched V b W)
include h

theorem setBit (v : Bool) : Touched V b (W.setBit b v) where
  free := h.free
  ino := h.ino
  bit c hc := by rw [setBit_bit, if_neg hc, h.bit c hc]
  blk := h.blk

theorem setBlk (s : Sector) : Touched V b (W.setBlk b s) where
  free := h.free
  ino := h.ino
  bit := h.bit
  blk c hc := by rw [setBlk_blk, if_neg hc, h.blk c hc]

theorem setSb (s : Sector) : Touched V b { W with sb := s } :=
  ⟨h.free, h.ino, h.bit, h.blk⟩

theorem ne {c : Nat} (hc : V.bit c = true) : c ≠ b := by
  rintro rfl
  rw [h.free] at hc
  cases hc

theorem spares : Spares V W where
  ino := h.ino
  bit c hc := by rw [h.bit c (h.ne hc), hc]
  blk c hc := h.blk c (h.ne hc)

theorem bit_eq (hb : W.bit b = false) : W.bit = V.bit := by
  funext c
  by_cases hc : c = b
  · rw [hc, hb, h.free]
  · exact h.bit c hc

end

end Touched

/-- Some of the blocks `bs` have lost their mark. -/
structure Cleared (bs : List Nat) (V W : Vol) : Prop where
  sb : W.sb = V.sb
  ino : W.ino = V.ino
  blk : W.blk = V.blk
  other : ∀ b, b ∉ bs → W.bit b = V.bit b
  le : ∀ b, W.bit b = true → V.bit b = true

theorem Cleared.refl (bs : List Nat) (V : Vol) : Cleared bs V V :=
  ⟨rfl, rfl, rfl, fun _ _ => rfl, fun _ h => h⟩

theorem Cleared.trans {as : List Nat} (h : Cleared as V W)
    (h' : Cleared bs W X) : Cleared (as ++ bs) V X where
  sb := h'.sb.trans h.sb
  ino := h'.ino.trans h.ino
  blk := h'.blk.trans h.blk
  other b hb := by
    rw [mem_append, not_or] at hb
    rw [h'.other b hb.2, h.other b hb.1]
  le b hb := h.le b (h'.le b hb)

theorem Cleared.setBit (V : Vol) (b : Nat) : Cleared [b] V (V.setBit b false) where
  sb := rfl
  ino := rfl
  blk := rfl
  other c hc := by rw [setBit_bit, if_neg (by simpa using hc)]
  le c hc := by
    rw [setBit_bit] at hc
    by_cases h : c = b
    · rw [if_pos h] at hc
      cases hc
    · rwa [if_neg h] at hc

/-! ## The bitmap -/

theorem BitmapServed.not_bad (hserved : BitmapServed D g) (hg : Regular g) (hb : b < bitmapBits g) :
    ¬ D.bad (bitmapSector g b) := by
  have hbits := hg.bits_lt
  rw [hg.bitmapSector (by omega)]
  refine hserved _ ?_
  unfold bitmapBits at hb
  omega

section

variable (hg : Regular g)
include hg

theorem must_bitmapRun (h : start + j + k ≤ 2 ^ 32) :
    must D (bitmapRun start j k) (fun r _ _ => r = true →
      ∀ i, j ≤ i → i < j + k → (view g d).bit (start + i) = false) g d := by
  induction k generalizing j with
  | zero => exact fun _ i h1 h2 => absurd h2 (by omega)
  | succ k ih =>
    unfold bitmapRun
    rw [must_bind, u32_of_lt (by omega)]
    refine must_of_readOnly (readOnly_bitmapTest _)
      (R := fun r => r = some false → (view g d).bit (start + j) = false) ?_ fun r hr => ?_
    · by_cases hb : start + j < bitmapBits g
      · exact must_bitmapTest hg hb (fun _ h => by cases h) fun h => some.inj h
      · exact DiskProg.must_of_forall fun _ _ _ _ => by rw [view_bit, if_neg hb]
    · cases r with
      | none => exact fun h => by cases h
      | some used =>
        cases used with
        | true => exact fun h => by cases h
        | false =>
          refine must_mono (fun r _ _ h hrun i h1 h2 => ?_) (ih (by omega))
          by_cases hij : i = j
          · rw [hij]
            exact hr rfl
          · exact h hrun i (by omega) (by omega)

theorem must_bitmapScan {buf : Sector} {base total : Nat} (hcount : count ≤ 2 ^ 31)
    (htotal : total < 2 ^ 31) (bs : List Nat) :
    must D (bitmapScan buf base total count bs) (fun r _ _ => ∀ start, r = some start →
      ∃ b ∈ bs, start = base + b ∧ start < total ∧ bitAt buf.byte b = false ∧
        ∀ i, 1 ≤ i → i < count → (view g d).bit (start + i) = false) g d := by
  induction bs with
  | nil => exact fun _ h => by cases h
  | cons b bs ih =>
    have hrest : must D (bitmapScan buf base total count bs) (fun r _ _ => ∀ start,
        r = some start → ∃ c ∈ b :: bs, start = base + c ∧ start < total ∧
          bitAt buf.byte c = false ∧
          ∀ i, 1 ≤ i → i < count → (view g d).bit (start + i) = false) g d := by
      refine must_mono (fun r _ _ h start hstart => ?_) ih
      obtain ⟨c, hc, h⟩ := h start hstart
      exact ⟨c, mem_cons_of_mem _ hc, h⟩
    unfold bitmapScan
    by_cases hin : base + b < total
    · rw [if_pos hin]
      by_cases hbit : bitAt buf.byte b = true
      · rw [if_pos hbit]
        exact hrest
      rw [if_neg hbit]
      by_cases hc : count = 1
      · rw [if_pos hc]
        rintro start ⟨⟩
        exact ⟨b, mem_cons_self, rfl, hin, Bool.not_eq_true _ ▸ hbit,
          fun i h1 h2 => by omega⟩
      rw [if_neg hc, must_bind]
      refine must_of_readOnly (readOnly_bitmapRun _ _ _) (must_bitmapRun hg (by omega))
        fun r hr => ?_
      cases r with
      | false => exact hrest
      | true =>
        rintro start ⟨⟩
        exact ⟨b, mem_cons_self, rfl, hin, Bool.not_eq_true _ ▸ hbit,
          fun i h1 h2 => hr rfl i h1 (by omega)⟩
    rw [if_neg hin]
    exact fun _ h => by cases h

theorem must_bitmapFind (hcount : count ≤ 2 ^ 31) :
    must D (bitmapFind count) (fun r _ _ => ∀ start, r = some start → start < bitmapBits g ∧
      (view g d).bit start = false ∧ FreeRun (view g d) start count) g d := by
  have hbits := hg.bits_lt
  have hbitmap := hg.bitmapEnd
  have hinodes := hg.inodeEnd
  have hsectors := hg.sectors
  unfold volumeEnd at hsectors
  have hloop : ∀ ss : List Nat, (∀ s ∈ ss, s < g.sbBitmapSectors) →
      must D (bitmapSectors (bitmapBits g) count ss) (fun r _ _ => ∀ start, r = some start →
        start < bitmapBits g ∧ (view g d).bit start = false ∧
          FreeRun (view g d) start count) g d := by
    intro ss hss
    induction ss with
    | nil => exact fun _ h => by cases h
    | cons s ss ih =>
      have hs : s < g.sbBitmapSectors := hss s mem_cons_self
      have hbase : u32 (s * bitsPerSec) = s * 4096 := by
        have hlt : s * 4096 < bitmapBits g := Nat.mul_lt_mul_of_pos_right hs (by decide)
        exact u32_of_lt (hlt.trans (hbits.trans (by decide)))
      unfold bitmapSectors readSector
      simp only [must_bind, must_getState, must_readSec]
      rw [u32_of_lt (by omega), hbase]
      have hslots : ∀ b ∈ range bitsPerSec, b < 4096 := fun b hb => mem_range.mp hb
      generalize range bitsPerSec = bs at hslots ⊢
      refine ⟨fun _ _ h => (by cases h), fun _ => ?_⟩
      refine must_of_readOnly (readOnly_bitmapScan _ _ _ _ _)
        (must_bitmapScan hg hcount hbits _) fun r hr => ?_
      cases r with
      | none => exact ih fun t ht => hss t (mem_cons_of_mem _ ht)
      | some start =>
        obtain ⟨b, hb, heq, hlt, hbit, hrun⟩ := hr start rfl
        have hb : b < 4096 := hslots b hb
        have hfree : (view g d).bit start = false := by
          have hq : start / 4096 = s := by omega
          have hr : start % 4096 = b := by omega
          rw [view_bit, if_pos hlt, hq, hr]
          exact hbit
        show ∀ start', asInt start = some start' → _
        rw [asInt_of_lt (by omega)]
        rintro _ ⟨⟩
        refine ⟨hlt, hfree, fun c h1 h2 => ?_⟩
        by_cases hc : c = start
        · rw [hc]
          exact hfree
        have := hrun (c - start) (by omega) (by omega)
        rwa [Nat.add_sub_cancel' h1] at this
  have htotal : u32 (g.sbBitmapSectors * bitsPerSec) = bitmapBits g :=
    u32_of_lt (Nat.lt_trans hbits (by decide))
  unfold bitmapFind
  rw [must_bind, must_getState, htotal]
  exact hloop _ fun s hs => mem_range.mp hs

theorem must_bitmapClear (hbs : ∀ b ∈ bs, b < bitmapBits g) :
    must D (bitmapClear bs) (fun _ g' d' => g' = g ∧ Cleared bs (view g d) (view g d') ∧
      (BitmapServed D g → ∀ b ∈ bs, (view g d').bit b = false)) g d := by
  induction bs generalizing d with
  | nil => exact ⟨rfl, Cleared.refl _ _, fun _ b hb => by cases hb⟩
  | cons b bs ih =>
    have hb : b < bitmapBits g := hbs b mem_cons_self
    have hrest : ∀ d', Cleared [b] (view g d) (view g d') →
        (BitmapServed D g → (view g d').bit b = false) →
        must D (bitmapClear bs) (fun _ g' d'' => g' = g ∧
          Cleared (b :: bs) (view g d) (view g d'') ∧
          (BitmapServed D g → ∀ c ∈ b :: bs, (view g d'').bit c = false)) g d' := by
      intro d' h1 hserved1
      refine must_mono ?_ (ih fun c hc => hbs c (mem_cons_of_mem _ hc))
      rintro _ g' d'' ⟨hg', h2, hserved2⟩
      refine ⟨hg', h1.trans h2, fun hs c hc => ?_⟩
      by_cases hin : c ∈ bs
      · exact hserved2 hs c hin
      obtain rfl : c = b := by simpa [hin] using hc
      rw [h2.other c hin]
      exact hserved1 hs
    unfold bitmapClear
    rw [must_bind]
    refine must_bitmapSet hg hb (fun hbad => ?_) fun d' hd' => ?_
    · exact hrest d (Cleared.refl _ _) fun hs => absurd hbad (hs.not_bad hg hb)
    · refine hrest d' (by rw [hd']; exact Cleared.setBit _ _) fun _ => ?_
      rw [hd', setBit_bit, if_pos rfl]

theorem must_unmark {s : Globals} (hoff : s.nvfsOffset = g.nvfsOffset)
    (hstart : s.sbBitmapStart = g.sbBitmapStart) (hb : b < bitmapBits g)
    (h : Touched V b (view g d)) {Q : Bool → Globals → Disk → Prop}
    (hQ : ∀ r d', Touched V b (view g d') → (BitmapServed D g → (view g d').bit = V.bit) → Q r s d') :
    must D (bitmapSet b false) Q s d := by
  refine must_bitmapSet_in hg hoff hstart hb (fun hbad => ?_) fun d' hd' => ?_
  · exact hQ _ _ h fun hs => absurd hbad (hs.not_bad hg hb)
  · have h' : Touched V b (view g d') := by
      rw [hd']
      exact h.setBit false
    refine hQ _ _ h' fun _ => h'.bit_eq ?_
    rw [hd', setBit_bit, if_pos rfl]

/-! ## Extents -/

variable {Q : Option (List Extent) → Globals → Disk → Prop}

theorem must_indirectReadExtents (hb : b < bitmapBits g)
    (hbad : D.bad (blockSector g b) → Q none g d)
    (hok : Q (some ((range (min max nvfsIndirectEnts)).map fun i =>
      loadExtent ((view g d).blk b).byte (i * nvfsExtentSize))) g d) :
    must D (indirectReadExtents b max) Q g d := by
  refine must_indirectReadExtents_raw hbad ?_
  rw [hg.rawView_blk hb]
  exact hok

theorem must_extentLoadAll (hind : ∀ b ∈ n.indBlks, b < bitmapBits g)
    (hbad : (∃ b ∈ n.indBlks, D.bad (blockSector g b)) → Q none g d)
    (hok : Q (some ((view g d).extList n)) g d) : must D (extentLoadAll n) Q g d := by
  refine must_extentLoadAll_raw hbad ?_
  rw [hg.rawView_extList hind]
  exact hok

theorem must_extentRead : must D (extentRead n max) (fun r _ _ => ∀ c, r = some c →
      (∀ b ∈ (view g d).refs n, b < bitmapBits g) → c = (view g d).content n max) g d := by
  refine must_mono (fun r _ _ h c hc hrefs => ?_) must_extentRead_raw
  have hcontent : (rawView g d).content n max = (view g d).content n max :=
    Vol.content_congr (fun b hb => hg.rawView_blk (hrefs b hb)) max
  rcases h with h | h
  · rw [h] at hc
    cases hc
  rw [h, hcontent] at hc
  exact (some.inj hc).symm

end

/-- Of a run of blocks, free in `V`, the first `j` from `start` on have been filled with
    `f 0, f 1, ...`; the notes tell which of the marks were stored. -/
structure Filling (V : Vol) (f : Nat → Sector) (start j : Nat) (m : List Note) (W : Vol) :
    Prop where
  sb : W.sb = V.sb
  ino : W.ino = V.ino
  blk : ∀ b, W.blk b = if start ≤ b ∧ b < start + j then f (b - start) else V.blk b
  bit : ∀ b, W.bit b = (V.bit b || decide (Note.marked b true ∈ m))
  notes : ∀ x ∈ m, ∃ b ok, x = Note.marked b ok ∧ start ≤ b ∧ b < start + j
  noted : ∀ b, start ≤ b → b < start + j → ∃ ok, Note.marked b ok ∈ m

namespace Filling

variable {V W : Vol} {f : Nat → Sector} {start j : Nat} {m : List Note}

theorem zero (V : Vol) (f : Nat → Sector) (start : Nat) : Filling V f start 0 [] V where
  sb := rfl
  ino := rfl
  blk b := by rw [if_neg (by omega)]
  bit b := by simp
  notes x hx := by cases hx
  noted b h1 h2 := by omega

section

variable (h : Filling V f start j m W)
include h

theorem succ (ok : Bool)
    (hX : X = if ok then (W.setBlk (start + j) (f j)).setBit (start + j) true
      else W.setBlk (start + j) (f j)) :
    Filling V f start (j + 1) (m ++ [Note.marked (start + j) ok]) X := by
  have hparts : X.sb = W.sb ∧ X.ino = W.ino ∧ X.blk = (W.setBlk (start + j) (f j)).blk ∧
      ∀ b, X.bit b = if b = start + j ∧ ok = true then true else W.bit b := by
    cases ok with
    | false => exact ⟨by rw [hX]; rfl, by rw [hX]; rfl, by rw [hX]; rfl, by rw [hX]; simp⟩
    | true =>
      refine ⟨by rw [hX]; rfl, by rw [hX]; rfl, by rw [hX]; rfl, fun b => ?_⟩
      rw [hX, if_pos rfl, setBit_bit]
      simp
  obtain ⟨hsb, hino, hblk, hbit⟩ := hparts
  refine ⟨hsb.trans h.sb, hino.trans h.ino, fun b => ?_, fun b => ?_, fun x hx => ?_,
    fun b h1 h2 => ?_⟩
  · rw [hblk, setBlk_blk, h.blk]
    by_cases hb : b = start + j
    · rw [if_pos hb, if_pos (by omega), hb, Nat.add_sub_cancel_left]
    rw [if_neg hb]
    by_cases hin : start ≤ b ∧ b < start + j
    · rw [if_pos hin, if_pos (by omega)]
    · rw [if_neg hin, if_neg (by omega)]
  · rw [hbit, h.bit]
    by_cases hb : b = start + j ∧ ok = true
    · rw [if_pos hb, hb.1, hb.2]
      simp
    rw [if_neg hb]
    simp only [mem_append, mem_singleton, Note.marked.injEq]
    have hno : ¬ (b = start + j ∧ true = ok) := fun h => hb ⟨h.1, h.2.symm⟩
    simp only [hno, or_false]
  · rcases mem_append.mp hx with hx | hx
    · obtain ⟨b, ok', rfl, h1, h2⟩ := h.notes x hx
      exact ⟨b, ok', rfl, h1, by omega⟩
    · exact ⟨start + j, ok, mem_singleton.mp hx, by omega, by omega⟩
  · by_cases hb : b = start + j
    · exact ⟨ok, by rw [hb]; simp⟩
    obtain ⟨ok', h'⟩ := h.noted b h1 (by omega)
    exact ⟨ok', mem_append_left _ h'⟩

theorem spares (hfree : FreeRun V start j) : Spares V W := by
  refine ⟨h.ino, fun b hb => ?_, fun b hb => ?_⟩
  · rw [h.bit, hb, Bool.true_or]
  · rw [h.blk, if_neg]
    rintro ⟨h1, h2⟩
    rw [hfree b h1 h2] at hb
    cases hb

theorem bit_of_not_mem (hb : ¬ (start ≤ b ∧ b < start + j)) : W.bit b = V.bit b := by
  have hno : Note.marked b true ∉ m := by
    intro hm
    obtain ⟨c, ok, heq, h1, h2⟩ := h.notes _ hm
    cases heq
    exact hb ⟨h1, h2⟩
  rw [h.bit, decide_eq_false hno, Bool.or_false]

end

end Filling

/-- Every mark of the run has been stored. -/
def AllMarked (start j : Nat) (m : List Note) : Prop :=
  ∀ b, start ≤ b → b < start + j → Note.marked b true ∈ m

theorem must_extentWriteLoop (hg : Regular g) {data : Mem} (n j : Nat)
    (m0 : List Note) (hcover : Covers D g ∨ start + j + n ≤ bitmapBits g)
    (hend : start + j + n ≤ 2 ^ 31 + 2 ^ 30)
    (hstart : start < bitmapBits g) (hj : j = 0 ∨ start + j ≤ bitmapBits g)
    (hd : Filling V (extentChunk data size) start j m0 (view g d))
    (hall : BitmapServed D g → AllMarked start j m0) :
    (extentWriteLoopNoted data size start n j).must D (fun r m g' d' => g' = g ∧ r ≤ j + n ∧
      (r = 0 ∨ start + r ≤ bitmapBits g) ∧
      Filling V (extentChunk data size) start r (m0 ++ m) (view g d') ∧
      (BitmapServed D g → AllMarked start r (m0 ++ m))) g d := by
  have hbits := hg.bits_lt
  induction n generalizing j m0 d with
  | zero =>
    refine ⟨rfl, le_rfl, hj, ?_, ?_⟩
    · rwa [append_nil]
    · rwa [append_nil]
  | succ n ih =>
    unfold extentWriteLoopNoted
    rw [must_lifted, u32_of_lt (by omega)]
    have hstop : g = g ∧ j ≤ j + (n + 1) ∧ (j = 0 ∨ start + j ≤ bitmapBits g) ∧
        Filling V (extentChunk data size) start j (m0 ++ ([] ++ [])) (view g d) ∧
        (BitmapServed D g → AllMarked start j (m0 ++ ([] ++ []))) := by
      simp only [append_nil]
      exact ⟨trivial, by omega, hj, hd, hall⟩
    by_cases hb : start + j < bitmapBits g
    · -- one more block; the loop goes on whether or not its mark is stored
      have hnext : ∀ d' ok, Filling V (extentChunk data size) start (j + 1)
            (m0 ++ [Note.marked (start + j) ok]) (view g d') →
          (BitmapServed D g → ok = true) →
          (extentWriteLoopNoted data size start n (j + 1)).must D (fun r m g' d' => g' = g ∧
            r ≤ j + (n + 1) ∧ (r = 0 ∨ start + r ≤ bitmapBits g) ∧
            Filling V (extentChunk data size) start r
              (m0 ++ ([] ++ ([] ++ ([Note.marked (start + j) ok] ++ m)))) (view g d') ∧
            (BitmapServed D g → AllMarked start r
              (m0 ++ ([] ++ ([] ++ ([Note.marked (start + j) ok] ++ m)))))) g d' := by
        intro d' ok hfill hserved
        have hcover' := hcover.imp_right fun h => (by omega : start + (j + 1) + n ≤ bitmapBits g)
        refine Noted.must_mono ?_ (ih (j + 1) (m0 ++ [Note.marked (start + j) ok]) hcover'
          (by omega) (by omega) hfill fun hs b h1 h2 => ?_)
        · rintro r m g' d'' ⟨h1, h2, h3, h4, h5⟩
          simp only [append_assoc, nil_append] at h4 h5 ⊢
          exact ⟨h1, by omega, h3, h4, h5⟩
        · by_cases hbj : b = start + j
          · rw [hbj, hserved hs]
            simp
          · exact mem_append_left _ (hall hs b h1 (by omega))
      refine must_writeBlock hg hb (fun _ => hstop) fun d' hd' _ => ?_
      rw [if_pos rfl, must_lifted]
      refine must_bitmapSet hg hb (fun hbad => ?_) fun d'' hd'' => ?_
      · rw [Noted.must_bind, must_note]
        refine hnext d' false (hd.succ false ?_) fun hs => absurd hbad (hs.not_bad hg hb)
        rw [hd']
        rfl
      · rw [Noted.must_bind, must_note]
        refine hnext d'' true (hd.succ true ?_) fun _ => rfl
        rw [hd'', hd']
        rfl
    rcases hcover with hcover | hin
    · exact must_writeBlock_end hg hcover (by omega) (by omega) hstop
    · omega

/-- A run of blocks, free in `V`, holds the data, and the inode `n'` holds the run. -/
structure Stored (g : Globals) (V : Vol) (n : Inode) (data : Mem) (size start : Nat) (n' : Inode)
    (m : List Note) (W : Vol) : Prop where
  type : n'.type = n.type
  length : n'.size = UInt32.ofNat size
  empty : size = 0 → n'.extentCount = 0
  run : HoldsRun n' start (blocksFor size)
  fits : start + blocksFor size ≤ bitmapBits g
  free : FreeRun V start (blocksFor size)
  filling : Filling V (extentChunk data size) start (blocksFor size) m W

/-- All notes are about marks. -/
def OnlyMarks (m : List Note) : Prop := ∀ x ∈ m, ∃ b ok, x = Note.marked b ok

theorem Filling.onlyMarks (h : Filling V f start j m W) : OnlyMarks m := fun x hx =>
  let ⟨b, ok, heq, _⟩ := h.notes x hx
  ⟨b, ok, heq⟩

theorem blocksFor_le (size : Nat) : blocksFor size ≤ 2 ^ 23 := by
  have hlt := u32_lt (size + nvfsSectorSize - 1)
  unfold blocksFor
  simp only [nvfsSectorSize] at hlt ⊢
  omega

theorem Filling.retract (h : Filling V f start j m W) (hfree : FreeRun V start j)
    (hbs : ∀ b, b ∈ bs ↔ start ≤ b ∧ b < start + j) (hc : Cleared bs W X) :
    Spares V X ∧ ((∀ b ∈ bs, X.bit b = false) → X.bit = V.bit) := by
  have hout : ∀ b, ¬ (start ≤ b ∧ b < start + j) → X.bit b = V.bit b := by
    intro b hb
    rw [hc.other b (mt (hbs b).mp hb), h.bit_of_not_mem hb]
  refine ⟨⟨hc.ino.trans h.ino, fun b hb => ?_, fun b hb => ?_⟩, fun hclear => ?_⟩
  · rw [hout b, hb]
    rintro ⟨h1, h2⟩
    rw [hfree b h1 h2] at hb
    cases hb
  · rw [hc.blk]
    exact (h.spares hfree).blk b hb
  · funext b
    by_cases hb : start ≤ b ∧ b < start + j
    · rw [hclear b ((hbs b).mpr hb), hfree b hb.1 hb.2]
    · exact hout b hb

theorem must_rollback (hg : Regular g) (hj : j = 0 ∨ start + j ≤ bitmapBits g)
    (hfree : FreeRun V start j)
    (h : Filling V f start j m (view g d)) :
    must D (bitmapClear ((range j).map fun k => u32 (start + k)))
      (fun _ g' d' => g' = g ∧ Spares V (view g d') ∧
        (BitmapServed D g → (view g d').bit = V.bit)) g d := by
  have hbits := hg.bits_lt
  have hmem : ∀ b, b ∈ (range j).map (fun k => u32 (start + k)) ↔
      start ≤ b ∧ b < start + j := by
    intro b
    simp only [mem_map, mem_range]
    constructor
    · rintro ⟨k, hk, rfl⟩
      rw [u32_of_lt (by omega)]
      omega
    · rintro ⟨h1, h2⟩
      exact ⟨b - start, by omega, by rw [u32_of_lt (by omega)]; omega⟩
  refine must_mono ?_ (must_bitmapClear hg fun b hb => ?_)
  · rintro _ g' d' ⟨hg', hc, hserved⟩
    obtain ⟨hspares, hbit⟩ := h.retract hfree hmem hc
    exact ⟨hg', hspares, fun hs => hbit (hserved hs)⟩
  · have := (hmem b).mp hb
    omega

/-- A run of `k` blocks that `bitmap_find` returns lies in the bitmap, or else the disk ends
    with the blocks that have a bit. -/
def RunsFit (D : Device) (g : Globals) (d : Disk) (k : Nat) : Prop :=
  Covers D g ∨ must D (bitmapFind k) (fun r _ _ => ∀ start, r = some start →
    start + k ≤ bitmapBits g) g d

/-- The blocks that `bitmap_find` returns are free, and writing them cannot leave the bitmap. -/
theorem RunsFit.must_bitmapFind (hg : Regular g) (hk : k ≤ 2 ^ 31)
    (h : RunsFit D g d k) :
    must D (bitmapFind k) (fun r _ _ => ∀ start, r = some start → (start < bitmapBits g ∧
      FreeRun (view g d) start k) ∧ (Covers D g ∨ start + k ≤ bitmapBits g)) g d := by
  have hfind := Nvfs.must_bitmapFind hg hk (D := D) (d := d)
  rcases h with hcover | hin
  · refine must_mono (fun r _ _ h start hr => ?_) hfind
    obtain ⟨h1, -, h2⟩ := h start hr
    exact ⟨⟨h1, h2⟩, .inl hcover⟩
  refine must_mono (fun r _ _ h start hr => ?_) (must_and hfind hin)
  obtain ⟨h1, -, h2⟩ := h.1 start hr
  exact ⟨⟨h1, h2⟩, .inr (h.2 start hr)⟩

/-- `extent_write` fails and has touched nothing in use, or stores the data in free blocks. -/
theorem must_extentWrite (hg : Regular g) (n : Inode) (data : Mem)
    (hfit : RunsFit D g d (blocksFor size)) :
    (extentWriteNoted n data size).must D (fun r m g' d' => g' = g ∧
      (r = none → OnlyMarks m ∧ Spared D g d d') ∧
      (∀ n', r = some n' → ∃ start, Stored g (view g d) n data size start n' m (view g d') ∧
        (BitmapServed D g → AllMarked start (blocksFor size) m))) g d := by
  have hbits := hg.bits_lt
  have hsmall := blocksFor_le size
  unfold extentWriteNoted
  by_cases hsize : size = 0
  · subst hsize
    have hzero : blocksFor 0 = 0 := by decide
    rw [if_pos rfl, Noted.must_pure]
    refine ⟨rfl, fun h => (by cases h), ?_⟩
    rintro n' ⟨⟩
    refine ⟨0, ⟨rfl, rfl, fun _ => rfl, HoldsRun.of_empty rfl, by omega, ?_, ?_⟩, ?_⟩
    · intro b h1 h2
      omega
    · rw [hzero]
      exact Filling.zero _ _ _
    · intro _ b h1 h2
      omega
  have hneeded : u32 (size + nvfsSectorSize - 1) / nvfsSectorSize = blocksFor size := rfl
  rw [if_neg hsize, hneeded, must_lifted]
  refine must_of_readOnly (readOnly_bitmapFind _) (hfit.must_bitmapFind hg (by omega))
    fun r hr => ?_
  cases r with
  | none =>
    refine ⟨rfl, fun _ => ⟨fun x hx => ?_, Spares.refl _, fun _ => rfl⟩, fun _ h => ?_⟩
    · cases hx
    · cases h
  | some start =>
    obtain ⟨⟨hstart, hfree⟩, hcover⟩ := hr start rfl
    rw [Noted.must_bind]
    refine Noted.must_mono ?_ (must_extentWriteLoop hg (blocksFor size) 0 [] hcover
      (by omega) hstart (Or.inl rfl) (Filling.zero _ _ _) fun _ b h1 h2 => by omega)
    rintro j m g' d' ⟨rfl, hle, hfit, hfill, hall⟩
    rw [nil_append] at hfill hall
    have hrun : FreeRun (view g' d) start j := fun b h1 h2 => hfree b h1 (by omega)
    by_cases hj : j < blocksFor size
    · rw [if_pos hj, must_lifted]
      refine must_mono ?_ (must_rollback hg hfit hrun hfill)
      rintro _ g'' d'' ⟨rfl, hspares, hserved⟩
      refine ⟨rfl, fun _ => ⟨?_, hspares, hserved⟩, fun _ h => by cases h⟩
      simpa using hfill.onlyMarks
    obtain rfl : j = blocksFor size := by omega
    rw [if_neg hj, Noted.must_pure]
    refine ⟨rfl, fun h => (by cases h), ?_⟩
    rintro n' ⟨⟩
    simp only [nil_append, append_nil]
    exact ⟨start, ⟨rfl, rfl, fun h => absurd h hsize,
      HoldsRun.of_extent rfl rfl (by omega), by omega, hrun, hfill⟩, hall⟩

/-! ## Inodes -/

/-- Every free inode but the root may be unreadable. -/
def NoneFree (D : Device) (g : Globals) (V : Vol) : Prop :=
  ∀ i, i ≠ 0 → i < g.sbInodeCount → (V.ino i).type = 0 → D.bad (inodeSector g i)

/-- `inode_free` of inode `i`, which holds a run of blocks: the inode could not be read (noted
    with `j`), or the marks have been cleared and then perhaps the record. -/
def Freed (D : Device) (g : Globals) (i start k j : Nat) (V : Vol) (m : List Note) (W : Vol) :
    Prop :=
  m = [Note.unread j] ∧ W = V ∨
    m = [] ∧ ∃ X, Cleared (List.range' start k) V X ∧
      (BitmapServed D g → ∀ b ∈ List.range' start k, X.bit b = false) ∧
      (W = X ∨ W = X.setIno i (V.ino i).freed)

end Noverix.Nvfs
