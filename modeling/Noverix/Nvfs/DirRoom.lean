/-
  When there is room, `dir_add` succeeds.  The rules of `FaultDir` say what a
  call that fails may leave behind; here no sector of the volume fails, and the
  only obstacles left are a name that is taken and a bitmap without free blocks.
-/

import Noverix.Nvfs.FaultDir

namespace Noverix.Nvfs

open Lib
open Lib.DiskProg (must must_bind must_mono)

variable {n : Nat} {g : Globals} {dir : Nat} {D : Device} {d : Disk}

/-- No sector of the volume fails. -/
def VolumeServed (D : Device) (g : Globals) : Prop := ∀ l, l < volumeEnd g → ¬ D.bad l

variable {b : Nat}

theorem VolumeServed.block (h : VolumeServed D g) (hg : Regular g)
    (hb : b < bitmapBits g) : ¬ D.bad (blockSector g b) := by
  have hbits := hg.bits_lt
  rw [hg.blockSector (by omega)]
  refine h _ ?_
  unfold volumeEnd
  omega

theorem VolumeServed.inode (h : VolumeServed D g) (hg : Regular g) {i : Nat}
    (hi : i < g.sbInodeCount) : ¬ D.bad (inodeSector g i) := by
  obtain ⟨hsec, -, hlt⟩ := hg.inode hi
  rw [hsec]
  refine h _ ?_
  unfold volumeEnd
  omega

theorem VolumeServed.bitmap (h : VolumeServed D g) (hg : Regular g) : BitmapServed D g := by
  intro s hs
  have hbitmap := hg.bitmapEnd
  have hinodes := hg.inodeEnd
  refine h _ ?_
  unfold volumeEnd
  omega

/-! ## Free blocks -/

theorem must_bitmapFind_one (hon : BitmapOn n g) (hb : b < bitmapBits g)
    (hfree : (view g d).bit b = false) :
    must (Device.sound n) (bitmapFind 1) (fun r _ _ => ∃ start, r = some start ∧
      start < bitmapBits g ∧ (view g d).bit start = false) g d := by
  rw [view_bit, if_pos hb] at hfree
  have hrun : ClearRun g d 1 b := ⟨hb, fun j hj => by
    obtain rfl : j = 0 := by omega
    exact hfree⟩
  obtain ⟨start, -, hval, ⟨hlt, hclear⟩, -⟩ := bitmapFind_of_clearRun hon Nat.one_pos hrun
  refine must_mono (fun r _ _ hr => ⟨start, hr.trans hval, hlt, ?_⟩)
    (must_val (readOnly_bitmapFind 1))
  rw [view_bit, if_pos (show start < bitmapBits g from hlt)]
  exact hclear 0 Nat.one_pos

/-! ## One more entry -/

variable {q : Inode}

theorem must_dirAddExtent_succeeds (hg : Regular g) (hon : BitmapOn n g)
    (hserved : VolumeServed (Device.sound n) g)
    (hcap : q.extentCount.toNat ≤ 14) (hind : ∀ c ∈ q.indBlks, c < bitmapBits g)
    {c : Nat} (hc : c < bitmapBits g) (hfree : (view g d).bit c = false) :
    must (Device.sound n) (dirAddExtent q b) (fun r g' _ => g' = g ∧ r ≠ none) g d := by
  have hok : ∀ r : Inode, g = g ∧ some r ≠ none := fun r => ⟨rfl, some_ne_none r⟩
  unfold dirAddExtent
  rcases Nat.lt_trichotomy q.extentCount.toNat 13 with hlt | heq | hgt
  · rw [if_pos hlt]
    exact hok _
  · rw [if_neg (by simp only [nvfsDirectExtents]; omega), if_pos heq, must_bind]
    unfold indirectAlloc
    rw [must_bind]
    refine must_of_readOnly (readOnly_bitmapFind _)
      (must_bitmapFind_one hon hc hfree) fun r hr => ?_
    obtain ⟨ind, rfl, hin, -⟩ := hr
    simp only [must_bind]
    refine must_writeBlock hg hin (fun hbad => absurd hbad (hserved.block hg hin)) fun _ _ _ => ?_
    rw [if_pos rfl, must_bind]
    refine must_bitmapSet hg hin (fun hbad =>
      absurd hbad ((hserved.bitmap hg).not_bad hg hin)) fun _ _ => ?_
    simp only [DiskProg.must_pure]
    unfold indirectWriteExtents
    rw [must_bind]
    refine must_writeBlock hg hin (fun hbad => absurd hbad (hserved.block hg hin)) fun _ _ _ => ?_
    rw [if_pos rfl]
    exact hok _
  have h14 : q.extentCount.toNat = 14 := by omega
  have hin : (q.ext 13).start.toNat < bitmapBits g := hind _ (by
    rw [Inode.indBlks_of_count h14]
    exact mem_singleton_self _)
  rw [if_neg (by simp only [nvfsDirectExtents]; omega),
    if_neg (by simp only [nvfsDirectExtents]; omega)]
  simp only [nvfsDirectExtents]
  rw [must_bind]
  refine must_indirectReadExtents hg hin (fun hbad => absurd hbad (hserved.block hg hin)) ?_
  simp only
  rw [if_neg (by simp only [nvfsIndirectEnts, nvfsSectorSize, nvfsExtentSize]; omega),
    must_bind]
  unfold indirectWriteExtents
  refine must_writeBlock hg hin (fun hbad => absurd hbad (hserved.block hg hin)) fun _ _ _ => ?_
  rw [if_pos rfl]
  exact hok _

variable {b c : Nat}

theorem must_dirAddGrow_succeeds (hg : Regular g) (hon : BitmapOn n g)
    (hserved : VolumeServed (Device.sound n) g) (hdir : dir < g.sbInodeCount)
    (hind : ∀ c ∈ ((view g d).ino dir).indBlks, c < bitmapBits g) (hbc : b ≠ c)
    (hb : b < bitmapBits g) (hc : c < bitmapBits g) (hbfree : (view g d).bit b = false)
    (hcfree : (view g d).bit c = false) (nd : Mem) (ticks : Nat) :
    must (Device.sound n) (dirAddGrow dir ((view g d).ino dir) nd ticks) (fun r _ _ => r = true) g
      d := by
  unfold dirAddGrow
  rw [must_bind]
  refine must_of_readOnly (readOnly_bitmapFind _)
    (must_bitmapFind_one hon hb hbfree) fun r hr => ?_
  obtain ⟨start, rfl, hlt, -⟩ := hr
  simp only
  rw [must_bind]
  refine must_bitmapSet hg hlt (fun hbad =>
    absurd hbad ((hserved.bitmap hg).not_bad hg hlt)) fun d1 hd1 => ?_
  rw [must_bind]
  refine must_writeBlock hg hlt (fun hbad => absurd hbad (hserved.block hg hlt)) fun d2 hd2 _ => ?_
  rw [if_pos rfl, must_bind]
  -- one of the two blocks is still free
  obtain ⟨x, hx, hxfree⟩ : ∃ x, x < bitmapBits g ∧ (view g d2).bit x = false := by
    rw [hd2, hd1]
    by_cases hbs : b = start
    · refine ⟨c, hc, ?_⟩
      rw [setBlk_bit, setBit_bit, if_neg (by omega)]
      exact hcfree
    refine ⟨b, hb, ?_⟩
    rw [setBlk_bit, setBit_bit, if_neg hbs]
    exact hbfree
  refine must_mono ?_ (must_dirAddExtent_succeeds hg hon hserved (view_count dir) hind hx
    hxfree)
  rintro r g' d3 ⟨rfl, hr⟩
  obtain ⟨q, rfl⟩ := Option.ne_none_iff_exists'.mp hr
  simp only
  rw [must_bind]
  refine must_inodeWrite hg (fun hbad => absurd (hbad hdir) (hserved.inode hg hdir)) fun _ _ _ => ?_
  rw [if_pos rfl]
  rfl

theorem must_dirAddBlocks_succeeds (hg : Regular g) (hserved : VolumeServed (Device.sound n) g)
    (hdir : dir < g.sbInodeCount) {nd : Mem} {ticks : Nat} {full : NvfsM Bool}
    {bs : List Nat} (hbs : ∀ b ∈ bs, b < bitmapBits g)
    (hfull : must (Device.sound n) full (fun r _ _ => r = true) g d) :
    must (Device.sound n) (dirAddBlocks dir q nd ticks full bs) (fun r _ _ => r = true) g d := by
  induction bs with
  | nil => exact hfull
  | cons b bs ih =>
    have hb := hbs b mem_cons_self
    unfold dirAddBlocks
    rw [must_bind]
    refine must_readBlock hg hb (fun hbad => absurd hbad (hserved.block hg hb)) ?_
    cases hf : freeSlot ((view g d).blk b) with
    | none =>
      simp only [hf]
      exact ih fun c hc => hbs c (mem_cons_of_mem _ hc)
    | some e =>
      simp only [hf]
      rw [must_bind]
      refine must_writeBlock hg hb (fun hbad => absurd hbad (hserved.block hg hb))
        fun _ _ _ => ?_
      rw [if_pos rfl]
      exact must_inodeWrite hg (fun hbad => absurd (hbad hdir) (hserved.inode hg hdir))
        fun _ _ _ => rfl

/-- Where the disk holds the whole volume and two blocks are free, a new name can be added to a
    directory. -/
theorem dirAdd_succeeds (hg : Regular g) (hn : volumeEnd g ≤ n) (hn32 : n ≤ 2 ^ 32)
    (htype : ((view g d).ino dir).type = nvfsTypeDir)
    (hmarked : ∀ x ∈ (view g d).refs ((view g d).ino dir), (view g d).bit x = true)
    {name : List UInt8} (hname : NulFree name)
    (hnew : lookup ((view g d).entries ((view g d).ino dir)) name = none)
    (hbc : b ≠ c) (hb : b < bitmapBits g) (hc : c < bitmapBits g)
    (hbfree : (view g d).bit b = false) (hcfree : (view g d).bit c = false) (child ticks : Nat) :
    val n (dirAdd dir name child ticks) g d = true := by
  have hserved : VolumeServed (Device.sound n) g := fun l hl (hbad : n ≤ l) => by omega
  have hon : BitmapOn n g := by
    have hbits := hg.bits_lt
    have hbitmap := hg.bitmapEnd
    have hinodes := hg.inodeEnd
    unfold volumeEnd at hn
    unfold bitmapBits at hbits
    exact ⟨by omega, hn32, by omega⟩
  have hdir : dir < g.sbInodeCount := view_type_lt (by rw [htype]; decide)
  have hlt : ∀ x ∈ (view g d).refs ((view g d).ino dir), x < bitmapBits g :=
    fun x hx => view_bit_lt (hmarked x hx)
  have hmust : must (Device.sound n) (dirAdd dir name child ticks) (fun r _ _ => r = true) g d := by
    unfold dirAdd
    rw [must_bind]
    refine must_inodeRead hg (fun hbad => absurd (hbad hdir) (hserved.inode hg hdir)) fun _ => ?_
    simp only
    rw [if_neg (not_not_intro htype), must_bind]
    refine must_of_readOnly (readOnly_dirFind _ _) (must_dirFind hg hname fun _ => hlt)
      fun r hr => ?_
    have hnone : r = none := by
      rcases hr with hr | hr
      · exact hr.1
      · rwa [if_pos htype, hnew] at hr
    subst hnone
    simp only
    rw [must_bind]
    refine must_extentLoadAll hg (fun x hx => hlt x (mem_append_right _ hx)) ?_ ?_
    · rintro ⟨x, hx, hbad⟩
      exact absurd hbad (hserved.block hg (hlt x (mem_append_right _ hx)))
    · refine must_dirAddBlocks_succeeds hg hserved hdir
        (fun x hx => hlt x (mem_append_left _ hx)) ?_
      exact must_dirAddGrow_succeeds hg hon hserved hdir
        (fun x hx => hlt x (mem_append_right _ hx)) hbc hb hc hbfree hcfree _ _
  exact must_run hmust

end Noverix.Nvfs
