/-
  How a full directory grows: `dir_add` takes one more block, and
  `dir_add_extent` records it as a direct extent, as the first extent of a new
  indirect block (the directory had 13), or behind the extents of an existing
  indirect block.  In the last case the count stored is 15, which `inode_read`
  cuts back to 14: the block is written but no longer reached (`DirLost`).
-/

import Noverix.Nvfs.Dirents
import Noverix.Nvfs.Inodes

namespace Noverix.Nvfs

open Lib
open Lib.DiskProg (wp wp_bind wp_pure)

variable {b ind dir : Nat} {n m : Inode} {V W V' : Vol} {extra : List Nat} {s si : Sector}
  {P : Inode → Bool}
  {ib : Nat} {g : Globals} {d : Disk}

/-! ## Inodes with one more extent -/

/-- The extent `dir_add_extent` adds. -/
def oneBlock (b : Nat) : Extent := ⟨UInt32.ofNat b, 1⟩

/-- A directory with one block. -/
def oneBlockDir (b : Nat) : Inode :=
  { freshInode nvfsTypeDir 0 with
    extentCount := 1
    extents := fun j => if j.val = 0 then oneBlock b else Extent.zero }

theorem extentBlocks_append (as bs : List Extent) :
    extentBlocks (as ++ bs) = extentBlocks as ++ extentBlocks bs := flatMap_append

theorem extentBlocks_oneBlock (hb : b < 2 ^ 31) : extentBlocks [oneBlock b] = [b] := by
  have hword : UInt32.size = 2 ^ 32 := rfl
  have hs : (UInt32.ofNat b).toNat = b := toNat_ofNat_of_lt' (by omega)
  have hone : (1 : UInt32).toNat = 1 := rfl
  unfold extentBlocks oneBlock
  simp only [flatMap_singleton, hs, hone, List.range_one, map_cons, map_nil,
    Nat.add_zero]
  rw [u32_of_lt (by omega)]

theorem Inode.ext_setExt {i j : Nat} {e : Extent} (hi : i < 14) :
    (n.setExt i e).ext j = if j = i then e else n.ext j := by
  unfold setExt ext
  by_cases hj : j < nvfsMaxExtents
  · rw [dif_pos hj, dif_pos hj]
  · rw [dif_neg hj, dif_neg hj, if_neg (by simp only [nvfsMaxExtents] at hj; omega)]

theorem Inode.ext_congr (h : m.extents = n.extents) (j : Nat) :
    m.ext j = n.ext j := by
  unfold ext
  rw [h]

section

variable (hc : m.extentCount = n.extentCount) (he : m.extents = n.extents)
include hc he

theorem Vol.extList_inode (V : Vol) : V.extList m = V.extList n := by
  unfold extList
  rw [hc, Inode.ext_congr he, map_congr_left fun j _ => Inode.ext_congr he j]

theorem Inode.indBlks_inode : m.indBlks = n.indBlks := by
  unfold indBlks
  rw [hc, ext_congr he]

end

/-- The inode with its modification time set. -/
def Inode.stamp (n : Inode) (t : UInt32) : Inode := { n with mtime := t }

@[simp] theorem Inode.stamp_type (n : Inode) (t : UInt32) : (n.stamp t).type = n.type := rfl

@[simp] theorem Inode.stamp_count (n : Inode) (t : UInt32) :
    (n.stamp t).extentCount = n.extentCount := rfl

@[simp] theorem Vol.extList_stamp (V : Vol) (n : Inode) (t : UInt32) :
    V.extList (n.stamp t) = V.extList n := Vol.extList_inode rfl rfl V

@[simp] theorem Inode.indBlks_stamp (n : Inode) (t : UInt32) : (n.stamp t).indBlks = n.indBlks :=
  Inode.indBlks_inode rfl rfl

/-- A directory with room among its direct extents. -/
def Inode.addDirect (n : Inode) (b : Nat) : Inode :=
  { n.setExt n.extentCount.toNat (oneBlock b) with
    extentCount := UInt32.ofNat (n.extentCount.toNat + 1)
    size := n.size + UInt32.ofNat nvfsSectorSize }

/-- A directory that starts its indirect block `ind`. -/
def Inode.addIndirect (n : Inode) (ind : Nat) : Inode :=
  { n.setExt nvfsDirectExtents ⟨UInt32.ofNat ind, nvfsIndirectMarker⟩ with
    extentCount := UInt32.ofNat (nvfsDirectExtents + 1)
    size := n.size + UInt32.ofNat nvfsSectorSize }

/-- A directory whose indirect block got one more extent. -/
def Inode.addLater (n : Inode) : Inode :=
  { n with
    extentCount := UInt32.ofNat
      (nvfsDirectExtents + (n.extentCount.toNat - nvfsDirectExtents + 1))
    size := n.size + UInt32.ofNat nvfsSectorSize }

theorem Inode.ext_addIndirect (n : Inode) (ind j : Nat) : (n.addIndirect ind).ext j
    = if j = 13 then ⟨UInt32.ofNat ind, nvfsIndirectMarker⟩ else n.ext j := by
  rw [Inode.ext_congr (m := n.addIndirect ind)
    (n := n.setExt 13 ⟨UInt32.ofNat ind, nvfsIndirectMarker⟩) rfl,
    Inode.ext_setExt (by decide)]

section

variable (h : n.extentCount.toNat < 13)
include h

theorem Inode.addDirect_count (b : Nat) :
    (n.addDirect b).extentCount.toNat = n.extentCount.toNat + 1 :=
  toNat_ofNat_of_lt' (by have : UInt32.size = 2 ^ 32 := rfl; omega)

theorem Vol.extList_addDirect (V W : Vol) :
    W.extList (n.addDirect b) = V.extList n ++ [oneBlock b] := by
  have hcount := Inode.addDirect_count h b
  have hext : ∀ j, (n.addDirect b).ext j
      = if j = n.extentCount.toNat then oneBlock b else n.ext j := fun j => by
    rw [Inode.ext_congr (m := n.addDirect b) (n := n.setExt n.extentCount.toNat (oneBlock b)) rfl,
      Inode.ext_setExt (by omega)]
  have hold : (range n.extentCount.toNat).map (n.addDirect b).ext
      = (range n.extentCount.toNat).map n.ext := map_congr_left fun j hj => by
    have := mem_range.mp hj
    rw [hext, if_neg (by omega)]
  have hmin : min n.extentCount.toNat nvfsDirectExtents = n.extentCount.toNat := by
    simp only [nvfsDirectExtents]; omega
  have hmin' : min (n.extentCount.toNat + 1) nvfsDirectExtents = n.extentCount.toNat + 1 := by
    simp only [nvfsDirectExtents]; omega
  unfold extList
  rw [hcount, hmin, hmin', Nat.sub_eq_zero_of_le (by simp only [nvfsDirectExtents]; omega),
    Nat.sub_eq_zero_of_le (by simp only [nvfsDirectExtents]; omega), range_succ,
    map_append, hold, map_singleton, hext, if_pos rfl]
  simp only [Nat.zero_min, range_zero, map_nil, append_nil]

theorem Inode.indBlks_addDirect (b : Nat) : (n.addDirect b).indBlks = [] ∧ n.indBlks = [] := by
  have hcount := Inode.addDirect_count h b
  constructor <;> exact if_neg (by simp only [nvfsDirectExtents]; omega)

end

section

variable (h : n.extentCount.toNat = 13) (hi : ind < 2 ^ 31)
include h hi

theorem Vol.extList_addIndirect (hblk : loadExtent (W.blk ind).byte 0 = oneBlock b) :
    W.extList (n.addIndirect ind) = V.extList n ++ [oneBlock b] := by
  have hword : UInt32.size = 2 ^ 32 := rfl
  have hs : (UInt32.ofNat ind).toNat = ind := toNat_ofNat_of_lt' (by omega)
  have hcount : (n.addIndirect ind).extentCount.toNat = 14 := rfl
  have hext := n.ext_addIndirect ind
  have hold : (range 13).map (n.addIndirect ind).ext = (range 13).map n.ext :=
    map_congr_left fun j hj => by
      have := mem_range.mp hj
      rw [hext, if_neg (by omega)]
  have hrange : range (min (14 - 13) nvfsIndirectEnts) = [0] := by decide
  unfold extList
  simp only [nvfsDirectExtents]
  rw [hcount, h, hext 13, if_pos rfl, hrange, map_singleton, Nat.zero_mul]
  simp only [Nat.min_self, Nat.sub_self, Nat.zero_min, range_zero, map_nil,
    append_nil, hs, Nat.reduceLeDiff, Nat.min_eq_right, hold, hblk]

theorem Inode.indBlks_addIndirect : (n.addIndirect ind).indBlks = [ind] ∧ n.indBlks = [] := by
  have hword : UInt32.size = 2 ^ 32 := rfl
  have hext : (n.addIndirect ind).ext 13 = ⟨UInt32.ofNat ind, nvfsIndirectMarker⟩ := by
    rw [ext_addIndirect, if_pos rfl]
  constructor
  · unfold indBlks
    simp only [nvfsDirectExtents]
    rw [if_pos (by show 13 < 14; decide), hext]
    simp only
    rw [toNat_ofNat_of_lt' (by omega)]
  · exact if_neg (by simp only [nvfsDirectExtents]; omega)

end

theorem Inode.capExtents_extents (n : Inode) : n.capExtents.extents = n.extents := by
  unfold capExtents
  split <;> rfl

theorem Inode.ext_addLater (n : Inode) (j : Nat) : n.addLater.capExtents.ext j = n.ext j := by
  have hlater : n.addLater.extents = n.extents := by simp only [addLater]
  exact ext_congr (n.addLater.capExtents_extents.trans hlater) j

section

variable (h : n.extentCount.toNat = 14)
include h

theorem Inode.addLater_count : n.addLater.capExtents.extentCount.toNat = 14 := by
  have hcount : n.addLater.extentCount.toNat = 15 := by
    unfold addLater
    rw [h]
    rfl
  unfold capExtents
  rw [if_pos (by simp only [nvfsMaxExtents]; omega)]
  rfl

/-- The block past the 14 extents `inode_read` lets through is not reached. -/
theorem Vol.extList_addLater
    (hblk : loadExtent (W.blk (n.ext 13).start.toNat).byte 0 =
      loadExtent (V.blk (n.ext 13).start.toNat).byte 0) :
    W.extList n.addLater.capExtents = V.extList n := by
  have hrange : range (min (14 - 13) nvfsIndirectEnts) = [0] := by decide
  unfold extList
  simp only [nvfsDirectExtents]
  rw [Inode.addLater_count h, h, map_congr_left fun j _ => n.ext_addLater j,
    n.ext_addLater 13, hrange, map_singleton, map_singleton, Nat.zero_mul, hblk]

theorem Inode.indBlks_addLater : n.addLater.capExtents.indBlks = n.indBlks := by
  unfold indBlks
  simp only [nvfsDirectExtents]
  rw [n.ext_addLater 13, Inode.addLater_count h, h]

end

/-! ## Recording the extent -/

/-- The outcome of `dir_add_extent` for a new block `b`: it fails for want of a
    block for the extents, or returns the inode with the extent recorded. -/
def DirExtended (V : Vol) (n : Inode) (b : Nat) : Option Inode → Vol → Prop
  | none, V' => V' = V ∧ n.extentCount.toNat = 13 ∧ ∀ c, c < 32726 → V.bit c = true
  | some n', V' =>
    (n.extentCount.toNat < 13 ∧ n' = n.addDirect b ∧ V' = V) ∨
    (n.extentCount.toNat = 13 ∧ ∃ ind s, ind < 32726 ∧ V.bit ind = false ∧
      n' = n.addIndirect ind ∧ loadExtent s.byte 0 = oneBlock b ∧
      V' = (V.setBit ind true).setBlk ind s) ∨
    (n.extentCount.toNat = 14 ∧ n' = n.addLater ∧ ∃ s, loadExtent s.byte 0
        = loadExtent (V.blk (n.ext 13).start.toNat).byte 0 ∧
      V' = V.setBlk (n.ext 13).start.toNat s)

theorem Frame.take (h : V.bit b = false) (s : Sector) :
    Frame ∅ ∅ V ((V.setBit b true).setBlk b s) := by
  have hne : ∀ c, V.bit c = true → c ≠ b := by
    rintro c hc rfl
    rw [hc] at h
    cases h
  refine ⟨rfl, fun _ _ => rfl, fun c hc _ => ?_, fun c hc _ => ?_⟩
  · rw [setBlk_bit, setBit_bit, if_neg (hne c hc), hc]
  · rw [setBlk_blk, if_neg (hne c hc), Vol.setBit_blk]

theorem Frame.mark (B I : Set Nat) (V : Vol) (b : Nat) : Frame B I V (V.setBit b true) := by
  refine ⟨rfl, fun _ _ => rfl, fun c hc _ => ?_, fun _ _ _ => rfl⟩
  rw [setBit_bit, hc, ite_self]

theorem loadExtent_indirect (exts : Nat → Extent) {k : Nat} (hk : 0 < k) :
    loadExtent (Sector.ofMem (storeExtents Sector.zero.byte 0 exts (min k nvfsIndirectEnts))).byte 0
      = exts 0 := by
  rw [loadExtent_congr fun i _ h2 => byte_ofMem (by omega)]
  have := loadExtent_storeExtents Sector.zero.byte 0 exts (k := min k nvfsIndirectEnts) (j := 0)
    (by simp only [nvfsIndirectEnts, nvfsSectorSize, nvfsExtentSize]; omega)
  simpa using this

theorem dirAddExtent_spec (hg : Geometry ib g)
    (htable : ∀ b, b + 32 < ib → (vol ib d).bit b = true) (hcap : n.extentCount.toNat ≤ 14)
    (hind : ∀ c ∈ n.indBlks, InData ib c) :
    wp 32768
      (fun d' => Frame ∅ ∅ (vol ib d) (vol ib d') ∨ n.extentCount.toNat = 14 ∧
        ∃ s, loadExtent s.byte 0 = loadExtent ((vol ib d).blk (n.ext 13).start.toNat).byte 0 ∧
          vol ib d' = (vol ib d).setBlk (n.ext 13).start.toNat s)
      (dirAddExtent n b)
      (fun r g' d' => g' = g ∧ DirExtended (vol ib d) n b r (vol ib d')) g d := by
  unfold dirAddExtent
  rcases Nat.lt_trichotomy n.extentCount.toNat 13 with hlt | heq | hgt
  · rw [if_pos hlt]
    exact ⟨rfl, .inl ⟨hlt, rfl, rfl⟩⟩
  · -- the thirteenth extent: a block for the indirect ones comes first
    rw [if_neg (by simp only [nvfsDirectExtents]; omega), if_pos heq]
    unfold indirectAlloc
    simp only [wp_bind]
    rw [wp_readOnly (readOnly_bitmapFind _)]
    cases hfind : val 32768 (bitmapFind 1) g d with
    | none => exact ⟨rfl, rfl, heq, fun c hc => bitmapFind_none hg hfind (by omega)⟩
    | some ind =>
      have hlt := bitmapFind_lt hg hfind
      have hfree : (vol ib d).bit ind = false := bitmapFind_free hg hfind (Or.inl rfl) hlt
      simp only [wp_bind]
      by_cases hend : ind < 32726
      · have hlo : ib ≤ ind + 32 := by
          by_contra hlo
          rw [htable ind (by omega)] at hfree
          cases hfree
        rw [wp_writeBlock hg hend]
        have h1 : vol ib (d.setBlk ind Sector.zero) = (vol ib d).setBlk ind Sector.zero :=
          vol_setBlk hlo hend _
        have h2 : vol ib ((d.setBlk ind Sector.zero).setBit ind true)
            = ((vol ib d).setBlk ind Sector.zero).setBit ind true := by
          rw [vol_setBit hlt, h1]
        have h3 : ∀ s, vol ib (((d.setBlk ind Sector.zero).setBit ind true).setBlk ind s)
            = ((vol ib d).setBit ind true).setBlk ind s := by
          intro s
          rw [vol_setBlk hlo hend, h2]
          apply Vol.ext
          · rfl
          · rfl
          · rfl
          · funext c
            simp only [setBlk_blk, Vol.setBit_blk]
            by_cases hc : c = ind <;> simp [hc]
        refine ⟨.inl (h1 ▸ Frame.setBlk hfree _), ?_⟩
        rw [if_pos rfl]
        simp only [wp_bind]
        rw [wp_bitmapSet hg hlt]
        refine ⟨.inl ?_, ?_⟩
        · rw [h2]
          exact (Frame.setBlk hfree _).trans (Frame.mark _ _ _ _)
        · simp only [wp_pure, wp_bind]
          unfold indirectWriteExtents
          rw [wp_writeBlock hg hend]
          refine ⟨.inl ?_, ?_⟩
          · rw [h3]
            exact Frame.take hfree _
          · rw [if_pos rfl]
            exact ⟨rfl, .inr (.inl ⟨heq, ind, _, hend, hfree, rfl,
              loadExtent_indirect _ (by decide), h3 _⟩)⟩
      rw [wp_writeBlock_end hg (by omega) (by omega), if_neg Bool.false_ne_true]
      exact ⟨rfl, rfl, heq, fun c hc => bitmapFind_one hg hfind (by omega)⟩
  -- one more extent in the indirect block there is
  have h14 : n.extentCount.toNat = 14 := by omega
  have hin : InData ib (n.ext 13).start.toNat := hind _ (by
    unfold Inode.indBlks
    rw [if_pos (by simp only [nvfsDirectExtents]; omega)]
    exact mem_singleton_self _)
  rw [if_neg (by simp only [nvfsDirectExtents]; omega),
    if_neg (by simp only [nvfsDirectExtents]; omega)]
  unfold indirectReadExtents indirectWriteExtents
  simp only [wp_bind, nvfsDirectExtents]
  rw [wp_readBlock hg hin.1 hin.2]
  simp only [wp_pure]
  rw [if_neg (by simp only [nvfsIndirectEnts, nvfsSectorSize, nvfsExtentSize]; omega)]
  simp only [wp_bind]
  rw [wp_writeBlock hg hin.2]
  have hsame : ∀ f : Nat → Extent, f 0 = loadExtent ((vol ib d).blk (n.ext 13).start.toNat).byte 0 →
      ∃ s, loadExtent s.byte 0 = loadExtent ((vol ib d).blk (n.ext 13).start.toNat).byte 0 ∧
        vol ib (d.setBlk (n.ext 13).start.toNat (Sector.ofMem (storeExtents Sector.zero.byte 0 f
          (min (n.extentCount.toNat - 13 + 1) nvfsIndirectEnts))))
          = (vol ib d).setBlk (n.ext 13).start.toNat s := fun f hf =>
    ⟨_, (loadExtent_indirect f (by omega)).trans hf, vol_setBlk hin.1 hin.2 _⟩
  have hfirst := hsame (fun i => if i = n.extentCount.toNat - 13 then ⟨UInt32.ofNat b, 1⟩
    else ((range (min nvfsIndirectEnts nvfsIndirectEnts)).map fun i =>
      loadExtent ((vol ib d).blk (n.ext 13).start.toNat).byte (i * nvfsExtentSize)).getD i
        Extent.zero) (by
      rw [if_neg (by omega)]
      rfl)
  refine ⟨.inr ⟨h14, hfirst⟩, ?_⟩
  rw [if_pos rfl]
  exact ⟨rfl, .inr (.inr ⟨h14, rfl, hfirst⟩)⟩

/-! ## Growing the directory -/

/-- Directory `dir` has one more block, `b`, which holds `s`; its indirect block,
    if it had to start one, is `extra`. -/
structure DirGrown (ib : Nat) (V : Vol) (dir b : Nat) (extra : List Nat) (s : Sector)
    (V' : Vol) : Prop where
  frame : Frame ∅ {dir} V V'
  type : (V'.ino dir).type = (V.ino dir).type
  exts : V'.extList (V'.ino dir) = V.extList (V.ino dir) ++ [oneBlock b]
  indBlks : (V'.ino dir).indBlks = (V.ino dir).indBlks ++ extra
  fresh : ∀ c ∈ b :: extra, InData ib c ∧ V.bit c = false ∧ V'.bit c = true
  nodup : (b :: extra).Nodup
  blk : V'.blk b = s
  first : ∀ c, c < b → V.bit c = true
  bit : ∀ c, c ∉ b :: extra → V'.bit c = V.bit c
  direct : (V.ino dir).extentCount.toNat < 13 → extra = []

/-- The new block of directory `dir` is out of reach: its extents are as before. -/
structure DirLost (V : Vol) (dir : Nat) (V' : Vol) : Prop where
  count : (V.ino dir).extentCount.toNat = 14
  frame : Frame {c | c ∈ (V.ino dir).indBlks} {dir} V V'
  bit : ∀ c, V.bit c = true → V'.bit c = true
  type : (V'.ino dir).type = (V.ino dir).type
  exts : V'.extList (V'.ino dir) = V.extList (V.ino dir)
  indBlks : (V'.ino dir).indBlks = (V.ino dir).indBlks
  fresh : ∃ b, b < 32726 ∧ V.bit b = false

/-- The data area cannot give the blocks that one more extent of `n` takes. -/
def NoRoom (V : Vol) (n : Inode) : Prop :=
  (∀ c, c < 32726 → V.bit c = true) ∨
    n.extentCount.toNat = 13 ∧ ∃ b, ∀ c, c < 32726 → c ≠ b → V.bit c = true

theorem DirGrown.blocks (h : DirGrown ib V dir b extra s V') :
    V'.blocksOf (V'.ino dir) = V.blocksOf (V.ino dir) ++ [b] := by
  have hb := (h.fresh b mem_cons_self).1.2
  unfold Vol.blocksOf
  rw [h.exts, extentBlocks_append, extentBlocks_oneBlock (by omega)]

section

variable (hP : ByType P) (hV : Owned P ib V) (hp : P (V.ino dir) = true)
include hP hV hp

theorem DirGrown.rewrites (h : DirGrown ib V dir b extra s V') : Rewrites P ib dir V V' := by
  have hholds : V'.holds P dir = V.blocksOf (V.ino dir) ++ [b] ++ ((V.ino dir).indBlks ++ extra) := by
    rw [holds_pos (by rw [hP _ _ h.type, hp]), Vol.refs, h.blocks, h.indBlks]
  have hperm : (V'.holds P dir).Perm (V.holds P dir ++ b :: extra) := by
    rw [hholds, holds_pos hp, Vol.refs]
    simp only [append_assoc, singleton_append]
    exact List.Perm.append_left _ perm_middle.symm
  have hmem : ∀ c ∈ V'.holds P dir, c ∈ V.holds P dir ∨ c ∈ b :: extra := fun c hc =>
    mem_append.mp (hperm.mem_iff.mp hc)
  refine ⟨h.frame.mono (Set.empty_subset _) (le_refl _), ?_, ?_, ?_, ?_⟩
  · intro c hc
    rcases hmem c hc with hold | hnew
    · exact hV.inData dir c hold
    · exact (h.fresh c hnew).1
  · intro c hc
    rcases hmem c hc with hold | hnew
    · exact h.frame.bit c (hV.marked dir c hold) (notMem_empty c)
    · exact (h.fresh c hnew).2.2
  · intro c hc
    rcases hmem c hc with hold | hnew
    · exact .inr hold
    · exact .inl (h.fresh c hnew).2.1
  · rw [hperm.nodup_iff, nodup_append]
    refine ⟨hV.nodup dir, h.nodup, fun c hc e he hce => ?_⟩
    have hfree := (h.fresh e he).2.1
    rw [← hce, hV.marked dir c hc] at hfree
    cases hfree

theorem DirLost.rewrites (h : DirLost V dir V') : Rewrites P ib dir V V' := by
  have hholds : V'.holds P dir = V.holds P dir := by
    rw [holds_pos (by rw [hP _ _ h.type, hp]), holds_pos hp, Vol.refs, Vol.refs,
      Vol.blocksOf, Vol.blocksOf, h.exts, h.indBlks]
  refine ⟨h.frame.mono (fun c hc => ?_) (le_refl _), ?_, ?_, ?_, ?_⟩
  · show c ∈ V.holds P dir
    rw [holds_pos hp]
    exact mem_append_right _ hc
  · rw [hholds]
    exact hV.inData dir
  · rw [hholds]
    exact fun c hc => h.bit c (hV.marked dir c hc)
  · rw [hholds]
    exact fun c hc => .inr hc
  · rw [hholds]
    exact hV.nodup dir

end

theorem Inode.stamp_capExtents (m : Inode) (t : UInt32) :
    (m.stamp t).capExtents = m.capExtents.stamp t := by
  unfold capExtents
  rw [stamp_count]
  split <;> rfl

theorem Inode.capExtents_type (n : Inode) : n.capExtents.type = n.type := by
  unfold capExtents
  split <;> rfl

theorem Inode.capExtents_size (n : Inode) : n.capExtents.size = n.size := by
  unfold capExtents
  split <;> rfl

theorem Inode.capExtents_of_le (h : n.extentCount.toNat ≤ 14) : n.capExtents = n :=
  if_neg (by simp only [nvfsMaxExtents]; omega)

theorem Inode.capExtents_count (n : Inode) : n.capExtents.extentCount.toNat ≤ 14 := by
  unfold capExtents
  split
  · exact le_rfl
  · next h => exact not_lt.mp h

theorem vol_count (ib : Nat) (d : Disk) (i : Nat) :
    ((vol ib d).ino i).extentCount.toNat ≤ 14 := by
  rw [vol_ino]
  split
  · exact Inode.capExtents_count _
  · exact Nat.zero_le 14

theorem Frame.setIno (V : Vol) (i : Nat) (n : Inode) : Frame ∅ {i} V (V.setIno i n) :=
  ⟨rfl, fun _ hj => setIno_of_ne hj n, fun _ h _ => h, fun _ _ _ => rfl⟩

section

variable {V : Vol} {dir b : Nat} {s : Sector} {t : UInt32}

section

variable (hb : InData ib b) (hfree : V.bit b = false) (hfirst : ∀ c, c < b → V.bit c = true)
include hb hfree hfirst

theorem DirGrown.ofDirect (hc : (V.ino dir).extentCount.toNat < 13) :
    DirGrown ib V dir b [] s (((V.setBit b true).setBlk b s).setIno dir
      (((V.ino dir).addDirect b).capExtents.stamp t)) := by
  have hcount := Inode.addDirect_count hc b
  rw [Inode.capExtents_of_le (n := (V.ino dir).addDirect b) (by omega)]
  have hino : (((V.setBit b true).setBlk b s).setIno dir
      (((V.ino dir).addDirect b).stamp t)).ino dir
      = (((V.ino dir).addDirect b).stamp t) := by rw [setIno_ino, if_pos rfl]
  have hind := Inode.indBlks_addDirect hc b
  refine ⟨((Frame.take hfree s).mono (le_refl _) (Set.empty_subset _)).trans (Frame.setIno _ _ _),
    ?_, ?_, ?_, ?_, ?_, ?_, hfirst, fun c hc => ?_, fun _ => rfl⟩
  · rw [hino]
    simp only [Inode.stamp, Inode.addDirect, Inode.setExt]
  · rw [hino, Vol.extList_stamp, Vol.extList_addDirect hc V]
  · rw [hino, Inode.indBlks_stamp, hind.1, hind.2]
    rfl
  · intro c hc
    obtain rfl := mem_singleton.mp hc
    refine ⟨hb, hfree, ?_⟩
    rw [setIno_bit, setBlk_bit, setBit_bit, if_pos rfl]
  · simp
  · rw [setIno_blk, setBlk_blk, if_pos rfl]
  · rw [setIno_bit, setBlk_bit, setBit_bit, if_neg (by simpa using hc)]

/-- The extent is the first of a new indirect block. -/
theorem DirGrown.ofIndirect (hi : InData ib ind)
    (hifree : ((V.setBit b true).setBlk b s).bit ind = false)
    (hc : (V.ino dir).extentCount.toNat = 13) (hsi : loadExtent si.byte 0 = oneBlock b) :
    DirGrown ib V dir b [ind] s (((((V.setBit b true).setBlk b s).setBit ind true).setBlk ind
      si).setIno dir (((V.ino dir).addIndirect ind).capExtents.stamp t)) := by
  have hlt := hi.2
  rw [Inode.capExtents_of_le (n := (V.ino dir).addIndirect ind) le_rfl]
  have hne : b ≠ ind := by
    rintro rfl
    rw [setBlk_bit, setBit_bit, if_pos rfl] at hifree
    cases hifree
  have hifree' : V.bit ind = false := by
    rw [setBlk_bit, setBit_bit, if_neg hne.symm] at hifree
    exact hifree
  have hino : (((((V.setBit b true).setBlk b s).setBit ind true).setBlk ind si).setIno dir
      (((V.ino dir).addIndirect ind).stamp t)).ino dir
      = (((V.ino dir).addIndirect ind).stamp t) := by rw [setIno_ino, if_pos rfl]
  have hind := Inode.indBlks_addIndirect hc (by omega : ind < 2 ^ 31)
  have hframe := (Frame.take hfree s).trans (Frame.take hifree si)
  refine ⟨(hframe.mono (le_refl _) (Set.empty_subset _)).trans (Frame.setIno _ _ _),
    ?_, ?_, ?_, ?_, ?_, ?_, hfirst, fun c hc => ?_, fun hlt => absurd hlt (by omega)⟩
  · rw [hino]
    simp only [Inode.stamp, Inode.addIndirect, Inode.setExt]
  · rw [hino, Vol.extList_stamp]
    refine Vol.extList_addIndirect hc (by omega) ?_
    rw [setIno_blk, setBlk_blk, if_pos rfl, hsi]
  · rw [hino, Inode.indBlks_stamp, hind.1, hind.2]
    rfl
  · intro c hc
    rcases mem_cons.mp hc with rfl | hc
    · refine ⟨hb, hfree, ?_⟩
      rw [setIno_bit, setBlk_bit, setBit_bit, if_neg hne, setBlk_bit,
        setBit_bit, if_pos rfl]
    obtain rfl := mem_singleton.mp hc
    refine ⟨hi, hifree', ?_⟩
    rw [setIno_bit, setBlk_bit, setBit_bit, if_pos rfl]
  · simp [hne]
  · rw [setIno_blk, setBlk_blk, if_neg hne, Vol.setBit_blk, setBlk_blk, if_pos rfl]
  · obtain ⟨hcb, hci⟩ : c ≠ b ∧ c ≠ ind := by simpa using hc
    rw [setIno_bit, setBlk_bit, setBit_bit, if_neg hci, setBlk_bit,
      setBit_bit, if_neg hcb]

end

/-- The extent went behind the one that is still read. -/
theorem DirLost.later (hb : b < 32726) (hfree : V.bit b = false)
    (hmark : ∀ c ∈ (V.ino dir).indBlks, V.bit c = true)
    (hc : (V.ino dir).extentCount.toNat = 14)
    (hsi : loadExtent si.byte 0 = loadExtent (((V.setBit b true).setBlk b s).blk
      ((V.ino dir).ext 13).start.toNat).byte 0) :
    DirLost V dir ((((V.setBit b true).setBlk b s).setBlk ((V.ino dir).ext 13).start.toNat
      si).setIno dir ((V.ino dir).addLater.capExtents.stamp t)) := by
  have hindmem : ((V.ino dir).ext 13).start.toNat ∈ (V.ino dir).indBlks := by
    unfold Inode.indBlks
    rw [if_pos (by simp only [nvfsDirectExtents]; omega)]
    exact mem_singleton_self _
  have hne : ((V.ino dir).ext 13).start.toNat ≠ b := by
    intro heq
    have := hmark _ hindmem
    rw [heq, hfree] at this
    cases this
  have hino : ((((V.setBit b true).setBlk b s).setBlk ((V.ino dir).ext 13).start.toNat si).setIno
      dir ((V.ino dir).addLater.capExtents.stamp t)).ino dir
      = ((V.ino dir).addLater.capExtents.stamp t) := by rw [setIno_ino, if_pos rfl]
  have hframe := Frame.take hfree s
  refine ⟨hc, ⟨rfl, fun j hj => setIno_of_ne hj _, fun c h1 _ => ?_, fun c h1 h2 => ?_⟩,
    fun c h1 => ?_, ?_, ?_, ?_, ⟨b, hb, hfree⟩⟩
  · exact hframe.bit c h1 (notMem_empty c)
  · rw [setIno_blk, setBlk_blk, if_neg (by rintro rfl; exact h2 hindmem)]
    exact hframe.blk c h1 (notMem_empty c)
  · exact hframe.bit c h1 (notMem_empty c)
  · rw [hino, Inode.stamp_type, Inode.capExtents_type]
    simp only [Inode.addLater]
  · rw [hino, Vol.extList_stamp]
    refine Vol.extList_addLater hc ?_
    rw [setIno_blk, setBlk_blk, if_pos rfl, hsi, setBlk_blk, if_neg hne,
      Vol.setBit_blk]
  · rw [hino, Inode.indBlks_stamp, Inode.indBlks_addLater hc]

end

/-- The end of `dir_add`: the directory grows, or there is no room and nothing in
    use has changed. -/
theorem dirAddGrow_spec (hg : Geometry ib g)
    (htable : ∀ b, b + 32 < ib → (vol ib d).bit b = true) (hdir : dir < 4 * ib)
    (hind : ∀ c ∈ ((vol ib d).ino dir).indBlks, InData ib c ∧ (vol ib d).bit c = true)
    (nd : Mem) (ticks : Nat) :
    wp 32768
      (fun d' => Frame ∅ ∅ (vol ib d) (vol ib d') ∨
        (∃ b extra, DirGrown ib (vol ib d) dir b extra (putSlot Sector.zero 0 nd) (vol ib d')) ∨
        ((vol ib d).ino dir).extentCount.toNat = 14)
      (dirAddGrow dir ((vol ib d).ino dir) nd ticks)
      (fun r g' d' => g' = g ∧
        (r = false ∧ Frame ∅ ∅ (vol ib d) (vol ib d') ∧ NoRoom (vol ib d) ((vol ib d).ino dir) ∨
          r = true ∧ ((∃ b extra,
              DirGrown ib (vol ib d) dir b extra (putSlot Sector.zero 0 nd) (vol ib d')) ∨
            DirLost (vol ib d) dir (vol ib d')))) g d := by
  unfold dirAddGrow
  rw [wp_bind, wp_readOnly (readOnly_bitmapFind _)]
  cases hfind : val 32768 (bitmapFind 1) g d with
  | none =>
    exact ⟨rfl, .inl ⟨rfl, Frame.refl _ _ _,
      Or.inl fun c hc => bitmapFind_none hg hfind (by omega)⟩⟩
  | some b =>
    have hlt := bitmapFind_lt hg hfind
    have hfree : (vol ib d).bit b = false := bitmapFind_free hg hfind (Or.inl rfl) hlt
    have hfirst : ∀ c < b, (vol ib d).bit c = true := fun c hc => bitmapFind_one hg hfind hc
    have hlo : ib ≤ b + 32 := by
      by_contra hlo
      rw [htable b (by omega)] at hfree
      cases hfree
    have h1 : vol ib (d.setBit b true) = (vol ib d).setBit b true := vol_setBit hlt true
    simp only [wp_bind]
    rw [wp_bitmapSet hg hlt]
    refine ⟨.inl (h1 ▸ Frame.mark _ _ _ _), ?_⟩
    by_cases hend : b < 32726
    · have h2 : vol ib ((d.setBit b true).setBlk b (putSlot Sector.zero 0 nd))
          = ((vol ib d).setBit b true).setBlk b (putSlot Sector.zero 0 nd) := by
        rw [vol_setBlk hlo hend, h1]
      have hframe := Frame.take hfree (putSlot Sector.zero 0 nd)
      rw [wp_writeBlock hg hend]
      refine ⟨.inl (h2 ▸ hframe), ?_⟩
      rw [if_pos rfl]
      refine (wp_bind).mpr (DiskProg.wp_mono ?_ ?_ (dirAddExtent_spec hg (fun c hc => by
        rw [h2]
        exact hframe.bit c (htable c hc) (notMem_empty c)) (vol_count ib d dir)
        fun c hc => (hind c hc).1))
      · rintro d' (hd' | ⟨h14, _⟩)
        · rw [h2] at hd'
          exact .inl (hframe.trans hd')
        · exact .inr (Or.inr h14)
      · rintro r g' (d' : Disk) ⟨rfl, hr⟩
        rw [h2] at hr
        cases r with
        | none =>
          -- no block for the indirect extents: the new block is given back
          obtain ⟨hd', h13, hall⟩ := hr
          have h3 : vol ib (d'.setBit b false) = (((vol ib d).setBit b true).setBlk b
              (putSlot Sector.zero 0 nd)).setBit b false := by rw [vol_setBit hlt, hd']
          have hback : Frame ∅ ∅ (vol ib d) (vol ib (d'.setBit b false)) := by
            rw [h3]
            refine ⟨rfl, fun _ _ => rfl, fun c hc hc' => ?_, fun c hc hc' => ?_⟩
            · rw [setBit_bit, if_neg (by rintro rfl; rw [hc] at hfree; simp at hfree)]
              exact hframe.bit c hc hc'
            · exact hframe.blk c hc hc'
          simp only [wp_bind]
          rw [wp_bitmapSet hg hlt]
          refine ⟨.inl hback, rfl, .inl ⟨rfl, hback, .inr ⟨h13, b, fun c hc hne => ?_⟩⟩⟩
          have := hall c hc
          rwa [setBlk_bit, setBit_bit, if_neg hne] at this
        | some n' =>
          have h3 : vol ib (d'.setIno dir { n' with mtime := nowSec ticks })
              = (vol ib d').setIno dir (n'.capExtents.stamp (nowSec ticks)) :=
            (vol_setIno hdir _).trans (by rw [← Inode.stamp_capExtents]; rfl)
          simp only [wp_bind]
          rw [wp_inodeWrite hg hdir, if_pos rfl, wp_pure, h3]
          rcases hr with ⟨hc, rfl, hd'⟩ | ⟨hc, ind, si, hi, hifree, rfl, hsi, hd'⟩ |
            ⟨hc, rfl, si, hsi, hd'⟩
          · rw [hd']
            have hgrown : DirGrown ib (vol ib d) dir b [] (putSlot Sector.zero 0 nd) _ :=
              DirGrown.ofDirect ⟨hlo, hend⟩ hfree hfirst hc (t := nowSec ticks)
            exact ⟨.inr (.inl ⟨b, [], hgrown⟩), rfl, .inr ⟨rfl, .inl ⟨b, [], hgrown⟩⟩⟩
          · have hilo : ib ≤ ind + 32 := by
              by_contra hilo
              rw [hframe.bit ind (htable ind (by omega)) (notMem_empty ind)] at hifree
              cases hifree
            rw [hd']
            have hgrown : DirGrown ib (vol ib d) dir b [ind] (putSlot Sector.zero 0 nd) _ :=
              DirGrown.ofIndirect ⟨hlo, hend⟩ hfree hfirst ⟨hilo, hi⟩ hifree hc hsi (t := nowSec ticks)
            exact ⟨.inr (.inl ⟨b, [ind], hgrown⟩), rfl,
              Or.inr ⟨rfl, .inl ⟨b, [ind], hgrown⟩⟩⟩
          rw [hd']
          exact ⟨.inr (Or.inr hc), rfl, .inr ⟨rfl, .inr
            (DirLost.later hend hfree (fun c hc => (hind c hc).2) hc hsi)⟩⟩
    -- the only free bits are past the end of the disk
    rw [wp_writeBlock_end hg (by omega) (by omega), if_neg Bool.false_ne_true]
    refine ⟨rfl, .inl ⟨rfl, h1 ▸ Frame.mark _ _ _ _, .inl fun c hc => ?_⟩⟩
    exact bitmapFind_one hg hfind (by omega)

export Inode (stamp_type stamp_capExtents capExtents_of_le)

end Noverix.Nvfs
