/-
  `dir_find`, `dir_add` and `dir_remove` on volumes.  The entries of a
  directory are those of its blocks, in order (`Vol.entries`).  `dir_find`
  searches them; `dir_add` fills a free slot of a block or grows the directory
  by a block; `dir_remove` clears the slot it finds.  An update of one block is
  `Edited`, whether or not the time stamp has been stored yet.
-/

import Noverix.Nvfs.DirGrow

namespace Noverix.Nvfs

open Lib
open Lib.DiskProg (wp wp_bind)

variable {V W : Vol} {n : Inode} {name : List UInt8} {bs : List Nat} {dir ticks : Nat}
  {Q : Bool → Globals → Disk → Prop}
  {ib : Nat} {g : Globals} {d : Disk} {C : Disk → Prop}

/-- The entries of a directory. -/
def Vol.entries (V : Vol) (n : Inode) : List Entry :=
  (V.blocksOf n).flatMap fun b => sectorEntries (V.blk b)

theorem Vol.entries_congr (h : ∀ b ∈ V.refs n, W.blk b = V.blk b) :
    W.entries n = V.entries n := by
  unfold entries
  rw [blocksOf_congr fun b hb => h b (mem_append_right _ hb)]
  exact flatMap_congr fun b hb => by rw [h b (mem_append_left _ hb)]

/-! ## Lookup -/

/-- The inode number that a list of entries gives for a name. -/
def lookup (es : List Entry) (name : List UInt8) : Option Nat :=
  (es.find? fun e => e.1 == nameKey name).bind fun e => asInt e.2

theorem val_dirFindBlocks (hg : Geometry ib g) (hn : NulFree name)
    (hbs : ∀ b ∈ bs, InData ib b) :
    val 32768 (dirFindBlocks name bs) g d
      = lookup (bs.flatMap fun b => sectorEntries ((vol ib d).blk b)) name := by
  induction bs with
  | nil => rfl
  | cons b bs ih =>
    have ih' := ih fun c hc => hbs c (mem_cons_of_mem _ hc)
    unfold lookup at ih' ⊢
    rw [flatMap_cons, find?_append, find_sectorEntries _ hn]
    unfold dirFindBlocks
    rw [val_bind (readOnly_readBlock _), val_readBlock hg (hbs b mem_cons_self)]
    cases hf : findSlot ((vol ib d).blk b) name with
    | none =>
      simp only [hf]
      exact ih'
    | some e =>
      simp only [hf]
      rfl

theorem val_dirFind (hg : Geometry ib g) (dir : Nat) (hn : NulFree name)
    (hdata : ((vol ib d).ino dir).type = nvfsTypeDir →
      ∀ b ∈ (vol ib d).refs ((vol ib d).ino dir), InData ib b) :
    val 32768 (dirFind dir name) g d
      = if ((vol ib d).ino dir).type = nvfsTypeDir
        then lookup ((vol ib d).entries ((vol ib d).ino dir)) name else none := by
  unfold dirFind
  rw [val_bind (readOnly_inodeRead _)]
  by_cases hdir : dir < 4 * ib
  · rw [val_inodeRead hg hdir]
    by_cases ht : ((vol ib d).ino dir).type = nvfsTypeDir
    · have hd := hdata ht
      simp only [ht, ne_eq, not_true_eq_false, ↓reduceIte]
      rw [val_bind (readOnly_extentLoadAll _),
        val_extentLoadAll hg fun b hb => hd b (mem_append_right _ hb)]
      exact val_dirFindBlocks hg hn fun b hb => hd b (mem_append_left _ hb)
    simp only [ne_eq, ht, not_false_eq_true, ↓reduceIte]
    rfl
  have hblank : (vol ib d).ino dir = Inode.blank := by rw [vol_ino, if_neg hdir]
  rw [val_inodeRead_ge hg (by omega), hblank]
  rfl

/-! ## Editing one block -/

/-- Block `b` of directory `dir` now holds `s`; the time stamp may have been set. -/
def Edited (V : Vol) (dir b : Nat) (s : Sector) (W : Vol) : Prop :=
  b ∈ V.blocksOf (V.ino dir) ∧
    (W = V.setBlk b s ∨ ∃ t, W = (V.setBlk b s).setIno dir ((V.ino dir).stamp t))

namespace Edited

variable {V W : Vol} {dir b : Nat} {s : Sector}

section

variable (h : Edited V dir b s W)
include h

theorem blk : W.blk = (V.setBlk b s).blk := by
  rcases h.2 with rfl | ⟨t, rfl⟩ <;> rfl

theorem bit : W.bit = V.bit := by
  rcases h.2 with rfl | ⟨t, rfl⟩ <;> rfl

theorem ino_of_ne {j : Nat} (hj : j ≠ dir) : W.ino j = V.ino j := by
  rcases h.2 with rfl | ⟨t, rfl⟩
  · rfl
  · exact setIno_of_ne hj _

theorem type : (W.ino dir).type = (V.ino dir).type := by
  rcases h.2 with rfl | ⟨t, rfl⟩
  · rfl
  · rw [setIno_ino, if_pos rfl, stamp_type]

theorem exts (hnd : (V.refs (V.ino dir)).Nodup) :
    W.extList (W.ino dir) = V.extList (V.ino dir) ∧
      (W.ino dir).indBlks = (V.ino dir).indBlks := by
  have hout : ∀ c ∈ (V.ino dir).indBlks, (V.setBlk b s).blk c = V.blk c := by
    intro c hc
    rw [setBlk_blk, if_neg]
    rintro rfl
    exact (nodup_append.mp hnd).2.2 c h.1 c hc rfl
  rcases h.2 with rfl | ⟨t, rfl⟩
  · exact ⟨extList_congr hout, rfl⟩
  rw [setIno_ino, if_pos rfl, Vol.extList_stamp, Inode.indBlks_stamp]
  exact ⟨extList_congr hout, rfl⟩

theorem blocksOf (hnd : (V.refs (V.ino dir)).Nodup) :
    W.blocksOf (W.ino dir) = V.blocksOf (V.ino dir) := by
  rw [Vol.blocksOf, Vol.blocksOf, (h.exts hnd).1]

theorem refs (hnd : (V.refs (V.ino dir)).Nodup) : W.refs (W.ino dir) = V.refs (V.ino dir) := by
  rw [Vol.refs, Vol.refs, h.blocksOf hnd, (h.exts hnd).2]

end

theorem rewrites {P : Inode → Bool} (hP : ByType P) (hV : Owned P ib V)
    (hp : P (V.ino dir) = true) (h : Edited V dir b s W) : Rewrites P ib dir V W := by
  have hnd : (V.refs (V.ino dir)).Nodup := by
    have := hV.nodup dir
    rwa [holds_pos hp] at this
  have hholds : W.holds P dir = V.holds P dir := by
    rw [holds_pos (by rw [hP _ _ h.type, hp]), holds_pos hp, h.refs hnd]
  have hsb : W.sb = V.sb := by rcases h.2 with rfl | ⟨t, rfl⟩ <;> rfl
  refine ⟨⟨hsb, fun j hj => h.ino_of_ne hj, fun c hc _ => ?_, fun c hc hc' => ?_⟩, ?_, ?_, ?_, ?_⟩
  · rw [h.bit, hc]
  · rw [h.blk, setBlk_blk, if_neg]
    rintro rfl
    refine hc' ?_
    rw [holds_pos hp]
    exact mem_append_left _ h.1
  · rw [hholds]
    exact hV.inData dir
  · rw [hholds, h.bit]
    exact hV.marked dir
  · rw [hholds]
    exact fun c hc => .inr hc
  · rw [hholds]
    exact hV.nodup dir

/-- The entries of the directory change in the block edited only. -/
theorem entries (h : Edited V dir b s W) (hnd : (V.refs (V.ino dir)).Nodup) :
    ∃ l1 l2, V.entries (V.ino dir) = l1 ++ sectorEntries (V.blk b) ++ l2 ∧
      W.entries (W.ino dir) = l1 ++ sectorEntries s ++ l2 := by
  obtain ⟨pre, post, hsplit⟩ := List.append_of_mem h.1
  have hblocks : W.blocksOf (W.ino dir) = pre ++ b :: post := by
    rw [← hsplit, h.blocksOf hnd]
  have hnd' : (pre ++ b :: post).Nodup := by
    rw [← hsplit]
    exact (nodup_append.mp hnd).1
  have hother : ∀ c ≠ b, W.blk c = V.blk c := fun c hc => by
    rw [h.blk, setBlk_blk, if_neg hc]
  have hpre : pre.flatMap (fun c => sectorEntries (W.blk c))
      = pre.flatMap fun c => sectorEntries (V.blk c) := flatMap_congr fun c hc => by
    rw [hother c (by
      rintro rfl
      exact (nodup_append.mp hnd').2.2 c hc c mem_cons_self rfl)]
  have hpost : post.flatMap (fun c => sectorEntries (W.blk c))
      = post.flatMap fun c => sectorEntries (V.blk c) := flatMap_congr fun c hc => by
    rw [hother c (by
      rintro rfl
      exact (nodup_cons.mp (nodup_append.mp hnd').2.1).1 hc)]
  have hself : W.blk b = s := by rw [h.blk, setBlk_blk, if_pos rfl]
  refine ⟨pre.flatMap fun c => sectorEntries (V.blk c),
    post.flatMap fun c => sectorEntries (V.blk c), ?_, ?_⟩
  · rw [Vol.entries, hsplit, flatMap_append, flatMap_cons, append_assoc]
  · rw [Vol.entries, hblocks, flatMap_append, flatMap_cons, hpre, hpost, hself,
      append_assoc]

end Edited

/-! ## Insertion -/

/-- No block of the inode has a free slot. -/
def FullDir (V : Vol) (n : Inode) : Prop := ∀ b ∈ V.blocksOf n, freeSlot (V.blk b) = none

theorem Vol.entries_length_le (V : Vol) (n : Inode) :
    (V.entries n).length ≤ 16 * (V.blocksOf n).length := by
  unfold entries
  induction V.blocksOf n with
  | nil => exact le_rfl
  | cons b bs ih =>
    have hb : (sectorEntries (V.blk b)).length ≤ 16 :=
      (List.length_filterMap_le _ _).trans (Nat.le_of_eq length_range)
    rw [flatMap_cons, length_append, length_cons]
    omega

theorem FullDir.entries_length (h : FullDir V n) :
    (V.entries n).length = 16 * (V.blocksOf n).length := by
  unfold FullDir at h
  unfold Vol.entries
  generalize V.blocksOf n = bs at h ⊢
  induction bs with
  | nil => rfl
  | cons b bs ih =>
    rw [flatMap_cons, length_append,
      sectorEntries_length_of_full (h b mem_cons_self),
      ih fun c hc => h c (mem_cons_of_mem _ hc), length_cons]
    omega

theorem wp_dirAddBlocks (hg : Geometry ib g) (hdir : dir < 4 * ib) {nd : Mem} {full : NvfsM Bool}
    (bs : List Nat) (hbs : ∀ b ∈ bs, InData ib b) :
    wp 32768 C (dirAddBlocks dir n nd ticks full bs) Q g d ↔
      match bs.findSome? fun b => (freeSlot ((vol ib d).blk b)).map (Prod.mk b) with
      | none => wp 32768 C full Q g d
      | some (b, e) =>
        C (d.setBlk b (putSlot ((vol ib d).blk b) e nd)) ∧
        C ((d.setBlk b (putSlot ((vol ib d).blk b) e nd)).setIno dir (n.stamp (nowSec ticks))) ∧
        Q true g
          ((d.setBlk b (putSlot ((vol ib d).blk b) e nd)).setIno dir (n.stamp (nowSec ticks))) := by
  induction bs with
  | nil => rfl
  | cons b bs ih =>
    have hb := hbs b mem_cons_self
    unfold dirAddBlocks
    rw [wp_bind, wp_readBlock hg hb.1 hb.2, findSome?_cons]
    cases hf : freeSlot ((vol ib d).blk b) with
    | none =>
      simp only [hf, map_none]
      exact ih fun c hc => hbs c (mem_cons_of_mem _ hc)
    | some e =>
      simp only [hf, map_some]
      rw [wp_bind, wp_writeBlock hg hb.2, if_pos rfl, wp_inodeWrite hg hdir]
      rfl

/-- Directory `dir` has got the entry `nd`: in a free slot, or in a new block. -/
def DirAdded (ib : Nat) (V : Vol) (dir : Nat) (nd : Mem) (W : Vol) : Prop :=
  (∃ b e, freeSlot (V.blk b) = some e ∧ Edited V dir b (putSlot (V.blk b) e nd) W) ∨
    FullDir V (V.ino dir) ∧ ∃ b extra, DirGrown ib V dir b extra (putSlot Sector.zero 0 nd) W

theorem dirAdd_spec (hg : Geometry ib g)
    (htable : ∀ b, b + 32 < ib → (vol ib d).bit b = true) (hn : NulFree name)
    (hdata : ((vol ib d).ino dir).type = nvfsTypeDir →
      ∀ c ∈ (vol ib d).refs ((vol ib d).ino dir), InData ib c ∧ (vol ib d).bit c = true)
    (child ticks : Nat) :
    wp 32768
      (fun d' => Frame ∅ ∅ (vol ib d) (vol ib d') ∨
        DirAdded ib (vol ib d) dir (direntBytes name child) (vol ib d') ∨
        FullDir (vol ib d) ((vol ib d).ino dir) ∧ ((vol ib d).ino dir).extentCount.toNat = 14)
      (dirAdd dir name child ticks)
      (fun r g' d' => g' = g ∧
        (r = false ∧ Frame ∅ ∅ (vol ib d) (vol ib d') ∧
            (((vol ib d).ino dir).type ≠ nvfsTypeDir ∨
              lookup ((vol ib d).entries ((vol ib d).ino dir)) name ≠ none ∨
              FullDir (vol ib d) ((vol ib d).ino dir) ∧ NoRoom (vol ib d) ((vol ib d).ino dir)) ∨
          r = true ∧ dir < 4 * ib ∧ ((vol ib d).ino dir).type = nvfsTypeDir ∧
            lookup ((vol ib d).entries ((vol ib d).ino dir)) name = none ∧
            (DirAdded ib (vol ib d) dir (direntBytes name child) (vol ib d') ∨
              FullDir (vol ib d) ((vol ib d).ino dir) ∧ DirLost (vol ib d) dir (vol ib d')))) g d := by
  unfold dirAdd
  rw [wp_bind]
  by_cases hdir : dir < 4 * ib
  · rw [wp_inodeRead hg hdir]
    by_cases ht : ((vol ib d).ino dir).type = nvfsTypeDir
    · have hdata := hdata ht
      have hfind := val_dirFind (d := d) hg dir hn fun _ c hc => (hdata c hc).1
      rw [if_pos ht] at hfind
      simp only [ht, ne_eq, not_true_eq_false, ↓reduceIte]
      rw [wp_bind, wp_readOnly (readOnly_dirFind _ _), hfind]
      cases hl : lookup ((vol ib d).entries ((vol ib d).ino dir)) name with
      | some i => exact ⟨rfl, .inl ⟨rfl, Frame.refl _ _ _, .inr (.inl (by simp))⟩⟩
      | none =>
        simp only
        rw [wp_bind, wp_readOnly (readOnly_extentLoadAll _),
          val_extentLoadAll hg fun c hc => (hdata c (mem_append_right _ hc)).1]
        simp only
        rw [wp_dirAddBlocks hg hdir (extentBlocks ((vol ib d).extList ((vol ib d).ino dir)))
          fun c hc => (hdata c (mem_append_left _ hc)).1]
        cases hs : (extentBlocks ((vol ib d).extList ((vol ib d).ino dir))).findSome?
            fun b => (freeSlot ((vol ib d).blk b)).map (Prod.mk b) with
        | none =>
          have hfull : FullDir (vol ib d) ((vol ib d).ino dir) := fun b hb =>
            map_eq_none_iff.mp (List.findSome?_eq_none_iff.mp hs b hb)
          refine DiskProg.wp_mono ?_ ?_ (dirAddGrow_spec hg htable hdir
            (fun c hc => hdata c (mem_append_right _ hc)) (direntBytes name child) ticks)
          · rintro d' (h | h | h)
            · exact .inl h
            · exact .inr (.inl (.inr ⟨hfull, h⟩))
            · exact .inr (.inr ⟨hfull, h⟩)
          · rintro r g' d' ⟨hg', ⟨hr, hframe, hroom⟩ | ⟨hr, h | h⟩⟩
            · exact ⟨hg', .inl ⟨hr, hframe, .inr (.inr ⟨hfull, hroom⟩)⟩⟩
            · exact ⟨hg', .inr ⟨hr, hdir, trivial, trivial, .inl (.inr ⟨hfull, h⟩)⟩⟩
            · exact ⟨hg', .inr ⟨hr, hdir, trivial, trivial, .inr ⟨hfull, h⟩⟩⟩
        | some be =>
          obtain ⟨b, e⟩ := be
          obtain ⟨c, hc, hce⟩ := List.exists_of_findSome?_eq_some hs
          obtain ⟨e', he', heq⟩ := map_eq_some_iff.mp hce
          obtain ⟨rfl, rfl⟩ := Prod.mk.inj heq
          have hin := (hdata c (mem_append_left _ hc)).1
          have h1 : vol ib (d.setBlk c (putSlot ((vol ib d).blk c) e' (direntBytes name child)))
              = (vol ib d).setBlk c (putSlot ((vol ib d).blk c) e' (direntBytes name child)) :=
            vol_setBlk hin.1 hin.2 _
          have h2 : vol ib ((d.setBlk c (putSlot ((vol ib d).blk c) e'
              (direntBytes name child))).setIno dir
                (((vol ib d).ino dir).stamp (nowSec ticks)))
              = ((vol ib d).setBlk c (putSlot ((vol ib d).blk c) e'
                  (direntBytes name child))).setIno dir
                    (((vol ib d).ino dir).stamp (nowSec ticks)) := by
            rw [vol_setIno hdir, h1, stamp_capExtents,
              capExtents_of_le (vol_count ib d dir)]
          have hadded : DirAdded ib (vol ib d) dir (direntBytes name child) (vol ib _) :=
            Or.inl ⟨c, e', he', hc, .inr ⟨_, h2⟩⟩
          exact ⟨.inr (.inl (.inl ⟨c, e', he', hc, .inl h1⟩)), .inr (Or.inl hadded),
            rfl, .inr ⟨rfl, hdir, trivial, trivial, .inl hadded⟩⟩
    simp only [ne_eq, ht, not_false_eq_true, ↓reduceIte]
    exact ⟨rfl, .inl ⟨rfl, Frame.refl _ _ _, .inl trivial⟩⟩
  have hblank : (vol ib d).ino dir = Inode.blank := by rw [vol_ino, if_neg hdir]
  rw [wp_inodeRead_ge hg (by omega)]
  refine ⟨rfl, .inl ⟨rfl, Frame.refl _ _ _, .inl ?_⟩⟩
  rw [hblank]
  decide

/-! ## Removal -/

theorem wp_dirRemoveBlocks (hg : Geometry ib g) (hdir : dir < 4 * ib) (bs : List Nat)
    (hbs : ∀ b ∈ bs, InData ib b) :
    wp 32768 C (dirRemoveBlocks dir n name ticks bs) Q g d ↔
      match bs.findSome? fun b => (findSlot ((vol ib d).blk b) name).map (Prod.mk b) with
      | none => Q false g d
      | some (b, e) =>
        C (d.setBlk b (clearSlot ((vol ib d).blk b) e)) ∧
        C ((d.setBlk b (clearSlot ((vol ib d).blk b) e)).setIno dir (n.stamp (nowSec ticks))) ∧
        Q true g
          ((d.setBlk b (clearSlot ((vol ib d).blk b) e)).setIno dir (n.stamp (nowSec ticks))) := by
  induction bs with
  | nil => rfl
  | cons b bs ih =>
    have hb := hbs b mem_cons_self
    unfold dirRemoveBlocks
    rw [wp_bind, wp_readBlock hg hb.1 hb.2, findSome?_cons]
    cases hf : findSlot ((vol ib d).blk b) name with
    | none =>
      simp only [hf, map_none]
      exact ih fun c hc => hbs c (mem_cons_of_mem _ hc)
    | some e =>
      simp only [hf, map_some]
      rw [wp_bind, wp_writeBlock hg hb.2, if_pos rfl, wp_inodeWrite hg hdir]
      rfl

/-- Directory `dir` has lost an entry named `name`. -/
def DirRemoved (V : Vol) (dir : Nat) (name : List UInt8) (W : Vol) : Prop :=
  ∃ b e, findSlot (V.blk b) name = some e ∧ Edited V dir b (clearSlot (V.blk b) e) W

/-- The entry it has lost is the first with the name. -/
def DirRemovedFirst (V : Vol) (dir : Nat) (name : List UInt8) (W : Vol) : Prop :=
  ∃ b e, (V.blocksOf (V.ino dir)).findSome? (fun b => (findSlot (V.blk b) name).map (Prod.mk b))
      = some (b, e) ∧ Edited V dir b (clearSlot (V.blk b) e) W

theorem findSlot_of_findSome? {b e : Nat}
    (h : bs.findSome? (fun b => (findSlot (V.blk b) name).map (Prod.mk b)) = some (b, e)) :
    b ∈ bs ∧ findSlot (V.blk b) name = some e := by
  obtain ⟨c, hc, hce⟩ := List.exists_of_findSome?_eq_some h
  obtain ⟨e', he', heq⟩ := map_eq_some_iff.mp hce
  obtain ⟨rfl, rfl⟩ := Prod.mk.inj heq
  exact ⟨hc, he'⟩

theorem DirRemovedFirst.removed (h : DirRemovedFirst V dir name W) : DirRemoved V dir name W := by
  obtain ⟨b, e, hs, hedit⟩ := h
  exact ⟨b, e, (findSlot_of_findSome? hs).2, hedit⟩

theorem dirRemove_spec (hg : Geometry ib g) (hdata : ((vol ib d).ino dir).type = nvfsTypeDir →
      ∀ c ∈ (vol ib d).refs ((vol ib d).ino dir), InData ib c) (ticks : Nat) :
    wp 32768 (fun d' => DirRemoved (vol ib d) dir name (vol ib d')) (dirRemove dir name ticks)
      (fun r g' d' => g' = g ∧
        (r = false ∧ d' = d ∧ (((vol ib d).ino dir).type ≠ nvfsTypeDir ∨
            ∀ b ∈ (vol ib d).blocksOf ((vol ib d).ino dir),
              findSlot ((vol ib d).blk b) name = none) ∨
          r = true ∧ ((vol ib d).ino dir).type = nvfsTypeDir ∧
            DirRemovedFirst (vol ib d) dir name (vol ib d'))) g d := by
  unfold dirRemove
  rw [wp_bind]
  by_cases hdir : dir < 4 * ib
  · rw [wp_inodeRead hg hdir]
    by_cases ht : ((vol ib d).ino dir).type = nvfsTypeDir
    · have hdata := hdata ht
      simp only [ht, ne_eq, not_true_eq_false, ↓reduceIte]
      rw [wp_bind, wp_readOnly (readOnly_extentLoadAll _),
        val_extentLoadAll hg fun c hc => hdata c (mem_append_right _ hc)]
      simp only
      rw [wp_dirRemoveBlocks hg hdir (extentBlocks ((vol ib d).extList ((vol ib d).ino dir)))
        fun c hc => hdata c (mem_append_left _ hc)]
      cases hs : (extentBlocks ((vol ib d).extList ((vol ib d).ino dir))).findSome?
          fun b => (findSlot ((vol ib d).blk b) name).map (Prod.mk b) with
      | none =>
        exact ⟨rfl, .inl ⟨rfl, rfl, .inr fun b hb =>
          map_eq_none_iff.mp (List.findSome?_eq_none_iff.mp hs b hb)⟩⟩
      | some be =>
        obtain ⟨c, e'⟩ := be
        obtain ⟨hc, he'⟩ := findSlot_of_findSome? hs
        have hin := hdata c (mem_append_left _ hc)
        have h1 : vol ib (d.setBlk c (clearSlot ((vol ib d).blk c) e'))
            = (vol ib d).setBlk c (clearSlot ((vol ib d).blk c) e') := vol_setBlk hin.1 hin.2 _
        have h2 : vol ib ((d.setBlk c (clearSlot ((vol ib d).blk c) e')).setIno dir
              (((vol ib d).ino dir).stamp (nowSec ticks)))
            = ((vol ib d).setBlk c (clearSlot ((vol ib d).blk c) e')).setIno dir
                (((vol ib d).ino dir).stamp (nowSec ticks)) := by
          rw [vol_setIno hdir, h1, stamp_capExtents,
            capExtents_of_le (vol_count ib d dir)]
        have hremoved : DirRemovedFirst (vol ib d) dir name (vol ib _) :=
          ⟨c, e', hs, hc, .inr ⟨_, h2⟩⟩
        exact ⟨⟨c, e', he', hc, .inl h1⟩, hremoved.removed, rfl, .inr ⟨rfl, trivial, hremoved⟩⟩
    simp only [ne_eq, ht, not_false_eq_true, ↓reduceIte]
    exact ⟨rfl, .inl ⟨rfl, rfl, .inl trivial⟩⟩
  have hblank : (vol ib d).ino dir = Inode.blank := by rw [vol_ino, if_neg hdir]
  rw [wp_inodeRead_ge hg (by omega)]
  refine ⟨rfl, .inl ⟨rfl, rfl, .inl ?_⟩⟩
  rw [hblank]
  decide

end Noverix.Nvfs
