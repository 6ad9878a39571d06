/-
  How many entries a directory keeps.  A directory that has only been added to
  has one block for each sixteen entries; the first thirteen blocks are in its
  inode, the others in an indirect block that has room for 64.  `inode_read`,
  though, lets no inode count more than fourteen extents, so the fifteenth
  block is written, marked, and never found again: of what was added, all is
  kept as long as there are at most 224 entries, and from then on never again
  (`dir_growth_iff`).
-/

import Mathlib.Data.Finset.Card
import Noverix.Nvfs.DirRoom
import Noverix.Nvfs.TreeOps

namespace Noverix.Nvfs

open Lib
open Lib.DiskProg (must run)

variable {n : Nat} {g : Globals} {dir : Nat}

/-! ## A directory that is only added to -/

/-- Nothing has happened to directory `dir`: its inode and its blocks are as they were, and
    those that were marked still are. -/
structure Apart (V : Vol) (dir : Nat) (W : Vol) : Prop where
  ino : W.ino dir = V.ino dir
  blk : ∀ b ∈ V.refs (V.ino dir), W.blk b = V.blk b
  bit : ∀ b ∈ V.refs (V.ino dir), V.bit b = true → W.bit b = true

/-- On a disk of `n` sectors without faults, directory `dir` was empty, and from then on was
    changed by calls of `dir_add` only, which all returned 0.  They have added the names and
    inodes `es`, in this order, and have marked the blocks `B`.  Other things may have happened
    in between, to the rest of the volume. -/
inductive AddedTo (n : Nat) (g : Globals) (dir : Nat) :
    List (List UInt8 × Nat) → (Nat → Prop) → Disk → Prop where
  | empty {d} : ((view g d).ino dir).type = nvfsTypeDir → ((view g d).ino dir).extentCount = 0 →
      AddedTo n g dir [] (fun _ => False) d
  | add {es B d name child ticks} : AddedTo n g dir es B d → NulFree name → child ≠ 0 →
      child < g.sbInodeCount → val n (dirAdd dir name child ticks) g d = true →
      AddedTo n g dir (es ++ [(name, child)])
        (fun b => B b ∨ (view g d).bit b = false ∧
          (view g (run n (dirAdd dir name child ticks) g d).2.2).bit b = true)
        (run n (dirAdd dir name child ticks) g d).2.2
  | other {es B d d'} : AddedTo n g dir es B d → Apart (view g d) dir (view g d') →
      AddedTo n g dir es B d'

/-- `dir_find` finds every name that was added, with its inode, and every block that was marked
    for the directory is one that its inode refers to. -/
structure KeepsAll (n : Nat) (g : Globals) (dir : Nat) (es : List (List UInt8 × Nat))
    (B : Nat → Prop) (d : Disk) : Prop where
  found : ∀ e ∈ es, val n (dirFind dir e.1) g d = some e.2
  reached : ∀ b, B b → b ∈ (view g d).refs ((view g d).ino dir)

/-! ## What holds of it -/

/-- The directory is one, and its blocks are marked, on the disk, and all different. -/
structure SoundDir (n : Nat) (g : Globals) (dir : Nat) (V : Vol) : Prop where
  type : (V.ino dir).type = nvfsTypeDir
  marked : ∀ b ∈ V.refs (V.ino dir), V.bit b = true
  served : ∀ b ∈ V.refs (V.ino dir), blockSector g b < n
  nodup : (V.refs (V.ino dir)).Nodup

/-- Everything added is there, in as few blocks as possible. -/
structure Complete (n : Nat) (g : Globals) (dir : Nat) (es : List (List UInt8 × Nat))
    (B : Nat → Prop) (V : Vol) : Prop extends SoundDir n g dir V where
  listed : (V.entries (V.ino dir)).Perm (es.map fun e => (nameKey e.1, e.2))
  names : (es.map fun e => nameKey e.1).Nodup
  clean : ∀ e ∈ es, NulFree e.1
  small : ∀ e ∈ es, e.2 < 2 ^ 31
  blocks : (V.blocksOf (V.ino dir)).length = (V.ino dir).extentCount.toNat
  filled : 16 * (V.ino dir).extentCount.toNat < es.length + 16
  reached : ∀ b, B b → b ∈ V.refs (V.ino dir)

/-- All fourteen blocks are full, and something added is out of reach. -/
structure Overrun (n : Nat) (g : Globals) (dir : Nat) (es : List (List UInt8 × Nat))
    (B : Nat → Prop) (V : Vol) : Prop extends SoundDir n g dir V where
  count : (V.ino dir).extentCount.toNat = 14
  full : FullDir V (V.ino dir)
  beyond : 224 < es.length
  unlisted : ∃ e ∈ es, NulFree e.1 ∧ nameKey e.1 ∉ (V.entries (V.ino dir)).map Prod.fst
  lost : ∃ b, B b ∧ b ∉ V.refs (V.ino dir)

section

variable {es : List (List UInt8 × Nat)} {B : Nat → Prop} {V W : Vol}

theorem Apart.refs (h : Apart V dir W) : W.refs (W.ino dir) = V.refs (V.ino dir) := by
  rw [h.ino]
  exact refs_congr fun b hb => h.blk b (mem_append_right _ hb)

theorem Apart.blocksOf (h : Apart V dir W) :
    W.blocksOf (W.ino dir) = V.blocksOf (V.ino dir) := by
  rw [h.ino]
  exact Vol.blocksOf_congr fun b hb => h.blk b (mem_append_right _ hb)

theorem Apart.entries (h : Apart V dir W) : W.entries (W.ino dir) = V.entries (V.ino dir) := by
  rw [h.ino]
  exact Vol.entries_congr h.blk

theorem SoundDir.apart (hV : SoundDir n g dir V) (h : Apart V dir W) : SoundDir n g dir W where
  type := by rw [h.ino, hV.type]
  marked b hb := by
    rw [h.refs] at hb
    exact h.bit b hb (hV.marked b hb)
  served b hb := hV.served b (h.refs ▸ hb)
  nodup := by
    rw [h.refs]
    exact hV.nodup

theorem Complete.apart (hV : Complete n g dir es B V) (h : Apart V dir W) :
    Complete n g dir es B W where
  toSoundDir := hV.toSoundDir.apart h
  listed := by
    rw [h.entries]
    exact hV.listed
  names := hV.names
  clean := hV.clean
  small := hV.small
  blocks := by
    rw [h.blocksOf, h.ino]
    exact hV.blocks
  filled := by
    rw [h.ino]
    exact hV.filled
  reached b hb := by
    rw [h.refs]
    exact hV.reached b hb

theorem Overrun.apart (hV : Overrun n g dir es B V) (h : Apart V dir W) :
    Overrun n g dir es B W where
  toSoundDir := hV.toSoundDir.apart h
  count := by rw [h.ino, hV.count]
  full b hb := by
    rw [h.blocksOf] at hb
    rw [h.blk b (mem_append_left _ hb)]
    exact hV.full b hb
  beyond := hV.beyond
  unlisted := by
    rw [h.entries]
    exact hV.unlisted
  lost := by
    rw [h.refs]
    exact hV.lost

theorem complete_empty (htype : (V.ino dir).type = nvfsTypeDir)
    (hcount : (V.ino dir).extentCount = 0) : Complete n g dir [] (fun _ => False) V := by
  have hexts : V.extList (V.ino dir) = [] := by
    unfold Vol.extList
    rw [hcount]
    rfl
  have hblocks : V.blocksOf (V.ino dir) = [] := by rw [Vol.blocksOf, hexts]; rfl
  have hzero : (V.ino dir).extentCount.toNat = 0 := by rw [hcount]; rfl
  have hrefs : V.refs (V.ino dir) = [] := by
    rw [Vol.refs, hblocks, Inode.indBlks_of_le (by omega)]
    rfl
  refine ⟨⟨htype, ?_, ?_, ?_⟩, ?_, nodup_nil, ?_, ?_, ?_, ?_, fun b hb => hb.elim⟩
  · rw [hrefs]
    exact fun b hb => by cases hb
  · rw [hrefs]
    exact fun b hb => by cases hb
  · rw [hrefs]
    exact nodup_nil
  · rw [Vol.entries, hblocks]
    exact List.Perm.nil
  · exact fun e he => by cases he
  · exact fun e he => by cases he
  · rw [hblocks, hzero]
    rfl
  · rw [hzero]
    decide

/-! ## One more entry -/

/-- A full directory that has all its extents: what it refers to stays as it was. -/
structure Stuck (V : Vol) (dir : Nat) (W : Vol) : Prop where
  type : (W.ino dir).type = (V.ino dir).type
  count : (W.ino dir).extentCount.toNat = 14
  blocks : W.blocksOf (W.ino dir) = V.blocksOf (V.ino dir)
  refs : W.refs (W.ino dir) = V.refs (V.ino dir)
  blk : ∀ b ∈ V.blocksOf (V.ino dir), W.blk b = V.blk b
  bit : ∀ b, V.bit b = true → W.bit b = true

theorem Stuck.entries (h : Stuck V dir W) : W.entries (W.ino dir) = V.entries (V.ino dir) := by
  unfold Vol.entries
  rw [h.blocks]
  exact flatMap_congr fun b hb => by rw [h.blk b hb]

theorem SoundDir.stuck (hV : SoundDir n g dir V) (h : Stuck V dir W) : SoundDir n g dir W where
  type := h.type.trans hV.type
  marked b hb := by
    rw [h.refs] at hb
    exact h.bit b (hV.marked b hb)
  served b hb := hV.served b (h.refs ▸ hb)
  nodup := by
    rw [h.refs]
    exact hV.nodup

/-- A directory that has got one more block, with the one entry `e`: it refers to all blocks
    that were marked for this. -/
structure Gained (V : Vol) (dir : Nat) (e : Entry) (W : Vol) : Prop where
  count : (W.ino dir).extentCount.toNat = (V.ino dir).extentCount.toNat + 1
  blocks : (W.blocksOf (W.ino dir)).length = (V.blocksOf (V.ino dir)).length + 1
  entries : W.entries (W.ino dir) = V.entries (V.ino dir) ++ [e]
  refs : ∀ c ∈ V.refs (V.ino dir), c ∈ W.refs (W.ino dir)
  marks : ∀ c, V.bit c = false → W.bit c = true → c ∈ W.refs (W.ino dir)

theorem Inode.indBlks_nodup (q : Inode) : q.indBlks.Nodup := by
  unfold indBlks
  split <;> simp

section

variable {b : Nat} {n' : Inode} {m : List Note} {t : UInt32} {s : Sector} {Y : Vol}

section

variable (hV : SoundDir n g dir V) (hfree : V.bit b = false)
include hV hfree

variable {c : Nat}

theorem SoundDir.ne_of_free (hc : c ∈ V.refs (V.ino dir)) : c ≠ b := by
  rintro rfl
  rw [hV.marked c hc] at hfree
  cases hfree

theorem SoundDir.refs_taken :
    ((V.markIf b true).setBlk b s).blocksOf (V.ino dir) = V.blocksOf (V.ino dir) ∧
      ((V.markIf b true).setBlk b s).refs (V.ino dir) = V.refs (V.ino dir) := by
  have hblk : ∀ c ∈ (V.ino dir).indBlks, ((V.markIf b true).setBlk b s).blk c = V.blk c := by
    intro c hc
    rw [setBlk_blk, if_neg (hV.ne_of_free hfree (mem_append_right _ hc)), Vol.markIf_blk]
  exact ⟨Vol.blocksOf_congr hblk, refs_congr hblk⟩

theorem SoundDir.blk_grown
    (hext : Extended (Device.sound n) g ((V.markIf b true).setBlk b s) (V.ino dir) b n' m Y)
    (hc : c ∈ V.blocksOf (V.ino dir)) : Y.blk c = V.blk c := by
  have hmem : c ∈ V.refs (V.ino dir) := mem_append_left _ hc
  have hne := hV.ne_of_free hfree hmem
  have hbit : ((V.markIf b true).setBlk b s).bit c = true := by
    rw [setBlk_bit, Vol.markIf_bit, hV.marked c hmem, Bool.true_or]
  have hind : c ∉ (V.ino dir).indBlks := fun hi =>
    (nodup_append.mp hV.nodup).2.2 c hc c hi rfl
  rw [hext.blk hbit hind, setBlk_blk, if_neg hne, Vol.markIf_blk]

end

theorem bit_grown
    (hext : Extended (Device.sound n) g ((V.markIf b true).setBlk b s) (V.ino dir) b n' m Y)
    (c : Nat) : Y.bit c = true ↔ V.bit c = true ∨ c = b ∨ Note.marked c true ∈ m := by
  rw [hext.bit, setBlk_bit, Vol.markIf_bit]
  simp [or_assoc]

/-- With fewer than fourteen extents, the block is found again. -/
theorem SoundDir.gained (hg : Regular g) (hV : SoundDir n g dir V) (hb : b < bitmapBits g)
    (hfree : V.bit b = false) (hok : blockSector g b < n)
    (hext : Extended (Device.sound n) g ((V.markIf b true).setBlk b s) (V.ino dir) b n' m Y)
    (hall : ∀ c ok, Note.marked c ok ∈ m → ok = true) (hc : (V.ino dir).extentCount.toNat ≤ 13)
    {e : Entry} (hs : sectorEntries s = [e]) :
    SoundDir n g dir (Y.setIno dir (n'.capExtents.stamp t)) ∧
      Gained V dir e (Y.setIno dir (n'.capExtents.stamp t)) := by
  have hbits := hg.bits_lt
  obtain ⟨hexts, hinds⟩ := hext.extList_new hg hc
  obtain ⟨hblocks0, hrefs0⟩ := hV.refs_taken (s := s) hfree
  -- the inode that is written, and what it refers to
  have hino : (Y.setIno dir (n'.capExtents.stamp t)).ino dir = n'.capExtents.stamp t := by
    rw [setIno_ino, if_pos rfl]
  have hblocks : (Y.setIno dir (n'.capExtents.stamp t)).blocksOf (n'.capExtents.stamp t)
      = V.blocksOf (V.ino dir) ++ [b] := by
    show Y.blocksOf n'.capExtents = _
    rw [Vol.blocksOf, hexts, extentBlocks_append, extentBlocks_oneBlock (by omega), ← hblocks0]
    rfl
  have hmem : ∀ c, c ∈ (Y.setIno dir (n'.capExtents.stamp t)).refs (n'.capExtents.stamp t) ↔
      c ∈ V.refs (V.ino dir) ∨ c = b ∨ ∃ ok, Note.marked c ok ∈ m := by
    intro c
    rw [← hrefs0]
    exact hext.mem_refs hg hb hc c
  have hmarks : ∀ c, (∃ ok, Note.marked c ok ∈ m) → Note.marked c true ∈ m := by
    rintro c ⟨ok, h⟩
    rwa [hall c ok h] at h
  refine ⟨⟨?_, ?_, ?_, ?_⟩, ⟨?_, ?_, ?_, ?_, ?_⟩⟩
  · rw [hino, stamp_type, hext.type]
    exact hV.type
  · intro c h
    rw [hino, hmem] at h
    refine (bit_grown hext c).mpr (h.imp (hV.marked c) (Or.imp_right (hmarks c)))
  · intro c h
    rw [hino, hmem] at h
    rcases h with h | rfl | ⟨ok, h⟩
    · exact hV.served c h
    · exact hok
    · exact hext.served h
  · rw [hino, Vol.refs, hblocks]
    have hold := (nodup_append.mp hV.nodup).1
    refine nodup_append.mpr ⟨nodup_append.mpr ⟨hold, by simp, ?_⟩,
      Inode.indBlks_nodup _, ?_⟩
    · intro c h1 c' h2
      rw [mem_singleton.mp h2]
      exact hV.ne_of_free hfree (mem_append_left _ h1)
    · -- a new indirect block was free, the others are marked
      rintro c h1 _ h2 rfl
      obtain ⟨ok, hnote⟩ := (hinds c).mp h2
      have hcfree := hext.free hnote
      rw [setBlk_bit, Vol.markIf_bit] at hcfree
      rcases mem_append.mp h1 with h1 | h1
      · rw [hV.marked c (mem_append_left _ h1)] at hcfree
        simp at hcfree
      rw [mem_singleton.mp h1] at hcfree
      simp at hcfree
  · rw [hino]
    exact hext.count_new hc
  · rw [hino, hblocks, length_append, length_singleton]
  · have hself : Y.blk b = s := by
      rw [hext.blk (by rw [setBlk_bit, Vol.markIf_bit]; simp)
        (by rw [Inode.indBlks_of_le hc]; exact not_mem_nil), setBlk_blk, if_pos rfl]
    rw [hino, Vol.entries, hblocks, flatMap_append, flatMap_singleton, setIno_blk,
      hself, hs]
    congr 1
    exact flatMap_congr fun c h => by rw [hV.blk_grown hfree hext h]
  · intro c h
    rw [hino, hmem]
    exact .inl h
  · intro c h0 h1
    rw [hino, hmem]
    rcases (bit_grown hext c).mp h1 with h | h | h
    · rw [h0] at h
      cases h
    · exact .inr (Or.inl h)
    · exact .inr (.inr ⟨true, h⟩)

theorem SoundDir.stuck_grown (hV : SoundDir n g dir V) (hfree : V.bit b = false)
    (hext : Extended (Device.sound n) g ((V.markIf b true).setBlk b s) (V.ino dir) b n' m Y)
    (hc : (V.ino dir).extentCount.toNat = 14) :
    Stuck V dir (Y.setIno dir (n'.capExtents.stamp t)) := by
  obtain ⟨hblocks0, hrefs0⟩ := hV.refs_taken (s := s) hfree
  have hino : (Y.setIno dir (n'.capExtents.stamp t)).ino dir = n'.capExtents.stamp t := by
    rw [setIno_ino, if_pos rfl]
  refine ⟨?_, ?_, ?_, ?_, fun c h => (hV.blk_grown hfree hext h : Y.blk c = _),
    fun c h => (bit_grown hext c).mpr (Or.inl h)⟩
  · rw [hino, stamp_type, hext.type]
  · rw [hino]
    exact hext.count_lost hc
  · rw [hino, ← hblocks0]
    show Y.blocksOf n'.capExtents = _
    rw [Vol.blocksOf, (hext.extList_lost hc).1]
    rfl
  · rw [hino, ← hrefs0]
    exact (hext.refs_lost hc).1

end

variable {name : List UInt8} {child : Nat}

section

variable (hV : Complete n g dir es B V)
include hV

theorem Complete.small_entries : ∀ e ∈ V.entries (V.ino dir), e.2 < 2 ^ 31 := by
  intro e he
  obtain ⟨e', he', rfl⟩ := mem_map.mp (hV.listed.subset he)
  exact hV.small e' he'

theorem Complete.keys :
    ((V.entries (V.ino dir)).map Prod.fst).Perm (es.map fun e => nameKey e.1) := by
  have := hV.listed.map Prod.fst
  rwa [map_map] at this

theorem Complete.length : (V.entries (V.ino dir)).length = es.length := by
  rw [hV.listed.length_eq, length_map]

theorem Complete.length_le (hcap : (V.ino dir).extentCount.toNat ≤ 14) : es.length ≤ 224 := by
  have hle := V.entries_length_le (V.ino dir)
  rw [hV.length, hV.blocks] at hle
  omega

theorem Complete.added {B' : Nat → Prop} (hW : SoundDir n g dir W) (hn : NulFree name)
    (hchild : child < 2 ^ 31) (hnew : lookup (V.entries (V.ino dir)) name = none)
    (hperm : (W.entries (W.ino dir)).Perm ((nameKey name, child) :: V.entries (V.ino dir)))
    (hblocks : (W.blocksOf (W.ino dir)).length = (W.ino dir).extentCount.toNat)
    (hfilled : 16 * (W.ino dir).extentCount.toNat < es.length + 17)
    (hreached : ∀ b, B' b → b ∈ W.refs (W.ino dir)) :
    Complete n g dir (es ++ [(name, child)]) B' W := by
  have hfresh : nameKey name ∉ es.map fun e => nameKey e.1 := fun h =>
    not_mem_of_lookup_none hV.small_entries hnew (hV.keys.mem_iff.mpr h)
  refine ⟨hW, ?_, ?_, ?_, ?_, hblocks, ?_, hreached⟩
  · rw [map_append]
    refine (hperm.trans (hV.listed.cons _)).trans ?_
    exact (List.perm_append_singleton _ _).symm
  · rw [map_append]
    refine ((List.perm_append_singleton _ _).nodup_iff).mpr ?_
    exact nodup_cons.mpr ⟨hfresh, hV.names⟩
  · intro e he
    rcases mem_append.mp he with he | he
    · exact hV.clean e he
    rw [mem_singleton.mp he]
    exact hn
  · intro e he
    rcases mem_append.mp he with he | he
    · exact hV.small e he
    rw [mem_singleton.mp he]
    exact hchild
  · rw [length_append, length_singleton]
    omega

end

variable {t : UInt32} {m : List Note}

/-- A successful `dir_add`, seen from a directory that has all that was added. -/
theorem Complete.step (hg : Regular g) (hV : Complete n g dir es B V)
    (hcap : (V.ino dir).extentCount.toNat ≤ 14) (hn : NulFree name) (h0 : child ≠ 0)
    (hchild : child < 2 ^ 31) (hserved : BitmapServed (Device.sound n) g)
    (hnew : lookup (V.entries (V.ino dir)) name = none)
    (h : Added (Device.sound n) g V dir (direntBytes name child) t true m W) :
    Complete n g dir (es ++ [(name, child)])
        (fun b => B b ∨ V.bit b = false ∧ W.bit b = true) W ∨
      Overrun n g dir (es ++ [(name, child)])
        (fun b => B b ∨ V.bit b = false ∧ W.bit b = true) W := by
  cases h with
  | @slot b e hb he =>
    left
    have hedit : Edited V dir b (putSlot (V.blk b) e (direntBytes name child))
        ((V.setBlk b (putSlot (V.blk b) e (direntBytes name child))).setIno dir
          ((V.ino dir).stamp t)) := ⟨hb, .inr ⟨t, rfl⟩⟩
    obtain ⟨l1, l2, hold, hput⟩ := sectorEntries_putSlot he hn h0 (by omega : child < 2 ^ 32)
    generalize putSlot (V.blk b) e (direntBytes name child) = s at hedit hput ⊢
    have hcount : (((V.setBlk b s).setIno dir ((V.ino dir).stamp t)).ino dir).extentCount
        = (V.ino dir).extentCount := by
      rw [setIno_ino, if_pos rfl]
      rfl
    have hrefs := hedit.refs hV.nodup
    have hperm : (((V.setBlk b s).setIno dir ((V.ino dir).stamp t)).entries
        (((V.setBlk b s).setIno dir ((V.ino dir).stamp t)).ino dir)).Perm
          ((nameKey name, child) :: V.entries (V.ino dir)) := by
      obtain ⟨k1, k2, h1, h2⟩ := hedit.entries hV.nodup
      rw [h1, h2, hold, hput]
      simp only [append_assoc, cons_append]
      rw [← append_assoc, ← append_assoc k1 l1]
      exact perm_middle
    refine hV.added ⟨hedit.type.trans hV.type, ?_, ?_, ?_⟩ hn hchild hnew hperm ?_ ?_ ?_
    · rw [hrefs, hedit.bit]
      exact hV.marked
    · rw [hrefs]
      exact hV.served
    · rw [hrefs]
      exact hV.nodup
    · rw [hedit.blocksOf hV.nodup, hcount]
      exact hV.blocks
    · rw [hcount]
      have := hV.filled
      omega
    · rintro c (hc | ⟨hc, hc'⟩)
      · rw [hrefs]
        exact hV.reached c hc
      · rw [hedit.bit, hc] at hc'
        cases hc'
  | @grown b ok n' m Y hfull hb hfree hok hext hstored =>
    obtain ⟨rfl, hall⟩ := hstored hserved
    have hlen := hfull.entries_length
    rw [hV.length, hV.blocks] at hlen
    by_cases hc : (V.ino dir).extentCount.toNat ≤ 13
    · left
      obtain ⟨hsound, hgain⟩ := hV.toSoundDir.gained (t := t) hg hb hfree hok hext hall hc
        (sectorEntries_putSlot_zero hn h0 (by omega))
      refine hV.added hsound hn hchild hnew ?_ ?_ ?_ ?_
      · rw [hgain.entries]
        exact List.perm_append_singleton _ _
      · rw [hgain.blocks, hgain.count, hV.blocks]
      · rw [hgain.count]
        omega
      · rintro c (h | ⟨h1, h2⟩)
        · exact hgain.refs c (hV.reached c h)
        · exact hgain.marks c h1 h2
    right
    have hc14 : (V.ino dir).extentCount.toNat = 14 := by omega
    have hstuck := hV.toSoundDir.stuck_grown (t := t) hfree hext hc14
    refine ⟨hV.toSoundDir.stuck hstuck, hstuck.count, ?_, ?_, ?_, ?_⟩
    · intro c h
      rw [hstuck.blocks] at h
      rw [hstuck.blk c h]
      exact hfull c h
    · rw [length_append, length_singleton]
      omega
    · refine ⟨(name, child), by simp, hn, ?_⟩
      rw [hstuck.entries]
      exact not_mem_of_lookup_none hV.small_entries hnew
    · refine ⟨b, .inr ⟨hfree, (bit_grown hext b).mpr (.inr (Or.inl rfl))⟩, ?_⟩
      rw [hstuck.refs]
      exact fun h => hV.ne_of_free hfree h rfl

/-- And from one that has lost something: it is not found again. -/
theorem Overrun.step (hV : Overrun n g dir es B V) (hserved : BitmapServed (Device.sound n) g)
    (h : Added (Device.sound n) g V dir (direntBytes name child) t true m W) :
    Overrun n g dir (es ++ [(name, child)])
      (fun b => B b ∨ V.bit b = false ∧ W.bit b = true) W := by
  cases h with
  | slot hb he =>
    rw [hV.full _ hb] at he
    cases he
  | @grown b ok n' m Y hfull hb hfree hok hext hstored =>
    obtain ⟨rfl, -⟩ := hstored hserved
    have hstuck := hV.toSoundDir.stuck_grown (t := t) hfree hext hV.count
    refine ⟨hV.toSoundDir.stuck hstuck, hstuck.count, ?_, ?_, ?_, ?_⟩
    · intro c h
      rw [hstuck.blocks] at h
      rw [hstuck.blk c h]
      exact hfull c h
    · rw [length_append]
      exact hV.beyond.trans_le (Nat.le_add_right _ _)
    · obtain ⟨e, he, hclean, hkey⟩ := hV.unlisted
      exact ⟨e, mem_append_left _ he, hclean, by rwa [hstuck.entries]⟩
    · obtain ⟨c, hc, hout⟩ := hV.lost
      exact ⟨c, .inl hc, by rwa [hstuck.refs]⟩

end

/-! ## Runs -/

section

variable {d : Disk} {es : List (List UInt8 × Nat)} {B : Nat → Prop} {name : List UInt8}

section

variable (hg : Regular g) (hn : g.nvfsOffset + g.sbDataStart ≤ n)
include hg hn

theorem bitmapServed_sound : BitmapServed (Device.sound n) g := by
  intro s hs (hbad : n ≤ _)
  have hbitmap := hg.bitmapEnd
  have hinodes := hg.inodeEnd
  omega

section

variable (hV : SoundDir n g dir (view g d))
include hV

theorem SoundDir.not_unread : ¬ Unread (Device.sound n) g (view g d) dir := by
  have htype : ((view g d).ino dir).type ≠ 0 := by
    rw [hV.type]
    decide
  obtain ⟨hsec, -, hlt⟩ := hg.inode (view_type_lt htype)
  rintro (hbad | ⟨b, hb, hbad⟩)
  · have hle : n ≤ inodeSector g dir := hbad
    omega
  · exact absurd (hV.served b hb) (Nat.not_lt.mpr hbad)

theorem SoundDir.val_dirFind (hname : NulFree name) :
    val n (dirFind dir name) g d = lookup ((view g d).entries ((view g d).ino dir)) name := by
  have hdata : ((view g d).ino dir).type = nvfsTypeDir →
      ∀ b ∈ (view g d).refs ((view g d).ino dir), b < bitmapBits g :=
    fun _ b hb => view_bit_lt (hV.marked b hb)
  have h := must_run (n := n) (must_dirFind (D := Device.sound n) hg hname hdata)
  rcases h with ⟨-, hunread⟩ | h
  · exact absurd hunread (hV.not_unread hg hn)
  · rwa [if_pos hV.type] at h

theorem SoundDir.added (hname : NulFree name) {child ticks : Nat}
    (hret : val n (dirAdd dir name child ticks) g d = true) :
    lookup ((view g d).entries ((view g d).ino dir)) name = none ∧
      ∃ m, Added (Device.sound n) g (view g d) dir (direntBytes name child) (nowSec ticks) true m
        (view g (run n (dirAdd dir name child ticks) g d).2.2) := by
  have hmust := Noted.must_erase (must_dirAdd (D := Device.sound n) hg hname
    (fun _ => hV.marked) child ticks)
  rw [dirAddNoted_erase] at hmust
  obtain ⟨m, -, hadd, hnew⟩ := must_run hmust
  unfold val at hret
  rw [hret] at hadd
  obtain ⟨-, -, hunread | hnew⟩ := hnew hret
  · exact absurd hunread (hV.not_unread hg hn)
  · exact ⟨hnew, m, hadd⟩

end

/-- A directory that is only added to has everything, or has lost something. -/
theorem AddedTo.complete_or_overrun (h : AddedTo n g dir es B d) :
    Complete n g dir es B (view g d) ∨ Overrun n g dir es B (view g d) := by
  have hserved := bitmapServed_sound hg hn
  induction h with
  | empty htype hcount => exact .inl (complete_empty htype hcount)
  | @add es B d name child ticks _ hname h0 hchild hret ih =>
    have hlt := hg.count_lt
    rcases ih with ih | ih
    · obtain ⟨hnew, m, hadd⟩ := ih.toSoundDir.added hg hn hname hret
      exact ih.step hg (view_count dir) hname h0 (by omega) hserved hnew hadd
    obtain ⟨-, m, hadd⟩ := ih.toSoundDir.added hg hn hname hret
    exact .inr (ih.step hserved hadd)
  | other _ hapart ih => exact ih.imp (·.apart hapart) (·.apart hapart)

theorem Complete.keepsAll (hV : Complete n g dir es B (view g d)) : KeepsAll n g dir es B d := by
  refine ⟨fun e he => ?_, hV.reached⟩
  have hnodup := hV.keys.nodup_iff.mpr hV.names
  rw [hV.toSoundDir.val_dirFind hg hn (hV.clean e he),
    lookup_eq_some_iff hnodup hV.small_entries]
  exact hV.listed.symm.subset (mem_map.mpr ⟨e, he, rfl⟩)

theorem Overrun.loses (hV : Overrun n g dir es B (view g d)) :
    (∃ e ∈ es, val n (dirFind dir e.1) g d = none) ∧
      ∃ b, B b ∧ b ∉ (view g d).refs ((view g d).ino dir) := by
  obtain ⟨e, he, hclean, hkey⟩ := hV.unlisted
  refine ⟨⟨e, he, ?_⟩, hV.lost⟩
  rw [hV.toSoundDir.val_dirFind hg hn hclean]
  by_contra hfound
  exact hkey (mem_of_lookup_ne_none hfound)

end

/-- A directory that is only added to keeps everything exactly as long as at most 224 entries,
    which is fourteen blocks, have been added. -/
theorem dir_growth_iff (hg : Regular g) (hn : g.nvfsOffset + g.sbDataStart ≤ n)
    (h : AddedTo n g dir es B d) : KeepsAll n g dir es B d ↔ es.length ≤ 224 := by
  rcases h.complete_or_overrun hg hn with hV | hV
  · exact iff_of_true (hV.keepsAll hg hn) (hV.length_le (view_count dir))
  obtain ⟨-, b, hb, hout⟩ := hV.loses hg hn
  refine iff_of_false (fun hk => hout (hk.reached b hb)) ?_
  exact Nat.not_le.mpr hV.beyond

end

/-! ## Two hundred and twenty-five entries -/

section

variable {D : Device} {d : Disk} {V W : Vol}

/-- A call of `dir_add` marks at most two blocks. -/
theorem Added.marks_two {nd : Mem} {t : UInt32} {m : List Note}
    (h : Added D g V dir nd t true m W) :
    ∃ x y, ∀ b, W.bit b = true → V.bit b = true ∨ b = x ∨ b = y := by
  cases h with
  | slot _ _ => exact ⟨0, 0, fun b hb => .inl hb⟩
  | @grown b ok n' m Y _ _ _ _ hext _ =>
    have hmark : ∀ c, ((V.markIf b ok).setBlk b (putSlot Sector.zero 0 nd)).bit c = true →
        V.bit c = true ∨ c = b := by
      intro c hc
      rw [setBlk_bit, Vol.markIf_bit] at hc
      simp only [Bool.or_eq_true, Bool.and_eq_true, decide_eq_true_eq] at hc
      exact hc.imp_right And.left
    cases hext with
    | direct _ => exact ⟨b, b, fun c hc => (hmark c hc).imp_right Or.inl⟩
    | @indirect ind ok' s _ _ _ _ _ =>
      refine ⟨b, ind, fun c hc => ?_⟩
      by_cases hi : c = ind
      · exact .inr (Or.inr hi)
      refine (hmark c ?_).imp_right Or.inl
      rw [setIno_bit, setBlk_bit] at hc
      cases ok' with
      | false => exact hc
      | true => rwa [if_pos rfl, setBit_bit, if_neg hi] at hc
    | later _ _ => exact ⟨b, b, fun c hc => (hmark c hc).imp_right Or.inl⟩

/-- Two blocks are free as long as fewer than all but one are marked. -/
theorem two_free {N : Nat} {bit : Nat → Bool} {F : Finset Nat} (hF : ∀ b, bit b = true → b ∈ F)
    (hcard : F.card + 2 ≤ N) :
    ∃ b c, b ≠ c ∧ b < N ∧ c < N ∧ bit b = false ∧ bit c = false := by
  have hrest : 1 < (Finset.range N \ F).card := by
    have := Finset.le_card_sdiff F (Finset.range N)
    rw [Finset.card_range] at this
    omega
  obtain ⟨b, hb, c, hc, hne⟩ := Finset.one_lt_card.mp hrest
  have hfree : ∀ x ∈ Finset.range N \ F, x < N ∧ bit x = false := by
    intro x hx
    obtain ⟨h1, h2⟩ := Finset.mem_sdiff.mp hx
    refine ⟨Finset.mem_range.mp h1, ?_⟩
    rw [Bool.eq_false_iff]
    exact fun h => h2 (hF x h)
  exact ⟨b, c, hne, (hfree b hb).1, (hfree c hc).1, (hfree b hb).2, (hfree c hc).2⟩

/-- Up to 225 different names can be added to an empty directory of a volume without files, each
    call returning 0. -/
theorem exists_addedTo (hg : Regular g) (hn : volumeEnd g ≤ n) (hn32 : n ≤ 2 ^ 32)
    (htype : ((view g d).ino dir).type = nvfsTypeDir)
    (hcount : ((view g d).ino dir).extentCount = 0) (hclear : ∀ b, (view g d).bit b = false)
    (name : Nat → List UInt8) (child : Nat → Nat) {k : Nat} (hk : k ≤ 225)
    (hroom : 2 * k + 2 ≤ bitmapBits g) (hclean : ∀ i < k, NulFree (name i))
    (hnames : ∀ i j, i < k → j < k → nameKey (name i) = nameKey (name j) → i = j)
    (hchild : ∀ i < k, child i ≠ 0 ∧ child i < g.sbInodeCount) :
    ∃ B d', AddedTo n g dir ((range k).map fun i => (name i, child i)) B d' ∧
      ∃ F : Finset Nat, F.card ≤ 2 * k ∧ ∀ b, (view g d').bit b = true → b ∈ F := by
  have hdata : g.nvfsOffset + g.sbDataStart ≤ n := by
    unfold volumeEnd at hn
    omega
  induction k with
  | zero =>
    refine ⟨_, d, .empty htype hcount, ∅, by simp, fun b hb => ?_⟩
    rw [hclear b] at hb
    cases hb
  | succ k ih =>
    obtain ⟨B, d1, hrun, F, hcard, hF⟩ := ih (by omega) (by omega)
      (fun i hi => hclean i (by omega)) (fun i j hi hj => hnames i j (by omega) (by omega))
      fun i hi => hchild i (by omega)
    have hlen : ((range k).map fun i => (name i, child i)).length = k := by simp
    -- so far everything is kept, so the new name is not among the entries
    have hV : Complete n g dir ((range k).map fun i => (name i, child i)) B
        (view g d1) := by
      refine (hrun.complete_or_overrun hg hdata).resolve_right fun h => ?_
      have := h.beyond
      omega
    have hnew : lookup ((view g d1).entries ((view g d1).ino dir)) (name k) = none := by
      by_contra hfound
      have hmem := hV.keys.subset (mem_of_lookup_ne_none hfound)
      rw [map_map] at hmem
      obtain ⟨i, hi, heq⟩ := mem_map.mp hmem
      have hik := mem_range.mp hi
      have := hnames i k (by omega) (by omega) heq
      omega
    obtain ⟨b, c, hbc, hb, hc, hbfree, hcfree⟩ :=
      two_free hF (by omega : F.card + 2 ≤ bitmapBits g)
    have hret := dirAdd_succeeds hg hn hn32 hV.type hV.marked (hclean k (by omega)) hnew hbc hb hc
      hbfree hcfree (child k) 0
    obtain ⟨-, m, hadd⟩ := hV.toSoundDir.added hg hdata (hclean k (by omega)) hret
    obtain ⟨x, y, hmarks⟩ := hadd.marks_two
    have hnext := hrun.add (hclean k (by omega)) (hchild k (by omega)).1
      (hchild k (by omega)).2 hret
    rw [range_succ, map_append]
    refine ⟨_, _, hnext, insert x (insert y F), ?_, fun z hz => ?_⟩
    · have h1 := Finset.card_insert_le x (insert y F)
      have h2 := Finset.card_insert_le y F
      omega
    · rcases hmarks z hz with h | h | h
      · exact Finset.mem_insert_of_mem (Finset.mem_insert_of_mem (hF z h))
      · exact h ▸ Finset.mem_insert_self _ _
      · exact Finset.mem_insert_of_mem (h ▸ Finset.mem_insert_self _ _)

end

/-- A superblock with one sector of bitmap and a table of 256 inodes. -/
def wideSuperblock : Sector :=
  let m := store32 (fun i => [78, 86, 70, 83].getD i 0) 16 2
  let m := store32 m 20 1
  let m := store32 m 24 3
  let m := store32 m 28 256
  let m := store32 m 32 67
  Sector.ofMem (store32 m 36 64)

/-- A disk with that superblock, on which only the root inode is in use. -/
def wideDisk : Disk := fun l =>
  if l = 1 then wideSuperblock
  else if l = 3 then Sector.ofMem (Inode.store (fun _ => 0) 0 (freshInode nvfsTypeDir 0))
  else Sector.zero

/-- The disk is as large as the volume. -/
def wideDrives : Drives := fun ch dr => if ch = 0 ∧ dr = 0 then some ⟨4163, wideDisk⟩ else none

def wideGlobals : Globals := ⟨true, 0, 0, 0, 67, 3, 256, 64, 2, 1, 0⟩

theorem nvfsMount_wideDrives : nvfsMount wideDrives bootGlobals = (true, wideGlobals) := by
  have hmagic : hasMagic wideSuperblock = true := by
    unfold hasMagic wideSuperblock
    rw [byte_ofMem (by decide), byte_ofMem (by decide), byte_ofMem (by decide),
      byte_ofMem (by decide)]
    rfl
  have hload : loadSuperblock bootGlobals wideSuperblock
      = { wideGlobals with mounted := false } := by
    unfold loadSuperblock wideSuperblock
    simp only [load32_ofMem (by decide : 16 + 4 ≤ 512),
      load32_ofMem (by decide : 20 + 4 ≤ 512), load32_ofMem (by decide : 24 + 4 ≤ 512),
      load32_ofMem (by decide : 28 + 4 ≤ 512), load32_ofMem (by decide : 32 + 4 ≤ 512),
      load32_ofMem (by decide : 36 + 4 ≤ 512)]
    rfl
  have hok : layoutOk { wideGlobals with mounted := false } = true := by decide
  have hsector : wideDisk 1 = wideSuperblock := if_pos rfl
  unfold nvfsMount mountProbes mountLoop wideDrives
  have hsame : ({ bootGlobals with nvfsCh := 0, nvfsDr := 0, nvfsOffset := 0 } : Globals)
      = bootGlobals := rfl
  simp only [and_self, if_true, answer, Nat.zero_add, Nat.one_lt_ofNat, hsector, hmagic,
    hsame, hload, hok]
  rfl

theorem regular_wideGlobals : Regular wideGlobals := by
  refine ⟨FieldsFit.layoutSound ⟨by decide, by decide, by decide⟩ (by decide), rfl, by decide,
    by decide⟩

theorem wideDisk_view : ((view wideGlobals wideDisk).ino 0).type = nvfsTypeDir ∧
    ((view wideGlobals wideDisk).ino 0).extentCount = 0 ∧
    ∀ b, (view wideGlobals wideDisk).bit b = false := by
  have hino : (view wideGlobals wideDisk).ino 0 = freshInode nvfsTypeDir 0 := by
    rw [view_ino, if_pos (by decide)]
    have hsector : wideDisk (wideGlobals.nvfsOffset + wideGlobals.sbInodeStart + 0 / 4)
        = Sector.ofMem (Inode.store (fun _ => 0) 0 (freshInode nvfsTypeDir 0)) := rfl
    rw [hsector, load_congr fun k _ hk => byte_ofMem (by omega),
      load_store_same]
    rfl
  refine ⟨by rw [hino]; rfl, by rw [hino]; rfl, fun b => ?_⟩
  rw [view_bit]
  by_cases hb : b < bitmapBits wideGlobals
  · have hzero : b / 4096 = 0 := by
      have : bitmapBits wideGlobals = 4096 := rfl
      omega
    have hsector : wideDisk (wideGlobals.nvfsOffset + wideGlobals.sbBitmapStart + 0)
        = Sector.zero := rfl
    rw [if_pos hb, hzero, hsector]
    unfold bitAt
    rw [byte_zero]
    simp
  · rw [if_neg hb]

/-- The names and inodes added: one byte each, for the inodes from 1 on. -/
def wideEntries (k : Nat) : List (List UInt8 × Nat) :=
  (List.range k).map fun i => ([UInt8.ofNat (i + 1)], i + 1)

theorem wideEntries_length (k : Nat) : (wideEntries k).length = k := by
  unfold wideEntries
  rw [length_map, length_range]

theorem exists_wideEntries {k : Nat} (hk : k ≤ 225) :
    ∃ B d, AddedTo 4163 wideGlobals 0 (wideEntries k) B d := by
  have hbits : bitmapBits wideGlobals = 4096 := rfl
  have hsize : UInt8.size = 256 := rfl
  obtain ⟨htype, hcount, hclear⟩ := wideDisk_view
  have hbyte : ∀ i < k, (UInt8.ofNat (i + 1)).toNat = i + 1 := fun i hi =>
    UInt8.toNat_ofNat_of_lt' (by omega)
  have hclean : ∀ i < k, NulFree [UInt8.ofNat (i + 1)] := by
    intro i hi c hc hzero
    rw [mem_singleton.mp hc] at hzero
    have := congrArg UInt8.toNat hzero
    rw [hbyte i hi] at this
    exact absurd this (Nat.succ_ne_zero i)
  have hnames : ∀ i j, i < k → j < k →
      nameKey [UInt8.ofNat (i + 1)] = nameKey [UInt8.ofNat (j + 1)] → i = j := by
    intro i j hi hj heq
    have := congrArg UInt8.toNat (List.cons.inj heq).1
    rw [hbyte i hi, hbyte j hj] at this
    omega
  have hchild : ∀ i < k, i + 1 ≠ 0 ∧ i + 1 < wideGlobals.sbInodeCount := by
    intro i hi
    have : wideGlobals.sbInodeCount = 256 := rfl
    omega
  obtain ⟨B, d, h, -⟩ := exists_addedTo (n := 4163) regular_wideGlobals (by decide) (by decide) htype
    hcount hclear _ _ hk (by omega) hclean hnames hchild
  exact ⟨B, d, h⟩

/-- 224 entries are kept. -/
theorem dir_growth_iff_wide :
    ∃ B d, AddedTo 4163 wideGlobals 0 (wideEntries 224) B d ∧
      KeepsAll 4163 wideGlobals 0 (wideEntries 224) B d := by
  obtain ⟨B, d, h⟩ := exists_wideEntries (k := 224) (by decide)
  refine ⟨B, d, h, (dir_growth_iff regular_wideGlobals (by decide) h).mpr ?_⟩
  rw [wideEntries_length]

/-- 225 are not: the calls have all returned 0, but there is a name that `dir_find` does not find
    and a block that was marked for the directory and is out of reach. -/
theorem dir_add_loses_entry :
    nvfsMount wideDrives bootGlobals = (true, wideGlobals) ∧
      ∃ B d, AddedTo 4163 wideGlobals 0 (wideEntries 225) B d ∧
        (∃ e ∈ wideEntries 225, val 4163 (dirFind 0 e.1) wideGlobals d = none) ∧
        ∃ b, B b ∧ b ∉ (view wideGlobals d).refs ((view wideGlobals d).ino 0) := by
  obtain ⟨B, d, h⟩ := exists_wideEntries (k := 225) (by decide)
  refine ⟨nvfsMount_wideDrives, B, d, h, ?_⟩
  rcases h.complete_or_overrun regular_wideGlobals (by decide) with hV | hV
  · have := hV.length_le (view_count 0)
    rw [wideEntries_length] at this
    omega
  · exact hV.loses regular_wideGlobals (by decide)

end Noverix.Nvfs
