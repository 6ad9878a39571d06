/-
  Blocks of inodes on a volume: which blocks an inode refers to, who owns them
  (`Owned`), what an update leaves alone (`Frame`), and how ownership survives
  the rewriting of one inode (`Owned.rewrites`).  On top of these, what
  `extent_load_all`, `extent_read` and `extent_write` compute.

  The inode is looked at through the driver's eyes: `inode_read` caps the
  extent count at 14, so an inode has at most 13 direct extents and one
  extent in its indirect block, whatever count is stored.
-/

import Noverix.Nvfs.Bitmap
import Mathlib.Data.List.Range

namespace Noverix.Nvfs

open Lib
open Lib.DiskProg (wp)

variable {V W : Vol} {n : Inode} {P : Inode → Bool}

/-! ## The blocks of an inode -/

/-- Block `b` is a sector of the disk that the inode table has not taken. -/
def InData (ib b : Nat) : Prop := ib ≤ b + 32 ∧ b < 32726

/-- The indirect block of an inode, if it has one. -/
def Inode.indBlks (n : Inode) : List Nat :=
  if nvfsDirectExtents < n.extentCount.toNat then [(n.ext nvfsDirectExtents).start.toNat] else []

/-- The bytes of a sector, in order. -/
def Sector.bytes (s : Sector) : List UInt8 := (List.range nvfsSectorSize).map s.byte

namespace Vol

/-- The extents of an inode, as `extent_load_all` collects them. -/
def extList (V : Vol) (n : Inode) : List Extent :=
  (List.range (min n.extentCount.toNat nvfsDirectExtents)).map n.ext ++
    (List.range (min (n.extentCount.toNat - nvfsDirectExtents) nvfsIndirectEnts)).map
      fun i => loadExtent (V.blk (n.ext nvfsDirectExtents).start.toNat).byte (i * nvfsExtentSize)

/-- The blocks that hold an inode's data, in order. -/
def blocksOf (V : Vol) (n : Inode) : List Nat := extentBlocks (V.extList n)

/-- All blocks an inode refers to. -/
def refs (V : Vol) (n : Inode) : List Nat := V.blocksOf n ++ n.indBlks

/-- The blocks inode `i` refers to, if it is one of those that count (`P`). -/
def holds (P : Inode → Bool) (V : Vol) (i : Nat) : List Nat :=
  if P (V.ino i) then V.refs (V.ino i) else []

/-- The content of a file, up to `max` bytes. -/
def content (V : Vol) (n : Inode) (max : Nat) : List UInt8 :=
  ((V.blocksOf n).flatMap fun b => (V.blk b).bytes).take (min n.size.toNat max)

section

variable (h : ∀ b ∈ n.indBlks, W.blk b = V.blk b)
include h

theorem extList_congr : W.extList n = V.extList n := by
  unfold extList
  by_cases hc : nvfsDirectExtents < n.extentCount.toNat
  · rw [h _ (by unfold Inode.indBlks; rw [if_pos hc]; exact mem_singleton_self _)]
  rw [Nat.sub_eq_zero_of_le (not_lt.mp hc)]
  simp

theorem blocksOf_congr : W.blocksOf n = V.blocksOf n := by
  unfold blocksOf
  rw [extList_congr h]

theorem refs_congr : W.refs n = V.refs n := by
  unfold refs
  rw [blocksOf_congr h]

end

theorem content_congr (h : ∀ b ∈ V.refs n, W.blk b = V.blk b)
    (max : Nat) : W.content n max = V.content n max := by
  have hbytes : ∀ b ∈ V.blocksOf n, (W.blk b).bytes = (V.blk b).bytes := fun b hb => by
    rw [h b (mem_append_left _ hb)]
  unfold content
  rw [blocksOf_congr fun b hb => h b (mem_append_right _ hb), flatMap_congr hbytes]

theorem extList_of_count_zero (h : n.extentCount = 0) :
    V.extList n = [] := by
  unfold extList
  simp [h]

theorem refs_of_count_zero (h : n.extentCount = 0) : V.refs n = [] := by
  unfold refs blocksOf Inode.indBlks
  rw [extList_of_count_zero h]
  simp [h, extentBlocks]

theorem holds_pos {i : Nat} (h : P (V.ino i) = true) :
    V.holds P i = V.refs (V.ino i) := if_pos h

end Vol

/-! ## Ownership -/

/-- Every inode that counts (`P`) refers to marked data blocks, no block is
    referred to twice, and the blocks the inode table has taken are marked. -/
structure Owned (P : Inode → Bool) (ib : Nat) (V : Vol) : Prop where
  inData : ∀ i, ∀ b ∈ V.holds P i, InData ib b
  marked : ∀ i, ∀ b ∈ V.holds P i, V.bit b = true
  nodup : ∀ i, (V.holds P i).Nodup
  disjoint : ∀ i j, i ≠ j → ∀ b ∈ V.holds P i, b ∉ V.holds P j
  table : ∀ b, b + 32 < ib → V.bit b = true

/-- `V'` is `V` except for the blocks `B`, the inodes `I`, and what was free. -/
structure Frame (B I : Set Nat) (V V' : Vol) : Prop where
  sb : V'.sb = V.sb
  ino : ∀ j, j ∉ I → V'.ino j = V.ino j
  bit : ∀ b, V.bit b = true → b ∉ B → V'.bit b = true
  blk : ∀ b, V.bit b = true → b ∉ B → V'.blk b = V.blk b

namespace Frame

variable {B B' I I' : Set Nat} {V V' V'' : Vol}

theorem refl (B I : Set Nat) (V : Vol) : Frame B I V V :=
  ⟨rfl, fun _ _ => rfl, fun _ h _ => h, fun _ _ _ => rfl⟩

theorem mono (h : Frame B I V V') (hB : B ⊆ B') (hI : I ⊆ I') : Frame B' I' V V' :=
  ⟨h.sb, fun j hj => h.ino j fun hj' => hj (hI hj'), fun b hb hb' => h.bit b hb fun hm => hb' (hB hm),
    fun b hb hb' => h.blk b hb fun hm => hb' (hB hm)⟩

theorem trans (h : Frame B I V V') (h' : Frame B I V' V'') : Frame B I V V'' where
  sb := h'.sb.trans h.sb
  ino j hj := (h'.ino j hj).trans (h.ino j hj)
  bit b hb hb' := h'.bit b (h.bit b hb hb') hb'
  blk b hb hb' := (h'.blk b (h.bit b hb hb') hb').trans (h.blk b hb hb')

theorem holds_eq {ib : Nat} (hV : Owned P ib V) (h : Frame B I V V') {j : Nat}
    (hj : j ∉ I) (hB : ∀ b ∈ V.holds P j, b ∉ B) : V'.holds P j = V.holds P j := by
  unfold Vol.holds
  rw [h.ino j hj]
  by_cases hp : P (V.ino j) = true
  · rw [if_pos hp, if_pos hp]
    refine Vol.refs_congr fun b hb => ?_
    have hmem : b ∈ V.holds P j := by
      rw [Vol.holds_pos hp]
      exact mem_append_right _ hb
    exact h.blk b (hV.marked j b hmem) (hB b hmem)
  · rw [if_neg hp, if_neg hp]

end Frame

/-- Inode `i` is rewritten: it gives up blocks, takes free ones, and everything
    else stays. -/
structure Rewrites (P : Inode → Bool) (ib i : Nat) (V V' : Vol) : Prop where
  frame : Frame {b | b ∈ V.holds P i} {i} V V'
  inData : ∀ b ∈ V'.holds P i, InData ib b
  marked : ∀ b ∈ V'.holds P i, V'.bit b = true
  taken : ∀ b ∈ V'.holds P i, V.bit b = false ∨ b ∈ V.holds P i
  nodup : (V'.holds P i).Nodup

namespace Owned

variable {P : Inode → Bool} {ib i : Nat} {V V' : Vol}

/-- A marked block of the data area is outside the inode table; so is a free one. -/
theorem lo_of_free (h : Owned P ib V) {b : Nat} (hb : V.bit b = false) : ib ≤ b + 32 := by
  by_contra hlt
  rw [h.table b (by omega)] at hb
  cases hb

theorem rewrites (h : Owned P ib V) (hr : Rewrites P ib i V V') : Owned P ib V' := by
  have hother : ∀ j ≠ i, V'.holds P j = V.holds P j := fun j hj =>
    hr.frame.holds_eq h hj fun b hb hb' => h.disjoint j i hj b hb hb'
  -- the blocks of another inode are neither free nor among those of `i`
  have hdisj : ∀ j ≠ i, ∀ b ∈ V'.holds P i, b ∉ V.holds P j := by
    intro j hj b hb hb'
    rcases hr.taken b hb with hfree | hmem
    · rw [h.marked j b hb'] at hfree
      cases hfree
    · exact h.disjoint j i hj b hb' hmem
  refine ⟨?_, ?_, ?_, ?_, ?_⟩
  · intro j b hb
    by_cases hj : j = i
    · exact hr.inData b (hj ▸ hb)
    rw [hother j hj] at hb
    exact h.inData j b hb
  · intro j b hb
    by_cases hj : j = i
    · exact hr.marked b (hj ▸ hb)
    rw [hother j hj] at hb
    exact hr.frame.bit b (h.marked j b hb) fun hb' => h.disjoint j i hj b hb hb'
  · intro j
    by_cases hj : j = i
    · rw [hj]
      exact hr.nodup
    rw [hother j hj]
    exact h.nodup j
  · intro j k hjk b hb hb'
    by_cases hj : j = i
    · rw [hj] at hb
      rw [hother k (by omega)] at hb'
      exact hdisj k (by omega) b hb hb'
    rw [hother j hj] at hb
    by_cases hk : k = i
    · rw [hk] at hb'
      exact hdisj j hj b hb' hb
    rw [hother k hk] at hb'
    exact h.disjoint j k hjk b hb hb'
  · intro b hb
    refine hr.frame.bit b (h.table b hb) fun hb' => ?_
    have := (h.inData i b hb').1
    omega

end Owned

namespace Rewrites

variable {P : Inode → Bool} {ib i : Nat} {V V' V'' : Vol}

theorem of_scratch (h : Owned P ib V) (hf : Frame ∅ ∅ V V') : Rewrites P ib i V V' := by
  have hsame : V'.holds P i = V.holds P i :=
    hf.holds_eq h (notMem_empty i) fun b _ => notMem_empty b
  refine ⟨hf.mono (Set.empty_subset _) (Set.empty_subset _), ?_, ?_, ?_, ?_⟩
  · rw [hsame]
    exact h.inData i
  · rw [hsame]
    exact fun b hb => hf.bit b (h.marked i b hb) (notMem_empty b)
  · rw [hsame]
    exact fun b hb => .inr hb
  · rw [hsame]
    exact h.nodup i

end Rewrites

export Vol (refs_of_count_zero holds_pos refs_congr extList_congr)

end Noverix.Nvfs
