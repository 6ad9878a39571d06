/-
  Mounted volumes of any layout whose namespace is a tree (`TreeState`) and
  whose inodes in use hold blocks of their own (`IntactState`).  With the layout
  of mknvfs.py these are the states of `WellFormed`, so that its runs are runs
  through intact states.
-/

import Noverix.Nvfs.TreeRuns
import Noverix.Nvfs.View

namespace Noverix.Nvfs

open Lib

/-- The blocks of every directory are marked. -/
def DirsMarked (V : Vol) : Prop := ∀ i, V.tree.dir i → ∀ b ∈ V.refs (V.ino i), V.bit b = true

/-- Every block of a directory is marked, and no other directory refers to it. -/
structure DirsOwned (V : Vol) : Prop where
  marked : DirsMarked V
  nodup : ∀ i, V.tree.dir i → (V.refs (V.ino i)).Nodup
  disjoint : ∀ i j, V.tree.dir i → V.tree.dir j → i ≠ j →
    ∀ b ∈ V.refs (V.ino i), b ∉ V.refs (V.ino j)

/-- Every block of an inode in use is marked, and referred to once. -/
structure BlocksOwned (V : Vol) : Prop where
  marked : ∀ i, V.tree.live i → ∀ b ∈ V.refs (V.ino i), V.bit b = true
  nodup : ∀ i, V.tree.live i → (V.refs (V.ino i)).Nodup
  disjoint : ∀ i j, V.tree.live i → V.tree.live j → i ≠ j →
    ∀ b ∈ V.refs (V.ino i), b ∉ V.refs (V.ino j)

variable {V : Vol}

theorem BlocksOwned.dirsMarked (h : BlocksOwned V) : DirsMarked V :=
  fun i hi => h.marked i (live_of_dir hi)

/-- A volume is mounted, its namespace is a tree, and the current directory is one. -/
structure TreeState (s : State) : Prop where
  regular : Regular s.g
  shaped : (view s.g s.d).tree.Shaped nvfsRootInode
  cwd : (view s.g s.d).tree.dir s.g.nvfsCwd

/-- The same where the inodes in use hold blocks of their own. -/
structure IntactState (s : State) : Prop extends TreeState s where
  owned : BlocksOwned (view s.g s.d)

theorem Vol.child_of_lookup {p i : Nat} {name : List UInt8} (hdir : V.tree.dir p)
    (h : lookup (V.entries (V.ino p)) name = some i) : V.tree.Child p i := by
  refine ⟨hdir, nameKey name, ?_⟩
  rw [kids_of_dir hdir]
  exact mem_of_lookup h

theorem IntactState.refs_lt {s : State} (h : IntactState s) {i : Nat}
    (hi : (view s.g s.d).tree.live i) :
    ∀ b ∈ (view s.g s.d).refs ((view s.g s.d).ino i), b < bitmapBits s.g :=
  fun b hb => view_bit_lt (h.owned.marked i hi b hb)

/-! ## The layout of mknvfs.py -/

section

variable {g : Globals} {d : Disk}

section

variable (hg : Geometry 32 g)
include hg

theorem Geometry.bitmapBits : bitmapBits g = 32768 := by
  unfold Nvfs.bitmapBits
  rw [hg.bitmapSectors]

theorem Geometry.volumeEnd : volumeEnd g = 32810 := by
  unfold Nvfs.volumeEnd
  rw [hg.bitmapBits, hg.offset, hg.dataStart]

theorem Geometry.regular : Regular g where
  bitmapStart := hg.bitmapStart.ge
  bitmapEnd := by rw [hg.bitmapStart, hg.bitmapSectors, hg.inodeStart]
  inodeEnd := by rw [hg.inodeStart, hg.inodeBlocks, hg.dataStart]
  inodes i hi := by
    rw [hg.inodeCount] at hi
    rw [hg.inodeBlocks]
    simp only [nvfsInodeSize, nvfsSectorSize]
    omega
  used i hi := by
    rw [hg.inodeCount] at hi
    have hmul : u32 (i * nvfsInodeSize) = i * 128 :=
      u32_of_lt (by simp only [nvfsInodeSize]; omega)
    unfold tableSector
    rw [hmul, hg.inodeBlocks]
    simp only [nvfsSectorSize]
    omega
  mounted := hg.mounted
  sectors := by rw [hg.volumeEnd]; decide
  offsets := by rw [hg.inodeCount]; decide

variable {D : Device}

theorem Geometry.covers (hD : ∀ l, D.ok l → l < 32768) : Covers D g := by
  intro l hl hok
  have hlt := hD l hok
  rw [hg.volumeEnd] at hl
  omega

theorem Geometry.view_bit : (view g d).bit = (vol 32 d).bit := by
  funext b
  rw [Nvfs.view_bit, vol_bit, hg.bitmapBits, hg.offset, hg.bitmapStart, Nat.zero_add]

theorem Geometry.view_ino : (view g d).ino = (vol 32 d).ino := by
  funext i
  rw [Nvfs.view_ino, vol_ino, hg.inodeCount, hg.offset, hg.inodeStart, Nat.zero_add]

theorem Geometry.view_blk {b : Nat} (hb : InData 32 b) : (view g d).blk b = (vol 32 d).blk b := by
  have hlt : b < 32768 := by
    have := hb.2
    omega
  rw [Nvfs.view_blk, vol_blk, hg.bitmapBits, if_pos hlt, hg.offset, hg.dataStart, Nat.zero_add]
  exact (if_pos hb).symm

end

end

namespace WellFormed

variable {s : State} {i : Nat}

theorem holds_eq (hi : (vol 32 s.d).tree.live i) :
    (vol 32 s.d).holds Inode.live i = (vol 32 s.d).refs ((vol 32 s.d).ino i) :=
  holds_pos (bne_iff_ne.mpr hi)

theorem view_blk (h : WellFormed s) {i : Nat} (hi : (vol 32 s.d).tree.live i) {b : Nat}
    (hb : b ∈ (vol 32 s.d).refs ((vol 32 s.d).ino i)) :
    (view s.g s.d).blk b = (vol 32 s.d).blk b := by
  rw [← holds_eq hi] at hb
  exact h.geometry.view_blk (h.owned.inData i b hb)

theorem view_refs (h : WellFormed s) (hi : (vol 32 s.d).tree.live i) :
    (view s.g s.d).refs ((view s.g s.d).ino i) = (vol 32 s.d).holds Inode.live i := by
  rw [h.geometry.view_ino, holds_eq hi]
  exact refs_congr fun b hb => h.view_blk hi (mem_append_right _ hb)

theorem view_tree (h : WellFormed s) : (view s.g s.d).tree = (vol 32 s.d).tree :=
  Vol.tree_congr h.geometry.view_ino fun _ hdir =>
    Vol.entries_congr fun _ hb => h.view_blk (live_of_dir hdir) hb

theorem intact (h : WellFormed s) : IntactState s := by
  have htree := h.view_tree
  refine ⟨⟨h.geometry.regular, htree ▸ h.tree.shaped, htree ▸ h.tree.cwd⟩, ?_, ?_, ?_⟩
  · intro i hi b hb
    rw [htree] at hi
    rw [h.view_refs hi] at hb
    rw [h.geometry.view_bit]
    exact h.owned.marked i b hb
  · intro i hi
    rw [htree] at hi
    rw [h.view_refs hi]
    exact h.owned.nodup i
  · intro i j hi hj hne b hb
    rw [htree] at hi hj
    rw [h.view_refs hi] at hb
    rw [h.view_refs hj]
    exact h.owned.disjoint i j hne b hb

end WellFormed

end Noverix.Nvfs
