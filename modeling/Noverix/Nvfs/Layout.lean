/-
  The on-disk format of NVFS (kernel/drivers/nvfs.h) and its byte codecs.

  A sector is 512 bytes.  An inode record is 128 bytes, four to a sector; a
  directory entry is 32 bytes, sixteen to a sector; an indirect block is an
  array of 64 extents.  Multi-byte fields are little-endian 32-bit words.
  Record fields have the widths of the C structs, so every record that can be
  written can be stored, and reading it back gives the same record
  (`Inode.load_store_same`, `loadExtent_storeExtents`).
-/

import Noverix.Lib.Word
import Mathlib.Tactic.IntervalCases

namespace Noverix.Nvfs

open Lib

variable {m m' : Mem} {i a p : Nat}

/-! ## Constants of nvfs.h -/

abbrev nvfsSectorSize : Nat := 512
abbrev nvfsInodeSize : Nat := 128
abbrev nvfsDirentSize : Nat := 32
abbrev nvfsMaxExtents : Nat := 14
abbrev nvfsDirectExtents : Nat := 13
abbrev nvfsExtentSize : Nat := 8
abbrev nvfsIndirectEnts : Nat := nvfsSectorSize / nvfsExtentSize
abbrev nvfsIndirectMarker : UInt32 := 0xFFFFFFFF
abbrev nvfsMaxName : Nat := 27
abbrev nvfsRootInode : Nat := 0
abbrev nvfsTypeFile : UInt8 := 1
abbrev nvfsTypeDir : UInt8 := 2

/-- `EXTENT_CACHE_MAX` of nvfs.c. -/
abbrev extentCacheMax : Nat := nvfsDirectExtents + nvfsIndirectEnts

/-- The `NVFS_ERR_*` codes stored in `nvfs_errno`. -/
inductive NvfsErr where
  | notFound
  | notDir
  | notFile
  | dirBusy
  | noSpace
  | noInode
  | exists
  | io
  | noMount
  | path
deriving DecidableEq, Repr

/-- The numeric value of an error code. -/
def NvfsErr.code : NvfsErr → Nat
  | .notFound => 1
  | .notDir => 2
  | .notFile => 3
  | .dirBusy => 4
  | .noSpace => 5
  | .noInode => 6
  | .exists => 7
  | .io => 8
  | .noMount => 9
  | .path => 10

/-! ## Sectors -/

/-- A sector buffer. -/
abbrev Sector := Vector UInt8 nvfsSectorSize

namespace Sector

/-- The bytes of a sector buffer, as memory. -/
def byte (s : Sector) : Mem := fun i => if h : i < nvfsSectorSize then s.get ⟨i, h⟩ else 0

/-- The sector buffer holding the first 512 bytes of a memory. -/
def ofMem (m : Mem) : Sector := Vector.ofFn fun i => m i.val

/-- A buffer of zeros. -/
def zero : Sector := ofMem fun _ => 0

@[simp] theorem byte_ofMem (h : i < 512) : (ofMem m).byte i = m i := by
  unfold byte ofMem
  rw [dif_pos h]
  exact Vector.getElem_ofFn h

@[simp] theorem byte_zero (i : Nat) : zero.byte i = 0 := by
  by_cases h : i < 512
  · exact byte_ofMem h
  · exact dif_neg h

theorem load32_ofMem (h : a + 4 ≤ 512) :
    load32 (ofMem m).byte a = load32 m a :=
  load32_congr fun i _ h2 => byte_ofMem (by omega)

end Sector

/-! ## Extents -/

/-- `struct nvfs_extent`: a run of `count` blocks from `start`. -/
structure Extent where
  start : UInt32
  count : UInt32
deriving DecidableEq, Inhabited, Repr

/-- The zero extent. -/
def Extent.zero : Extent := ⟨0, 0⟩

/-- Read the extent stored at `a`. -/
def loadExtent (m : Mem) (a : Nat) : Extent :=
  ⟨UInt32.ofNat (load32 m a), UInt32.ofNat (load32 m (a + 4))⟩

/-- Store an extent at `a`. -/
def storeExtent (m : Mem) (a : Nat) (e : Extent) : Mem :=
  store32 (store32 m a e.start.toNat) (a + 4) e.count.toNat

/-- Store the first `k` of an array of extents from `a` on. -/
def storeExtents (m : Mem) (a : Nat) (exts : Nat → Extent) : Nat → Mem
  | 0 => m
  | k + 1 => storeExtent (storeExtents m a exts k) (a + k * nvfsExtentSize) (exts k)

theorem ofNat_toNat_mod (v : UInt32) : UInt32.ofNat (v.toNat % 2 ^ 32) = v := by
  rw [mod_eq_of_lt v.toNat_lt, UInt32.ofNat_toNat]

theorem loadExtent_storeExtent_same (m : Mem) (a : Nat) (e : Extent) :
    loadExtent (storeExtent m a e) a = e := by
  unfold loadExtent storeExtent
  rw [load32_store32_same, load32_store32_disjoint _ (by omega), load32_store32_same,
    ofNat_toNat_mod, ofNat_toNat_mod]

theorem loadExtent_shift {b : Nat} (h : ∀ k < 8, m' (a + k) = m (b + k)) :
    loadExtent m' a = loadExtent m b := by
  unfold loadExtent
  rw [load32_shift fun k hk => h k (by omega), load32_shift (a := a + 4) (b := b + 4) fun k hk => by
    rw [Nat.add_assoc, Nat.add_assoc, h (4 + k) (by omega)]]

theorem loadExtent_congr (h : ∀ i, a ≤ i → i < a + 8 → m' i = m i) :
    loadExtent m' a = loadExtent m a :=
  loadExtent_shift fun k hk => h (a + k) (by omega) (by omega)

theorem storeExtent_of_disjoint (m : Mem) (e : Extent)
    (h : i < a ∨ a + 8 ≤ i) : storeExtent m a e i = m i := by
  unfold storeExtent
  rw [store32_of_disjoint _ (by omega), store32_of_disjoint _ (by omega)]

theorem storeExtents_of_disjoint (m : Mem) (exts : Nat → Extent) (k : Nat)
    (h : i < a ∨ a + 8 * k ≤ i) : storeExtents m a exts k i = m i := by
  induction k with
  | zero => rfl
  | succ k ih =>
    unfold storeExtents
    rw [storeExtent_of_disjoint _ _ (by simp only [nvfsExtentSize]; omega), ih (by omega)]

theorem loadExtent_storeExtents (m : Mem) (a : Nat) (exts : Nat → Extent) {k j : Nat}
    (hj : j < k) : loadExtent (storeExtents m a exts k) (a + j * 8) = exts j := by
  induction k with
  | zero => omega
  | succ k ih =>
    unfold storeExtents
    by_cases hjk : j = k
    · subst hjk
      exact loadExtent_storeExtent_same _ _ _
    rw [loadExtent_congr fun i h1 h2 => storeExtent_of_disjoint _ _
      (by simp only [nvfsExtentSize]; omega)]
    exact ih (by omega)

/-! ## Inodes -/

/-- `struct nvfs_inode`. -/
structure Inode where
  size : UInt32
  type : UInt8
  ctime : UInt8 × UInt8 × UInt8
  extentCount : UInt32
  extents : Fin nvfsMaxExtents → Extent
  mtime : UInt32

namespace Inode

/-- `inode->extents[i]`. -/
def ext (ino : Inode) (i : Nat) : Extent :=
  if h : i < nvfsMaxExtents then ino.extents ⟨i, h⟩ else Extent.zero

/-- `inode->extents[i] = e`. -/
def setExt (ino : Inode) (i : Nat) (e : Extent) : Inode :=
  { ino with extents := fun j => if j.val = i then e else ino.extents j }

/-- The record stored at `p`, field by field. -/
def load (m : Mem) (p : Nat) : Inode where
  size := UInt32.ofNat (load32 m p)
  type := m (p + 4)
  ctime := (m (p + 5), m (p + 6), m (p + 7))
  extentCount := UInt32.ofNat (load32 m (p + 8))
  extents := fun i => loadExtent m (p + 12 + i.val * nvfsExtentSize)
  mtime := UInt32.ofNat (load32 m (p + 124))

/-- The cap `inode_read` puts on the extent count of the record it returns. -/
def capExtents (ino : Inode) : Inode :=
  if nvfsMaxExtents < ino.extentCount.toNat then
    { ino with extentCount := UInt32.ofNat nvfsMaxExtents }
  else ino

/-- Store a record at `p`, field by field. -/
def store (m : Mem) (p : Nat) (ino : Inode) : Mem :=
  let m := store32 m p ino.size.toNat
  let m := Function.update m (p + 4) ino.type
  let m := Function.update m (p + 5) ino.ctime.1
  let m := Function.update m (p + 6) ino.ctime.2.1
  let m := Function.update m (p + 7) ino.ctime.2.2
  let m := store32 m (p + 8) ino.extentCount.toNat
  let m := storeExtents m (p + 12) ino.ext nvfsMaxExtents
  store32 m (p + 124) ino.mtime.toNat

theorem store_of_disjoint (m : Mem) (ino : Inode) (h : i < p ∨ p + 128 ≤ i) :
    store m p ino i = m i := by
  unfold store
  rw [store32_of_disjoint _ (by omega),
    storeExtents_of_disjoint _ _ _ (by simp only [nvfsMaxExtents]; omega),
    store32_of_disjoint _ (by omega), update_of_ne (by omega),
    update_of_ne (by omega), update_of_ne (by omega),
    update_of_ne (by omega), store32_of_disjoint _ (by omega)]

theorem load_shift {q : Nat} (h : ∀ k < 128, m' (p + k) = m (q + k)) :
    load m' p = load m q := by
  have hword : ∀ k, k + 4 ≤ 128 → load32 m' (p + k) = load32 m (q + k) := fun k hk =>
    load32_shift fun j hj => by rw [Nat.add_assoc, Nat.add_assoc, h (k + j) (by omega)]
  have hext : ∀ i : Fin nvfsMaxExtents,
      loadExtent m' (p + 12 + i.val * nvfsExtentSize)
        = loadExtent m (q + 12 + i.val * nvfsExtentSize) := by
    intro i
    have hi := i.isLt
    refine loadExtent_shift fun j hj => ?_
    have := h (12 + i.val * nvfsExtentSize + j)
      (by simp only [nvfsExtentSize, nvfsMaxExtents] at *; omega)
    simpa only [Nat.add_assoc] using this
  unfold load
  rw [show load32 m' p = load32 m q from hword 0 (by omega), hword 8 (by omega),
    hword 124 (by omega), h 4 (by omega), h 5 (by omega), h 6 (by omega), h 7 (by omega)]
  simp only [hext]

theorem load_congr (h : ∀ i, p ≤ i → i < p + 128 → m' i = m i) :
    load m' p = load m p := load_shift fun k hk => h (p + k) (by omega) (by omega)

/-- A stored record reads back unchanged. -/
theorem load_store_same (m : Mem) (p : Nat) (ino : Inode) : load (store m p ino) p = ino := by
  have hsize : load32 (store m p ino) p = ino.size.toNat % 2 ^ 32 := by
    unfold store
    rw [load32_store32_disjoint _ (by omega),
      load32_congr fun i h1 h2 => storeExtents_of_disjoint _ _ _ (by omega),
      load32_store32_disjoint _ (by omega),
      load32_congr fun i h1 h2 => update_of_ne (by omega) _ _,
      load32_congr fun i h1 h2 => update_of_ne (by omega) _ _,
      load32_congr fun i h1 h2 => update_of_ne (by omega) _ _,
      load32_congr fun i h1 h2 => update_of_ne (by omega) _ _,
      load32_store32_same]
  have hcount : load32 (store m p ino) (p + 8) = ino.extentCount.toNat % 2 ^ 32 := by
    unfold store
    rw [load32_store32_disjoint _ (by omega),
      load32_congr fun i h1 h2 => storeExtents_of_disjoint _ _ _ (by omega),
      load32_store32_same]
  have hmtime : load32 (store m p ino) (p + 124) = ino.mtime.toNat % 2 ^ 32 := by
    unfold store
    rw [load32_store32_same]
  -- the byte fields sit between the two words and below the extent array
  have hbytes : ∀ i, p + 4 ≤ i → i < p + 8 → store m p ino i =
      update (update (update (update
        (store32 m p ino.size.toNat) (p + 4) ino.type) (p + 5) ino.ctime.1)
        (p + 6) ino.ctime.2.1) (p + 7) ino.ctime.2.2 i := by
    intro i h1 h2
    unfold store
    rw [store32_of_disjoint _ (by omega), storeExtents_of_disjoint _ _ _ (by omega),
      store32_of_disjoint _ (by omega)]
  have hext : ∀ i : Fin nvfsMaxExtents,
      loadExtent (store m p ino) (p + 12 + i.val * nvfsExtentSize) = ino.extents i := by
    intro i
    have hi := i.isLt
    have hlast : loadExtent (store m p ino) (p + 12 + i.val * nvfsExtentSize) =
        loadExtent (storeExtents (store32 (update (update (update
          (update (store32 m p ino.size.toNat) (p + 4) ino.type) (p + 5) ino.ctime.1)
          (p + 6) ino.ctime.2.1) (p + 7) ino.ctime.2.2) (p + 8) ino.extentCount.toNat)
          (p + 12) ino.ext nvfsMaxExtents) (p + 12 + i.val * nvfsExtentSize) :=
      loadExtent_congr fun j h1 h2 => store32_of_disjoint _
        (by simp only [nvfsExtentSize, nvfsMaxExtents] at *; omega)
    rw [hlast, loadExtent_storeExtents _ _ _ hi]
    simp [ext, hi]
  unfold load
  rw [hsize, hcount, hmtime, hbytes (p + 4) (by omega) (by omega),
    hbytes (p + 5) (by omega) (by omega), hbytes (p + 6) (by omega) (by omega),
    hbytes (p + 7) (by omega) (by omega)]
  simp only [hext, ofNat_toNat_mod]
  simp [update]

end Inode

export Sector (byte_ofMem load32_ofMem byte_zero)

export Inode (load_congr load_store_same)

end Noverix.Nvfs
