/-
  The volume in an image written by tools/mknvfs.py.  The packing loop hands
  out consecutive blocks and marks them, so the image satisfies block
  ownership; its superblock passes the driver's checks, so mounting it gives
  the geometry that the other modules assume.
-/

import Noverix.Nvfs.Format
import Noverix.Nvfs.Mount
import Noverix.Nvfs.Runs

namespace Noverix.Nvfs.Format

open Lib

variable {t s' : PyBytes} {a b i idx k : Nat} {r name l : List UInt8}
  {upper : List Char → List Char} {st st' : PackState} {file : List Char × List UInt8}
  {run : Nat → Nat × Nat} {files : List (List Char × List UInt8)}

/-! ## Slices of byte arrays -/

namespace PyBytes

variable {s : PyBytes}

theorem assign_of_le (h : a + t.size ≤ s.size) :
    s.assign a (a + t.size) t = ⟨s.size, fun i =>
      if a ≤ i ∧ i < a + t.size then t.get (i - a) else s.get i⟩ := by
  have hlo : min a s.size = a := by omega
  have hhi : max a (min (a + t.size) s.size) = a + t.size := by omega
  unfold assign
  simp only [hlo, hhi, PyBytes.mk.injEq]
  refine ⟨by omega, funext fun i => ?_⟩
  by_cases h1 : i < a
  · rw [if_pos h1, if_neg (by omega)]
  rw [if_neg h1]
  by_cases h2 : i < a + t.size
  · rw [if_pos h2, if_pos (by omega)]
  · rw [if_neg h2, if_neg (by omega), Nat.sub_add_cancel (by omega)]

/-- Assigning data of the slice's length never shortens the array; it lengthens
    the array when the slice leaves it. -/
theorem assign_size :
    s.size ≤ (s.assign a (a + t.size) t).size ∧
      (a + t.size ≤ s.size ∨ t.size = 0 ∨ s.size < (s.assign a (a + t.size) t).size) := by
  unfold assign
  simp only
  omega

variable {n : Nat}

theorem markBits_spec (h : s.markBits b n = some s')
    (hs : s.size = 4096) :
    s'.size = 4096 ∧ b + n ≤ 32768 ∨ n = 0 ∧ s' = s := by
  induction n generalizing s b with
  | zero => exact .inr ⟨rfl, (some.inj h).symm⟩
  | succ n ih =>
    unfold markBits markBit at h
    split at h
    · next hb =>
      rw [bind_eq_bind, bind_some] at h
      rcases ih h hs with ⟨h1, h2⟩ | ⟨rfl, rfl⟩
      · exact .inl ⟨h1, by omega⟩
      · exact .inl ⟨hs, by omega⟩
    · cases h

theorem bitAt_markBits (h : s.markBits b n = some s') (c : Nat) :
    bitAt s'.get c = (bitAt s.get c || decide (b ≤ c ∧ c < b + n)) := by
  induction n generalizing s b with
  | zero =>
    cases h
    rw [decide_eq_false (by omega), Bool.or_false]
  | succ n ih =>
    unfold markBits markBit at h
    split at h
    · rw [bind_eq_bind, bind_some] at h
      rw [ih h, bitAt_putBit]
      by_cases hc : c = b
      · rw [if_pos hc, decide_eq_true (by omega : b ≤ c ∧ c < b + (n + 1)), Bool.or_true,
          Bool.true_or]
      rw [if_neg hc]
      congr 1
      exact decide_eq_decide.mpr (by omega)
    · cases h

end PyBytes

/-! ## Inode records -/

theorem length_packInode (size : Nat) (type : UInt8) (count : Nat) {exts : List UInt8}
    (h : exts.length = 112) : (packInode size type count exts).length = 128 := by
  unfold packInode le32
  simp [h]

theorem length_packExtents (start count : Nat) : (packExtents start count).length = 112 := by
  unfold packExtents le32
  split <;> simp

theorem holdsRun_of_count_zero {n : Inode} (h : n.extentCount = 0) : HoldsRun n.capExtents 0 0 := by
  rw [capExtents_of_le (by rw [h]; decide)]
  exact HoldsRun.of_empty h

/-- The record of a file or of the root holds the run it was packed with. -/
theorem holdsRun_packInode (size : Nat) (type : UInt8) (start count : Nat)
    (h : start + count ≤ 32768) :
    HoldsRun (Inode.load (PyBytes.ofList (packInode size type (if 0 < count then 1 else 0)
      (packExtents start count))).get 0).capExtents (if 0 < count then start else 0) count := by
  by_cases hc : 0 < count
  · rw [if_pos hc, if_pos hc]
    have hcount : (Inode.load (PyBytes.ofList (packInode size type 1
        (packExtents start count))).get 0).extentCount = 1 := rfl
    have hstart : load32 (PyBytes.ofList (packInode size type 1 (packExtents start count))).get 12
        = start % 2 ^ 32 := by
      rw [← wordByte_sum start]
      unfold packExtents
      rw [if_pos hc]
      rfl
    have hlen : load32 (PyBytes.ofList (packInode size type 1 (packExtents start count))).get 16
        = count % 2 ^ 32 := by
      rw [← wordByte_sum count]
      unfold packExtents
      rw [if_pos hc]
      rfl
    rw [capExtents_of_le (by rw [hcount]; decide)]
    refine HoldsRun.of_extent hcount ?_ (by omega)
    show loadExtent _ 12 = _
    unfold loadExtent
    rw [hstart, hlen, mod_eq_of_lt (by omega), mod_eq_of_lt (by omega)]
  rw [if_neg hc, if_neg hc]
  have hcount : (Inode.load (PyBytes.ofList (packInode size type 0
      (packExtents start count))).get 0).extentCount = 0 := rfl
  rw [capExtents_of_le (by rw [hcount]; decide)]
  have hz : count = 0 := by omega
  rw [hz] at hcount ⊢
  exact HoldsRun.of_empty hcount

/-! ## The packing loop -/

/-- What the packing loop keeps: inode `i` holds the run `run i`, runs follow one
    another, and the bitmap marks what has been handed out. -/
structure Packed (st : PackState) (run : Nat → Nat × Nat) : Prop where
  bitmapSize : st.bitmap.size = 4096
  inodesSize : st.inodes.size = 16384
  rootSize : st.rootEntries.size = 512
  diskSize : 32768 * 512 ≤ st.disk.size
  fits : st.disk.size = 32768 * 512 → st.nextFreeBlock ≤ 32726
  pos : 1 ≤ st.nextFreeBlock
  le : st.nextFreeBlock ≤ 32768
  bits : ∀ b, bitAt st.bitmap.get b = decide (b < st.nextFreeBlock)
  holds : ∀ i, i < 128 →
    HoldsRun (Inode.load st.inodes.get (i * 128)).capExtents (run i).1 (run i).2
  inside : ∀ i, (run i).2 ≠ 0 → 1 ≤ (run i).1 ∧ (run i).1 + (run i).2 ≤ st.nextFreeBlock
  apart : ∀ i j, i ≠ j → (run i).2 ≠ 0 → (run j).2 ≠ 0 →
    (run i).1 + (run i).2 ≤ (run j).1 ∨ (run j).1 + (run j).2 ≤ (run i).1
  superblock : ∀ k, k < 1024 → st.disk.get k = blankDisk.get k

theorem size_ofList (l : List UInt8) : (PyBytes.ofList l).size = l.length := rfl

variable {inodes : PyBytes}

theorem load_putRecord (hs : inodes.size = 16384)
    (hr : r.length = 128) {j : Nat} (hi : i < 128) :
    Inode.load (inodes.assign (i * 128) (i * 128 + 128) (PyBytes.ofList r)).get (j * 128)
      = if j = i then Inode.load (PyBytes.ofList r).get 0 else Inode.load inodes.get (j * 128) := by
  have hsize : (PyBytes.ofList r).size = 128 := hr
  have hassign := PyBytes.assign_of_le (s := inodes) (t := PyBytes.ofList r) (a := i * 128)
    (by rw [hsize]; omega)
  rw [hsize] at hassign
  rw [hassign]
  by_cases hj : j = i
  · rw [if_pos hj]
    refine Inode.load_shift fun k hk => ?_
    simp only
    rw [if_pos (by omega), hj, Nat.add_sub_cancel_left, Nat.zero_add]
  rw [if_neg hj]
  refine load_congr fun k h1 h2 => ?_
  simp only
  rw [if_neg (by omega)]

/-- The 32 bytes of the root's entry for file number `idx`. -/
def entryBytes (name : List UInt8) (idx : Nat) : List UInt8 :=
  name ++ List.replicate (28 - name.length) 0 ++ le32 (idx + 1)

theorem length_entryBytes (h : name.length ≤ 27) (idx : Nat) :
    (entryBytes name idx).length = 32 := by
  simp [entryBytes, le32]
  omega

theorem length_encodeAscii {s : List Char} (h : encodeAscii (s.take 27) = some name) :
    name.length ≤ 27 := by
  unfold encodeAscii at h
  split at h
  · cases h
    simp
  · cases h

/-- One round of the packing loop, with the constants written out. -/
theorem packFile_eq_some (h : packFile upper st idx file = some st') :
    ∃ (bitmap : PyBytes) (name : List UInt8), encodeAscii ((upper file.1).take 27) = some name ∧
      idx * 32 + 32 ≤ st.rootEntries.size ∧
      st.bitmap.markBits st.nextFreeBlock ((file.2.length + 511) / 512) = some bitmap ∧
      st' =
        { nextFreeBlock := st.nextFreeBlock + (file.2.length + 511) / 512
          bitmap := bitmap
          inodes := st.inodes.assign ((idx + 1) * 128) ((idx + 1) * 128 + 128)
            (PyBytes.ofList (packInode file.2.length nvfsTypeFile
              (if 0 < (file.2.length + 511) / 512 then 1 else 0)
              (packExtents st.nextFreeBlock ((file.2.length + 511) / 512))))
          rootEntries := st.rootEntries.assign (idx * 32) (idx * 32 + 32)
            (PyBytes.ofList (entryBytes name idx))
          disk := st.disk.assign ((42 + st.nextFreeBlock) * 512)
            ((42 + st.nextFreeBlock) * 512 + file.2.length) (PyBytes.ofList file.2) } := by
  unfold packFile at h
  rw [bind_eq_bind, bind_eq_some_iff] at h
  obtain ⟨name, hname, h⟩ := h
  have hnext : (idx + 1 + 1) * nvfsInodeSize = (idx + 1) * 128 + 128 := by
    simp only [nvfsInodeSize]
    omega
  simp only [hnext] at h
  split at h
  · next hentry =>
    rw [bind_eq_bind, bind_eq_some_iff] at h
    obtain ⟨bitmap, hbitmap, h⟩ := h
    exact ⟨bitmap, name, hname, hentry, hbitmap, (some.inj h).symm⟩
  · cases h

theorem PyBytes.size_assign_ofList {s : PyBytes} {n : Nat} (hl : l.length = n)
    (h : a + n ≤ s.size) : (s.assign a (a + n) (PyBytes.ofList l)).size = s.size := by
  subst hl
  rw [show l.length = (PyBytes.ofList l).size from rfl, PyBytes.assign_of_le h]

theorem Packed.packFile (h : Packed st run) (hidx : idx < 127)
    (hpack : Format.packFile upper st idx file = some st') : ∃ run', Packed st' run' := by
  obtain ⟨bitmap, name, hname, hroom, hbitmap, rfl⟩ := packFile_eq_some hpack
  have hentry := length_entryBytes (length_encodeAscii hname) idx
  have hnumBlocks : file.2.length ≤ (file.2.length + 511) / 512 * 512 ∧
      (file.2.length + 511) / 512 * 512 < file.2.length + 512 := by omega
  generalize (file.2.length + 511) / 512 = n at *
  have hrec := length_packInode file.2.length nvfsTypeFile (if 0 < n then 1 else 0)
    (length_packExtents st.nextFreeBlock n)
  have hload := fun j => load_putRecord (j := j) h.inodesSize hrec (by omega : idx + 1 < 128)
  have hmark : bitmap.size = 4096 ∧ st.nextFreeBlock + n ≤ 32768 := by
    rcases PyBytes.markBits_spec hbitmap h.bitmapSize with hm | ⟨hz, hsame⟩
    · exact hm
    rw [hsame, hz]
    exact ⟨h.bitmapSize, h.le⟩
  have hdisk := PyBytes.assign_size (s := st.disk) (t := PyBytes.ofList file.2)
    (a := (42 + st.nextFreeBlock) * 512)
  rw [size_ofList] at hdisk
  have hds := h.diskSize
  have hpos := h.pos
  obtain ⟨run', hnew, hold⟩ : ∃ run' : Nat → Nat × Nat,
      run' (idx + 1) = (if 0 < n then st.nextFreeBlock else 0, n) ∧
      ∀ i ≠ idx + 1, run' i = run i :=
    ⟨fun i => if i = idx + 1 then (if 0 < n then st.nextFreeBlock else 0, n) else run i,
      if_pos rfl, fun i hi => if_neg hi⟩
  have hfresh : (run' (idx + 1)).2 ≠ 0 → (run' (idx + 1)).1 = st.nextFreeBlock ∧
      (run' (idx + 1)).2 = n := by
    rw [hnew]
    intro hne
    exact ⟨if_pos (Nat.pos_of_ne_zero hne), rfl⟩
  refine ⟨run',
    { bitmapSize := hmark.1
      inodesSize := ?_
      rootSize := ?_
      diskSize := Nat.le_trans hds hdisk.1
      fits := ?_
      pos := by simp only; omega
      le := hmark.2
      bits := ?_
      holds := ?_
      inside := ?_
      apart := ?_
      superblock := ?_ }⟩
  · simp only
    rw [PyBytes.size_assign_ofList hrec (by rw [h.inodesSize]; omega), h.inodesSize]
  · simp only
    rw [PyBytes.size_assign_ofList hentry hroom, h.rootSize]
  · -- the disk has its size still, so the file fitted
    intro heq
    simp only at heq ⊢
    have hle := h.fits (by omega)
    rcases hdisk.2 with hin | hz | hgrow <;> omega
  · intro b
    simp only
    rw [PyBytes.bitAt_markBits hbitmap, h.bits]
    by_cases hb : b < st.nextFreeBlock
    · rw [decide_eq_true hb, Bool.true_or, decide_eq_true (by omega)]
    rw [decide_eq_false hb, Bool.false_or]
    exact decide_eq_decide.mpr (by omega)
  · intro i hi
    simp only
    rw [hload i]
    by_cases hii : i = idx + 1
    · rw [if_pos hii, hii, hnew]
      exact holdsRun_packInode _ _ _ _ hmark.2
    rw [if_neg hii, hold i hii]
    exact h.holds i hi
  · intro i hi
    simp only
    by_cases hii : i = idx + 1
    · subst hii
      obtain ⟨h1, h2⟩ := hfresh hi
      omega
    rw [hold i hii] at hi ⊢
    have := h.inside i hi
    omega
  · -- the new run starts where all others end
    intro i j hij hi hj
    by_cases hii : i = idx + 1
    · subst hii
      obtain ⟨h1, h2⟩ := hfresh hi
      rw [hold j hij.symm] at hj ⊢
      have := h.inside j hj
      omega
    rw [hold i hii] at hi ⊢
    by_cases hjj : j = idx + 1
    · subst hjj
      obtain ⟨h1, h2⟩ := hfresh hj
      have := h.inside i hi
      omega
    rw [hold j hjj] at hj ⊢
    exact h.apart i j hij hi hj
  · intro k hk
    rw [← h.superblock k hk]
    unfold PyBytes.assign
    simp only
    rw [if_pos (by omega)]

theorem Packed.packFiles (h : Packed st run)
    (hpack : Format.packFiles upper idx files st = some st') : ∃ run', Packed st' run' := by
  induction files generalizing st idx run with
  | nil =>
    cases hpack
    exact ⟨run, h⟩
  | cons file files ih =>
    unfold Format.packFiles at hpack
    split at hpack
    · cases hpack
      exact ⟨run, h⟩
    next hidx =>
    obtain ⟨st1, h1, h2⟩ := bind_eq_some_iff.mp hpack
    obtain ⟨run1, hrun1⟩ := h.packFile (by simp only [inodeCount] at hidx; omega) h1
    exact ih hrun1 h2

/-! ## The finished image -/

theorem finish_spec (disk bitmap : PyBytes) (hd : 32768 * 512 ≤ disk.size)
    (hb : bitmap.size = 4096) (hi : inodes.size = 16384) :
    (finish disk bitmap inodes).size = disk.size ∧
      ∀ k, (finish disk bitmap inodes).get k =
        if 5120 ≤ k ∧ k < 21504 then inodes.get (k - 5120)
        else if 1024 ≤ k ∧ k < 5120 then bitmap.get (k - 1024) else disk.get k := by
  have h1 := PyBytes.assign_of_le (s := disk) (t := bitmap) (a := 1024) (by omega)
  have h2 := PyBytes.assign_of_le (s := disk.assign 1024 (1024 + bitmap.size) bitmap) (t := inodes)
    (a := 5120) (by rw [h1]; simp only; omega)
  have heq : finish disk bitmap inodes
      = (disk.assign 1024 (1024 + bitmap.size) bitmap).assign 5120 (5120 + inodes.size) inodes := by
    rw [hb, hi]
    rfl
  rw [heq, h2, h1, hb, hi]
  exact ⟨rfl, fun k => rfl⟩

theorem putRoot_spec (inodes : PyBytes) (hs : inodes.size = 16384)
    (hr : r.length = 128) :
    (putRoot inodes r).size = 16384 ∧ ∀ j, Inode.load (putRoot inodes r).get (j * 128)
      = if j = 0 then Inode.load (PyBytes.ofList r).get 0 else Inode.load inodes.get (j * 128) := by
  have hload := fun j => load_putRecord (i := 0) (j := j) hs hr (by decide)
  have hsize := PyBytes.size_assign_ofList (s := inodes) (a := 0) hr (by omega)
  exact ⟨hsize.trans hs, hload⟩

/-- The parts of an image: bitmap, inode table with a run for each inode, and the
    superblock. -/
structure IsImage (img bitmap inodes : PyBytes) (run : Nat → Nat × Nat) : Prop where
  get : ∀ k, 1024 ≤ k → k < 21504 →
    img.get k = if k < 5120 then bitmap.get (k - 1024) else inodes.get (k - 5120)
  superblock : ∀ k, k < 512 → img.get (512 + k) = superblock.getD k 0
  holds : ∀ i, i < 128 →
    HoldsRun (Inode.load inodes.get (i * 128)).capExtents (run i).1 (run i).2
  marked : ∀ i b, (run i).1 ≤ b → b < (run i).1 + (run i).2 → b < 32726 ∧ bitAt bitmap.get b = true
  apart : ∀ i j, i ≠ j → ∀ b, (run i).1 ≤ b → b < (run i).1 + (run i).2 →
    ¬ ((run j).1 ≤ b ∧ b < (run j).1 + (run j).2)

theorem length_superblock : superblock.length = 516 := by
  simp only [superblock, le32, length_append, length_cons, length_nil,
    List.length_replicate]

/-- The record for the superblock is longer than its sector; what is past it is
    overwritten by the bitmap. -/
theorem zeros_putSuperblock (hl : l.length = 516) :
    (PyBytes.zeros (32768 * 512)).assign 512 (512 + l.length) (PyBytes.ofList l)
      = ⟨32768 * 512, fun i => if 512 ≤ i ∧ i < 512 + 516 then l.getD (i - 512) 0 else 0⟩ := by
  have hfits : 512 + (PyBytes.ofList l).size ≤ (PyBytes.zeros (32768 * 512)).size := by
    rw [size_ofList, hl]
    show 512 + 516 ≤ 32768 * 512
    omega
  have h := PyBytes.assign_of_le hfits
  rw [size_ofList] at h
  rw [h, hl]
  rfl

theorem blankDisk_eq : blankDisk = ⟨32768 * 512, fun i =>
    if 512 ≤ i ∧ i < 512 + 516 then superblock.getD (i - 512) 0 else 0⟩ := by
  have h := zeros_putSuperblock length_superblock
  unfold blankDisk
  simp only [superblockSector, nvfsSectorSize, Nat.one_mul]
  exact h

theorem blankDisk_superblock (hk : k < 512) :
    blankDisk.get (512 + k) = superblock.getD k 0 := by
  rw [blankDisk_eq]
  simp only
  rw [if_pos (by omega), Nat.add_sub_cancel_left]

/-- The inode table of an image without files. -/
def emptyInodes : PyBytes :=
  putRoot (PyBytes.zeros (inodeSectors * nvfsSectorSize))
    (packInode 0 nvfsTypeDir 0 (List.replicate 112 0))

/-- The image that `create` writes when there are no files. -/
def emptyImage : PyBytes :=
  finish blankDisk (PyBytes.zeros (bitmapSectorCount * nvfsSectorSize)) emptyInodes

theorem emptyInodes_spec : emptyInodes.size = 16384 ∧ ∀ i, Inode.load emptyInodes.get (i * 128)
    = if i = 0 then Inode.load (PyBytes.ofList (packInode 0 nvfsTypeDir 0
        (replicate 112 0))).get 0
      else Inode.load (PyBytes.zeros (inodeSectors * nvfsSectorSize)).get (i * 128) :=
  putRoot_spec (PyBytes.zeros (inodeSectors * nvfsSectorSize)) rfl
    (length_packInode 0 nvfsTypeDir 0 List.length_replicate)

theorem emptyImage_spec : emptyImage.size = 32768 * 512 ∧ ∀ k, emptyImage.get k =
    if 5120 ≤ k ∧ k < 21504 then emptyInodes.get (k - 5120)
    else if 1024 ≤ k ∧ k < 5120 then 0 else blankDisk.get k := by
  have hblank : blankDisk.size = 32768 * 512 := by rw [blankDisk_eq]
  have hfin := finish_spec blankDisk
    (PyBytes.zeros (bitmapSectorCount * nvfsSectorSize)) (Nat.le_of_eq hblank.symm) rfl
    emptyInodes_spec.1
  exact ⟨hfin.1.trans hblank, hfin.2⟩

theorem isImage_empty : IsImage emptyImage (PyBytes.zeros (bitmapSectorCount * nvfsSectorSize))
    emptyInodes fun _ => (0, 0) := by
  refine ⟨fun k h1 h2 => ?_, fun k hk => ?_, fun i hi => ?_, fun i b h1 h2 => by simp at h2,
    fun i j _ b h1 h2 => by simp at h2⟩
  · rw [emptyImage_spec.2]
    by_cases hk : k < 5120
    · rw [if_pos hk, if_neg (by omega), if_pos (by omega)]
      rfl
    · rw [if_neg hk, if_pos (by omega)]
  · rw [emptyImage_spec.2, if_neg (by omega), if_neg (by omega), blankDisk_superblock hk]
  · rw [emptyInodes_spec.2]
    by_cases h0 : i = 0
    · rw [if_pos h0]
      exact holdsRun_of_count_zero rfl
    rw [if_neg h0]
    exact holdsRun_of_count_zero rfl

theorem packed_start {bitmap : PyBytes}
    (h : (PyBytes.zeros (bitmapSectorCount * nvfsSectorSize)).markBit 0 = some bitmap) :
    Packed ⟨1, bitmap, PyBytes.zeros (inodeSectors * nvfsSectorSize), PyBytes.zeros nvfsSectorSize,
      blankDisk⟩ fun _ => (0, 0) := by
  unfold PyBytes.markBit at h
  rw [if_pos (by decide)] at h
  cases h
  exact
    { bitmapSize := rfl
      inodesSize := rfl
      rootSize := rfl
      diskSize := by rw [blankDisk_eq]
      fits := fun _ => by simp only; omega
      pos := le_rfl
      le := by simp only; omega
      bits := fun b => by
        simp only
        rw [bitAt_putBit]
        by_cases hb : b = 0
        · rw [if_pos hb, decide_eq_true (by omega)]
        rw [if_neg hb, decide_eq_false (by omega)]
        unfold bitAt PyBytes.zeros
        simp
      holds := fun i _ => holdsRun_of_count_zero rfl
      inside := fun i hi => absurd rfl hi
      apart := fun i j _ hi => absurd rfl hi
      superblock := fun k _ => rfl }

/-- The inode table that `create` writes when the files are packed. -/
def packedInodes (st : PackState) : PyBytes :=
  putRoot st.inodes (packInode 512 nvfsTypeDir 1 (packExtents 0 1))

/-- The image that `create` writes when the files are packed. -/
def packedImage (st : PackState) : PyBytes :=
  finish (st.disk.assign (dataStart * nvfsSectorSize) ((dataStart + 1) * nvfsSectorSize)
    st.rootEntries) st.bitmap (packedInodes st)

theorem Packed.inodes_spec (h : Packed st run) :
    (packedInodes st).size = 16384 ∧ ∀ j, Inode.load (packedInodes st).get (j * 128)
      = if j = 0 then Inode.load (PyBytes.ofList (packInode 512 nvfsTypeDir 1
          (packExtents 0 1))).get 0
        else Inode.load st.inodes.get (j * 128) :=
  putRoot_spec st.inodes h.inodesSize
    (length_packInode 512 nvfsTypeDir 1 (length_packExtents 0 1))

theorem Packed.image_spec (h : Packed st run) :
    (packedImage st).size = st.disk.size ∧ ∀ k, (packedImage st).get k =
      if 5120 ≤ k ∧ k < 21504 then (packedInodes st).get (k - 5120)
      else if 1024 ≤ k ∧ k < 5120 then st.bitmap.get (k - 1024)
      else if 21504 ≤ k ∧ k < 22016 then st.rootEntries.get (k - 21504) else st.disk.get k := by
  have hds := h.diskSize
  have hrs := h.rootSize
  have hdisk := PyBytes.assign_of_le (s := st.disk) (t := st.rootEntries) (a := 21504) (by omega)
  rw [hrs] at hdisk
  have hfin := finish_spec (st.disk.assign 21504 (21504 + 512) st.rootEntries) st.bitmap
    (by rw [hdisk]; exact hds) h.bitmapSize h.inodes_spec.1
  rw [hdisk] at hfin
  have himg : packedImage st = finish ⟨st.disk.size, fun i =>
      if 21504 ≤ i ∧ i < 21504 + 512 then st.rootEntries.get (i - 21504) else st.disk.get i⟩
      st.bitmap (packedInodes st) := by
    rw [← hdisk]
    rfl
  rw [himg]
  exact hfin

theorem Packed.isImage (h : Packed st run)
    (hsize : (packedImage st).size = 32768 * 512) :
    ∃ run', IsImage (packedImage st) st.bitmap (packedInodes st) run' := by
  have himg := h.image_spec
  have hfits := h.fits (himg.1.symm.trans hsize)
  have hpos := h.pos
  obtain ⟨run', hnew, hold⟩ : ∃ run' : Nat → Nat × Nat,
      run' 0 = (0, 1) ∧ ∀ i ≠ 0, run' i = run i :=
    ⟨fun i => if i = 0 then (0, 1) else run i, if_pos rfl, fun i hi => if_neg hi⟩
  refine ⟨run', ⟨fun k h1 h2 => ?_, fun k hk => ?_, fun i hi => ?_, fun i b h1 h2 => ?_,
    fun i j hij b h1 h2 h3 => ?_⟩⟩
  · rw [himg.2]
    by_cases hk : k < 5120
    · rw [if_pos hk, if_neg (by omega), if_pos (by omega)]
    · rw [if_neg hk, if_pos (by omega)]
  · rw [himg.2, if_neg (by omega), if_neg (by omega), if_neg (by omega),
      h.superblock _ (by omega), blankDisk_superblock hk]
  · rw [h.inodes_spec.2]
    by_cases h0 : i = 0
    · rw [if_pos h0, h0, hnew]
      exact holdsRun_packInode 512 nvfsTypeDir 0 1 (by omega)
    rw [if_neg h0, hold i h0]
    exact h.holds i hi
  · rw [h.bits]
    by_cases h0 : i = 0
    · rw [h0, hnew] at h1 h2
      exact ⟨by omega, decide_eq_true (by omega)⟩
    rw [hold i h0] at h1 h2
    have := h.inside i (by omega)
    exact ⟨by omega, decide_eq_true (by omega)⟩
  · by_cases h0 : i = 0
    · rw [h0, hnew] at h1 h2
      rw [hold j (by omega)] at h3
      have := h.inside j (by omega)
      omega
    rw [hold i h0] at h1 h2
    have hi := h.inside i (by omega)
    by_cases hj : j = 0
    · rw [hj, hnew] at h3
      omega
    rw [hold j hj] at h3
    have := h.apart i j hij (by omega) (by omega)
    omega

theorem isImage_of_create {img : PyBytes} (h : create upper files = some img)
    (hsize : img.size = 32768 * 512) :
    ∃ bitmap inodes run, IsImage img bitmap inodes run := by
  unfold create at h
  simp only at h
  by_cases hf : files = []
  · rw [if_pos hf] at h
    obtain rfl := some.inj h
    exact ⟨_, _, _, isImage_empty⟩
  rw [if_neg hf] at h
  obtain ⟨bitmap, hb, h⟩ := bind_eq_some_iff.mp h
  obtain ⟨st, hst, h⟩ := bind_eq_some_iff.mp h
  obtain rfl := some.inj h
  obtain ⟨run, hrun⟩ := (packed_start hb).packFiles hst
  obtain ⟨run', himage⟩ := hrun.isImage hsize
  exact ⟨st.bitmap, packedInodes st, run', himage⟩

/-! ## The volume on the image -/

namespace IsImage

variable {img bitmap inodes : PyBytes} {run : Nat → Nat × Nat}

theorem byte_imageDisk (img : PyBytes) {lba : Nat} (hk : k < 512) :
    (imageDisk img lba).byte k = img.get (lba * 512 + k) := byte_ofMem hk

section

variable (h : IsImage img bitmap inodes run)
include h

theorem vol_bit (hb : b < 32768) : (vol 32 (imageDisk img)).bit b = bitAt bitmap.get b := by
  rw [Nvfs.vol_bit, if_pos hb]
  unfold bitAt
  have hmod : b % 4096 % 8 = b % 8 := Nat.mod_mod_of_dvd b (by decide)
  rw [byte_imageDisk img (by omega), h.get _ (by omega) (by omega), if_pos (by omega), hmod]
  have hidx : (2 + b / 4096) * 512 + b % 4096 / 8 - 1024 = b / 8 := by omega
  rw [hidx]

theorem vol_ino (hi : i < 128) :
    (vol 32 (imageDisk img)).ino i = (Inode.load inodes.get (i * 128)).capExtents := by
  rw [Nvfs.vol_ino, if_pos (by omega)]
  congr 1
  refine Inode.load_shift fun k hk => ?_
  rw [byte_imageDisk img (by omega), h.get _ (by omega) (by omega), if_neg (by omega)]
  have hidx : (10 + i / 4) * 512 + (i % 4 * 128 + k) - 5120 = i * 128 + k := by omega
  rw [hidx]

theorem holds_run (hb : b ∈ (vol 32 (imageDisk img)).holds anyInode i) :
    i < 128 ∧ (run i).1 ≤ b ∧ b < (run i).1 + (run i).2 := by
  rw [holds_pos rfl] at hb
  by_cases hi : i < 128
  · rw [h.vol_ino hi, (h.holds i hi).refs, mem_range'_1] at hb
    exact ⟨hi, hb⟩
  rw [Nvfs.vol_ino, if_neg (by omega), refs_of_count_zero rfl] at hb
  cases hb

theorem owned : Owned anyInode 32 (vol 32 (imageDisk img)) where
  inData i b hb := by
    obtain ⟨_, h1, h2⟩ := h.holds_run hb
    exact ⟨by omega, (h.marked i b h1 h2).1⟩
  marked i b hb := by
    obtain ⟨_, h1, h2⟩ := h.holds_run hb
    have hm := h.marked i b h1 h2
    rw [h.vol_bit (by omega)]
    exact hm.2
  nodup i := by
    rw [holds_pos rfl]
    by_cases hi : i < 128
    · rw [h.vol_ino hi, (h.holds i hi).refs]
      exact nodup_range'
    rw [Nvfs.vol_ino, if_neg (by omega), refs_of_count_zero rfl]
    exact nodup_nil
  disjoint i j hij b hb hb' := by
    obtain ⟨_, h1, h2⟩ := h.holds_run hb
    obtain ⟨_, h3⟩ := h.holds_run hb'
    exact h.apart i j hij b h1 h2 h3
  table b hb := by omega

end

end IsImage

/-- In an image without files the root is an empty directory and all else is free. -/
theorem emptyImage_vol :
    (∀ b, (vol 32 (imageDisk emptyImage)).bit b = false) ∧
      ((vol 32 (imageDisk emptyImage)).ino 0).type = nvfsTypeDir ∧
      (∀ i, ((vol 32 (imageDisk emptyImage)).ino i).extentCount = 0) ∧
      ∀ i ≠ 0, ((vol 32 (imageDisk emptyImage)).ino i).type = 0 := by
  have hino : ∀ i < 128, (vol 32 (imageDisk emptyImage)).ino i = if i = 0 then
      (Inode.load (PyBytes.ofList (packInode 0 nvfsTypeDir 0 (replicate 112 0))).get 0).capExtents
      else (Inode.load (PyBytes.zeros (inodeSectors * nvfsSectorSize)).get (i * 128)).capExtents := by
    intro i hi
    rw [isImage_empty.vol_ino hi, emptyInodes_spec.2]
    split <;> rfl
  have hout : ∀ i, 128 ≤ i → (vol 32 (imageDisk emptyImage)).ino i = Inode.blank := fun i hi => by
    rw [Nvfs.vol_ino, if_neg (by omega)]
  refine ⟨fun b => ?_, ?_, fun i => ?_, fun i h0 => ?_⟩
  · by_cases hb : b < 32768
    · rw [isImage_empty.vol_bit hb]
      unfold bitAt PyBytes.zeros
      simp
    · rw [Nvfs.vol_bit, if_neg hb]
  · rw [hino 0 (by decide), if_pos rfl]
    rfl
  · by_cases hi : i < 128
    · rw [hino i hi]
      split <;> rfl
    rw [hout i (by omega)]
    rfl
  · by_cases hi : i < 128
    · rw [hino i hi, if_neg h0]
      rfl
    rw [hout i (by omega)]
    rfl

end Noverix.Nvfs.Format

namespace Noverix.Nvfs

open Lib

/-! ## Mounting -/

/-- A superblock of the layout that mknvfs.py writes, with `ib` sectors of inodes. -/
structure IsSuperblock (ib : Nat) (s : Sector) : Prop where
  magic : hasMagic s = true
  bitmapStart : load32 s.byte 16 = 2
  bitmapSectors : load32 s.byte 20 = 8
  inodeStart : load32 s.byte 24 = 10
  inodeCount : load32 s.byte 28 = 4 * ib
  dataStart : load32 s.byte 32 = 42
  inodeBlocks : load32 s.byte 36 = ib

theorem Format.IsImage.isSuperblock {img bitmap inodes : Format.PyBytes}
    (h : Format.IsImage img bitmap inodes run) : IsSuperblock 32 (Format.imageDisk img 1) := by
  have hbyte : ∀ k < 512, (Format.imageDisk img 1).byte k = Format.superblock.getD k 0 :=
    fun k hk => by
      rw [Format.IsImage.byte_imageDisk img hk]
      exact h.superblock k hk
  have hload : ∀ off, off + 4 ≤ 512 → load32 (Format.imageDisk img 1).byte off
      = load32 (fun k => Format.superblock.getD k 0) off := fun off hoff =>
    load32_congr fun k h1 h2 => hbyte k (by omega)
  refine ⟨?_, ?_, ?_, ?_, ?_, ?_, ?_⟩
  · unfold hasMagic
    rw [hbyte 0 (by omega), hbyte 1 (by omega), hbyte 2 (by omega), hbyte 3 (by omega)]
    rfl
  all_goals
    rw [hload _ (by omega)]
    rfl

/-- One drive of 32768 sectors and no other. -/
def onlyDrive (ch dr : Nat) (d : Disk) : Drives := fun c r =>
  if c = ch ∧ r = dr then some ⟨32768, d⟩ else none

/-- The variables after mounting a volume as mknvfs.py formats it. -/
def mountedGlobals (g : Globals) (ch dr : Nat) (s : Sector) : Globals :=
  { loadSuperblock { g with nvfsCh := ch, nvfsDr := dr, nvfsOffset := 0 } s with
    nvfsCwd := nvfsRootInode, mounted := true }

theorem IsSuperblock.geometry {s : Sector} (h : IsSuperblock 32 s) (g : Globals) (ch dr : Nat) :
    Geometry 32 (mountedGlobals g ch dr s) where
  mounted := rfl
  offset := rfl
  bitmapStart := h.bitmapStart
  bitmapSectors := h.bitmapSectors
  inodeStart := h.inodeStart
  dataStart := h.dataStart
  inodeBlocks := by
    show (if load32 s.byte 36 = 0 then load32 s.byte 28 / inodesPerSec else load32 s.byte 36) = 32
    rw [h.inodeBlocks, if_neg (by decide)]
  inodeCount := h.inodeCount
  lo := le_rfl
  hi := by omega

/-- Such a volume is mounted, wherever its drive is attached. -/
theorem nvfsMount_onlyDrive {d : Disk} (h : IsSuperblock 32 (d 1)) (g : Globals) {ch dr : Nat}
    (hch : ch < 2) (hdr : dr < 2) :
    nvfsMount (onlyDrive ch dr d) g = (true, mountedGlobals g ch dr (d 1)) := by
  have hfound : ∀ rest, mountLoop (onlyDrive ch dr d) g ((ch, dr, 0) :: rest)
      = (true, mountedGlobals g ch dr (d 1)) := by
    intro rest
    have hg := h.geometry g ch dr
    have hok : layoutOk (loadSuperblock { g with nvfsCh := ch, nvfsDr := dr, nvfsOffset := 0 } (d 1))
        = true := by
      show layoutOk (mountedGlobals g ch dr (d 1)) = true
      unfold layoutOk
      rw [hg.bitmapStart, hg.bitmapSectors, hg.inodeStart, hg.dataStart, hg.inodeBlocks,
        hg.inodeCount]
      decide
    have hdrive : onlyDrive ch dr d ch dr = some ⟨32768, d⟩ := if_pos ⟨rfl, rfl⟩
    have hanswer : answer 32768 d (0 + 1) = some (d 1) := rfl
    rw [mountLoop, hdrive]
    simp only
    rw [hanswer]
    simp only [h.magic, hok, if_true]
    rfl
  have hskip : ∀ c r off rest, ¬ (c = ch ∧ r = dr) →
      mountLoop (onlyDrive ch dr d) g ((c, r, off) :: rest)
        = mountLoop (onlyDrive ch dr d) g rest := by
    intro c r off rest hne
    have hdrive : onlyDrive ch dr d c r = none := if_neg hne
    rw [mountLoop, hdrive]
  unfold nvfsMount mountProbes
  have hch' : ch = 0 ∨ ch = 1 := by omega
  have hdr' : dr = 0 ∨ dr = 1 := by omega
  rcases hch' with rfl | rfl <;> rcases hdr' with rfl | rfl
  · exact hfound _
  · rw [hskip _ _ _ _ (by decide), hskip _ _ _ _ (by decide)]
    exact hfound _
  · rw [hskip _ _ _ _ (by decide), hskip _ _ _ _ (by decide), hskip _ _ _ _ (by decide),
      hskip _ _ _ _ (by decide)]
    exact hfound _
  · rw [hskip _ _ _ _ (by decide), hskip _ _ _ _ (by decide), hskip _ _ _ _ (by decide),
      hskip _ _ _ _ (by decide), hskip _ _ _ _ (by decide), hskip _ _ _ _ (by decide)]
    exact hfound _

end Noverix.Nvfs
