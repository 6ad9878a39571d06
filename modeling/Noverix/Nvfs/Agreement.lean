/-
  The formatter and the driver agree.  mknvfs.py packs files one after
  another: file `i` becomes inode `i + 1`, its data a run of blocks that
  starts where the previous run ends, and its entry is slot `i` of the root.
  `Filled` is what the packing loop has stored after `k` files, `Carries` the
  same read back as a volume, and on such a volume the driver's lookup and its
  read return the files.
-/

import Noverix.Nvfs.ReadBack

namespace Noverix.Nvfs.Format

open Lib

/-! ## Where files are packed -/

/-- The blocks of a file. -/
def fileBlocks (file : List Char × List UInt8) : Nat := (file.2.length + 511) / 512

/-- The first block of file `k`: the root has block 0, and the files before it
    have theirs. -/
def startOf (files : List (List Char × List UInt8)) (k : Nat) : Nat :=
  1 + ((files.take k).map fileBlocks).sum

variable {upper : List Char → List Char} {files : List (List Char × List UInt8)}
  {file : List Char × List UInt8} {i k : Nat}

theorem startOf_succ (hf : files[k]? = some file) :
    startOf files (k + 1) = startOf files k + fileBlocks file := by
  unfold startOf
  rw [List.take_add_one, hf]
  simp only [Option.toList_some, map_append, map_cons, map_nil, List.sum_append,
    List.sum_cons, List.sum_nil]
  omega

theorem startOf_mono {m n : Nat} (h : m ≤ n) : startOf files m ≤ startOf files n := by
  induction n, h using Nat.le_induction with
  | base => exact le_rfl
  | succ n _ ih =>
    cases hf : files[n]? with
    | none =>
      have hlen := List.getElem?_eq_none_iff.mp hf
      unfold startOf at ih ⊢
      rw [take_of_length_le hlen] at ih
      rw [take_of_length_le (by omega : files.length ≤ n + 1)]
      exact ih
    | some file =>
      rw [startOf_succ hf]
      omega

theorem startOf_end (hf : files[i]? = some file) {n : Nat} (hn : i < n) :
    startOf files i + fileBlocks file ≤ startOf files n := by
  rw [← startOf_succ hf]
  exact startOf_mono hn

theorem exists_run {b n : Nat} (hlen : n ≤ files.length) (h0 : 0 < b) (hb : b < startOf files n) :
    ∃ i file, files[i]? = some file ∧ startOf files i ≤ b ∧
      b < startOf files i + fileBlocks file := by
  induction n with
  | zero =>
    simp only [startOf, take_zero, map_nil, List.sum_nil] at hb
    omega
  | succ n ih =>
    have hf : files[n]? = some files[n] := getElem?_eq_getElem (by omega)
    by_cases hlt : b < startOf files n
    · exact ih (by omega) hlt
    rw [startOf_succ hf] at hb
    exact ⟨n, files[n], hf, by omega, hb⟩

/-! ## What the packing loop stores -/

/-- The record of a file packed at block `start`. -/
def fileRecord (start : Nat) (file : List Char × List UInt8) : Inode :=
  Inode.load (PyBytes.ofList (packInode file.2.length nvfsTypeFile
    (if 0 < fileBlocks file then 1 else 0) (packExtents start (fileBlocks file)))).get 0

/-- The first `k` files are packed. -/
structure Filled (upper : List Char → List Char) (files : List (List Char × List UInt8)) (k : Nat)
    (st : PackState) : Prop where
  few : k ≤ 16
  next : st.nextFreeBlock = startOf files k
  diskSize : st.disk.size = 32768 * 512
  record : ∀ i file, i < k → files[i]? = some file →
    Inode.load st.inodes.get ((i + 1) * 128) = fileRecord (startOf files i) file
  blank : ∀ j, k < j → (Inode.load st.inodes.get (j * 128)).type = 0 ∧
    (Inode.load st.inodes.get (j * 128)).extentCount = 0
  entry : ∀ i file, i < k → files[i]? = some file → ∃ name,
    encodeAscii ((upper file.1).take 27) = some name ∧
      ∀ j, j < 32 → st.rootEntries.get (i * 32 + j) = (entryBytes name i).getD j 0
  free : ∀ j, k * 32 ≤ j → st.rootEntries.get j = 0
  data : ∀ i file, i < k → files[i]? = some file → ∀ j, j < file.2.length →
    st.disk.get ((42 + startOf files i) * 512 + j) = file.2.getD j 0

theorem get_assign_ofList {s : PyBytes} {l : List UInt8} {a n : Nat} (hl : l.length = n)
    (h : a + n ≤ s.size) (j : Nat) : (s.assign a (a + n) (PyBytes.ofList l)).get j
      = if a ≤ j ∧ j < a + n then l.getD (j - a) 0 else s.get j := by
  subst hl
  have hassign := PyBytes.assign_of_le (s := s) (t := PyBytes.ofList l) (a := a) h
  rw [size_ofList] at hassign
  rw [hassign]
  rfl

variable {st st' : PackState} {run : Nat → Nat × Nat}

theorem Filled.packFile (h : Filled upper files k st)
    (hp : Packed st run) (hf : files[k]? = some file) (hfit : startOf files (k + 1) ≤ 32726)
    (hpack : Format.packFile upper st k file = some st') : Filled upper files (k + 1) st' := by
  obtain ⟨bitmap, name, hname, hroom, -, rfl⟩ := packFile_eq_some hpack
  have hsucc := startOf_succ hf
  have hblocks : file.2.length ≤ fileBlocks file * 512 := by
    unfold fileBlocks
    omega
  have hnext := h.next
  have hroot := hp.rootSize
  have hds := h.diskSize
  have hkroom : k < 16 := by omega
  have hentry := length_entryBytes (length_encodeAscii hname) k
  have hload := fun j => load_putRecord (i := k + 1) (j := j) hp.inodesSize
    (length_packInode file.2.length nvfsTypeFile (if 0 < fileBlocks file then 1 else 0)
      (length_packExtents st.nextFreeBlock (fileBlocks file))) (by omega)
  have hslot := fun j => get_assign_ofList (s := st.rootEntries) (a := k * 32) hentry hroom j
  have hbyte := fun j => get_assign_ofList (s := st.disk) (l := file.2)
    (a := (42 + st.nextFreeBlock) * 512) rfl (by omega) j
  -- an index below `k + 1` is that of an older file or of this one
  have hcases : ∀ {i f}, i < k + 1 → files[i]? = some f → i < k ∨ i = k ∧ f = file := by
    intro i f hi hfi
    by_cases hik : i < k
    · exact .inl hik
    obtain rfl : i = k := by omega
    exact .inr ⟨rfl, some.inj (hfi.symm.trans hf)⟩
  refine
    { few := hkroom
      next := by simp only; rw [hnext, hsucc]; rfl
      diskSize := ?_
      record := ?_
      blank := ?_
      entry := ?_
      free := ?_
      data := ?_ }
  · simp only
    rw [PyBytes.size_assign_ofList rfl (by omega), hds]
  · intro i f hi hfi
    refine (hload (i + 1)).trans ?_
    rcases hcases hi hfi with hik | ⟨rfl, rfl⟩
    · rw [if_neg (by omega)]
      exact h.record i f hik hfi
    rw [if_pos rfl, hnext]
    rfl
  · intro j hj
    have hold := h.blank j (by omega)
    have hsame := (hload j).trans (if_neg (by omega))
    exact ⟨(congrArg Inode.type hsame).trans hold.1,
      (congrArg Inode.extentCount hsame).trans hold.2⟩
  · intro i f hi hfi
    rcases hcases hi hfi with hik | ⟨rfl, rfl⟩
    · obtain ⟨x, hx, hbytes⟩ := h.entry i f hik hfi
      refine ⟨x, hx, fun j hj => ?_⟩
      rw [hslot, if_neg (by omega)]
      exact hbytes j hj
    refine ⟨name, hname, fun j hj => ?_⟩
    rw [hslot, if_pos (by omega), Nat.add_sub_cancel_left]
  · intro j hj
    rw [hslot, if_neg (by omega)]
    exact h.free j (by omega)
  · intro i f hi hfi j hj
    rw [hbyte]
    rcases hcases hi hfi with hik | ⟨rfl, rfl⟩
    · -- an older file ends before this one starts
      have hend := startOf_end hfi hik
      have hlen : f.2.length ≤ fileBlocks f * 512 := by
        unfold fileBlocks
        omega
      rw [if_neg (by omega)]
      exact h.data i f hik hfi j hj
    · rw [hnext, if_pos (by omega), Nat.add_sub_cancel_left]

variable {rest : List (List Char × List UInt8)}

theorem drop_cons (h : files.drop k = file :: rest) :
    files[k]? = some file ∧ k < files.length ∧ files.drop (k + 1) = rest := by
  have hf : files[k]? = some file := by
    rw [← Nat.add_zero k, ← List.getElem?_drop, h]
    rfl
  refine ⟨hf, (getElem?_eq_some_iff.mp hf).1, ?_⟩
  rw [← List.drop_drop, h]
  rfl

theorem Filled.packFiles {rest : List (List Char × List UInt8)} {st st' : PackState}
    {run : Nat → Nat × Nat} (hk : k ≤ files.length) (hrest : files.drop k = rest)
    (h : Filled upper files k st) (hp : Packed st run) (hfit : startOf files files.length ≤ 32726)
    (hpack : Format.packFiles upper k rest st = some st') :
    ∃ run', Packed st' run' ∧ Filled upper files files.length st' := by
  induction rest generalizing k st run with
  | nil =>
    cases hpack
    have hlen := List.drop_eq_nil_iff.mp hrest
    obtain rfl : k = files.length := by omega
    exact ⟨run, hp, h⟩
  | cons file rest ih =>
    obtain ⟨hf, hlt, htail⟩ := drop_cons hrest
    have hfew := h.few
    unfold Format.packFiles at hpack
    rw [if_neg (by simp only [inodeCount]; omega)] at hpack
    obtain ⟨st1, h1, h2⟩ := bind_eq_some_iff.mp hpack
    have hfilled := h.packFile hp hf (Nat.le_trans (startOf_mono hlt) hfit) h1
    obtain ⟨run1, hrun1⟩ := hp.packFile (by omega) h1
    exact ih hlt htail hfilled hrun1 h2

theorem Packed.next_packFiles
    (hk : k ≤ files.length) (hfew : k ≤ 16) (hrest : files.drop k = rest)
    (hp : Packed st run) (hnext : st.nextFreeBlock = startOf files k)
    (hpack : Format.packFiles upper k rest st = some st') :
    st'.nextFreeBlock = startOf files files.length := by
  induction rest generalizing k st run with
  | nil =>
    cases hpack
    have hlen := List.drop_eq_nil_iff.mp hrest
    obtain rfl : k = files.length := by omega
    exact hnext
  | cons file rest ih =>
    obtain ⟨hf, hlt, htail⟩ := drop_cons hrest
    unfold Format.packFiles at hpack
    rw [if_neg (by simp only [inodeCount]; omega)] at hpack
    obtain ⟨st1, h1, h2⟩ := bind_eq_some_iff.mp hpack
    obtain ⟨run1, hrun1⟩ := hp.packFile (by omega) h1
    obtain ⟨bitmap, name, -, hroom, -, rfl⟩ := packFile_eq_some h1
    have hroot := hp.rootSize
    refine ih hlt (by omega) htail hrun1 ?_ h2
    simp only
    rw [hnext, startOf_succ hf]
    rfl

theorem filled_start (bitmap : PyBytes) :
    Filled upper files 0 ⟨1, bitmap, PyBytes.zeros (inodeSectors * nvfsSectorSize),
      PyBytes.zeros nvfsSectorSize, blankDisk⟩ where
  few := Nat.zero_le _
  next := rfl
  diskSize := by rw [blankDisk_eq]
  record i _ hi := absurd hi (Nat.not_lt_zero i)
  blank _ _ := ⟨rfl, rfl⟩
  entry i _ hi := absurd hi (Nat.not_lt_zero i)
  free _ _ := rfl
  data i _ hi := absurd hi (Nat.not_lt_zero i)

/-! ## The image as a volume -/

/-- The name under which a file is entered in the root. -/
def entryName (upper : List Char → List Char) (name : List Char) : List UInt8 :=
  ((upper name).take 27).map fun c => UInt8.ofNat c.toNat

/-- The volume holds the files, and nothing else. -/
structure Carries (upper : List Char → List Char) (files : List (List Char × List UInt8))
    (V : Vol) : Prop where
  few : files.length ≤ 16
  root : (V.ino 0).type = nvfsTypeDir
  rootRun : HoldsRun (V.ino 0) 0 (if files = [] then 0 else 1)
  rootCount : files = [] → (V.ino 0).extentCount = 0
  entry : ∀ i file, files[i]? = some file → ∃ x, slotEntry (V.blk 0) i = some (x, i + 1) ∧
    (NulFree (entryName upper file.1) → x = entryName upper file.1)
  noEntry : ∀ i, i < 16 → files.length ≤ i → slotEntry (V.blk 0) i = none
  record : ∀ i file, files[i]? = some file → (V.ino (i + 1)).type = nvfsTypeFile ∧
    (V.ino (i + 1)).size.toNat = file.2.length ∧
    HoldsRun (V.ino (i + 1)) (if 0 < fileBlocks file then startOf files i else 0) (fileBlocks file)
  data : ∀ i file, files[i]? = some file → ∀ j, j < file.2.length →
    (V.blk (startOf files i + j / 512)).byte (j % 512) = file.2.getD j 0
  blank : ∀ j, files.length < j → (V.ino j).type = 0
  bits : ∀ b, V.bit b = true ↔ files ≠ [] ∧ b < startOf files files.length

variable {name : List UInt8}

theorem encodeAscii_eq {s : List Char} (h : encodeAscii s = some name) :
    name = s.map fun c => UInt8.ofNat c.toNat := by
  unfold encodeAscii at h
  split at h
  · exact (some.inj h).symm
  · cases h

theorem entryBytes_getD (hlen : name.length ≤ 27) {j : Nat} (hj : j < 32) :
    (entryBytes name i).getD j 0 = direntBytes name (i + 1) j := by
  unfold entryBytes direntBytes store32
  simp only [nvfsMaxName]
  rw [append_assoc, List.getD_eq_getElem?_getD, List.getElem?_append]
  by_cases h1 : j < name.length
  · rw [if_pos h1, if_neg (by omega), if_pos (by omega), List.getD_eq_getElem?_getD]
  rw [if_neg h1, List.getElem?_append, List.length_replicate]
  by_cases h2 : j < 28
  · rw [if_pos (by omega), if_neg (by omega), if_neg (by omega),
      List.getElem?_replicate_of_lt (by omega)]
    rfl
  rw [if_neg (by omega), if_pos (by omega)]
  obtain ⟨m, rfl⟩ : ∃ m, j = 28 + m := ⟨j - 28, by omega⟩
  rw [show 28 + m - name.length - (28 - name.length) = m by omega, Nat.add_sub_cancel_left]
  have hm : m = 0 ∨ m = 1 ∨ m = 2 ∨ m = 3 := by omega
  rcases hm with rfl | rfl | rfl | rfl <;> rfl

variable {s : Sector}

/-- So the driver finds the entry in its slot, under the name if that is a string. -/
theorem slotEntry_of_entryBytes (hi : i < 16)
    (hlen : name.length ≤ 27)
    (h : ∀ j < 32, s.byte (i * 32 + j) = (entryBytes name i).getD j 0) :
    ∃ x, slotEntry s i = some (x, i + 1) ∧ (NulFree name → x = name) := by
  have hput : slotEntry (putSlot s i (direntBytes name (i + 1))) i = slotEntry s i := by
    refine slotEntry_congr fun k h1 h2 => ?_
    obtain ⟨j, rfl⟩ : ∃ j, k = i * 32 + j := ⟨k - i * 32, by omega⟩
    rw [putSlot_byte_same hi (by omega), h j (by omega), entryBytes_getD hlen (by omega)]
  have hinode : slotInode s i = i + 1 := by
    have hload : slotInode s i = load32 (direntBytes name (i + 1)) 28 := by
      refine load32_shift fun k hk => ?_
      rw [nvfsDirentSize, Nat.add_assoc, h _ (by omega), entryBytes_getD hlen (by omega)]
    rw [hload, direntBytes, load32_store32_same, mod_eq_of_lt (by omega)]
  refine ⟨slotName s i, ?_, fun hn => ?_⟩
  · unfold slotEntry
    rw [if_neg (by omega), hinode]
  · have hkey : nameKey name = name := take_of_length_le hlen
    have hslot := hput.symm.trans (slotEntry_putSlot_same s hi hn (by omega) (by omega))
    unfold slotEntry at hslot
    rw [if_neg (by omega), hkey] at hslot
    exact (Prod.mk.inj (some.inj hslot)).1

theorem slotEntry_of_zero (h : ∀ j < 32, s.byte (i * 32 + j) = 0) :
    slotEntry s i = none := by
  have hzero : slotInode s i = 0 := by
    unfold slotInode load32
    simp only [nvfsDirentSize, Nat.add_assoc (i * 32)]
    rw [h 28 (by omega), h (28 + 1) (by omega), h (28 + 2) (by omega), h (28 + 3) (by omega)]
    rfl
  unfold slotEntry
  rw [if_pos hzero]

theorem carries_empty : Carries upper [] (vol 32 (imageDisk emptyImage)) := by
  obtain ⟨hbit, hroot, hcount, hdead⟩ := emptyImage_vol
  have hnone : ∀ {i : Nat} {file}, ([] : List (List Char × List UInt8))[i]? ≠ some file := by
    intro i file h
    cases h
  refine
    { few := Nat.zero_le _
      root := hroot
      rootRun := HoldsRun.of_empty (hcount 0)
      rootCount := fun _ => hcount 0
      entry := fun i file hf => absurd hf hnone
      noEntry := fun i hi _ => slotEntry_of_zero fun j hj => ?_
      record := fun i file hf => absurd hf hnone
      data := fun i file hf => absurd hf hnone
      blank := fun j hj => hdead j (by simp only [length_nil] at hj; omega)
      bits := fun b => by simp [hbit b] }
  rw [vol_blk, if_pos (by omega), IsImage.byte_imageDisk emptyImage (by omega), emptyImage_spec.2,
    if_neg (by omega), if_neg (by omega), blankDisk_eq]
  simp only
  rw [if_neg (by omega)]

section

variable {st : PackState} {run : Nat → Nat × Nat}

theorem fileRecord_spec {start : Nat} (hfit : start + fileBlocks file ≤ 32768) :
    (fileRecord start file).capExtents.type = nvfsTypeFile ∧
      (fileRecord start file).capExtents.size.toNat = file.2.length ∧
      HoldsRun (fileRecord start file).capExtents (if 0 < fileBlocks file then start else 0)
        (fileBlocks file) := by
  have hlen : file.2.length < 2 ^ 32 := by
    unfold fileBlocks at hfit
    omega
  have hsize : (fileRecord start file).size = UInt32.ofNat (file.2.length % 2 ^ 32) := by
    rw [← wordByte_sum]
    rfl
  refine ⟨(Inode.capExtents_type _).trans rfl, ?_, holdsRun_packInode _ _ _ _ hfit⟩
  rw [Inode.capExtents_size, hsize, mod_eq_of_lt hlen]
  exact toNat_ofNat_of_lt' hlen

theorem Filled.carries (h : Filled upper files files.length st) (hp : Packed st run)
    (hne : files ≠ []) (hfit : startOf files files.length ≤ 32726) :
    (packedImage st).size = 32768 * 512 ∧
      Carries upper files (vol 32 (imageDisk (packedImage st))) := by
  have himg := hp.image_spec
  have hsize : (packedImage st).size = 32768 * 512 := himg.1.trans h.diskSize
  obtain ⟨run', himage⟩ := hp.isImage hsize
  have hino : ∀ i < 128, (vol 32 (imageDisk (packedImage st))).ino i = if i = 0 then
      (Inode.load (PyBytes.ofList (packInode 512 nvfsTypeDir 1 (packExtents 0 1))).get 0).capExtents
      else (Inode.load st.inodes.get (i * 128)).capExtents := by
    intro i hi
    rw [himage.vol_ino hi, hp.inodes_spec.2]
    split <;> rfl
  -- the bytes of the data area are the root's entries, then those of the files
  have hblk : ∀ b k, b < 32726 → k < 512 → ((vol 32 (imageDisk (packedImage st))).blk b).byte k
      = if b = 0 then st.rootEntries.get k else st.disk.get ((42 + b) * 512 + k) := by
    intro b k hb hk
    rw [vol_blk, if_pos (by omega), IsImage.byte_imageDisk _ hk, himg.2, if_neg (by omega),
      if_neg (by omega)]
    by_cases h0 : b = 0
    · subst h0
      rw [if_pos (by omega), if_pos rfl, show (42 + 0) * 512 + k - 21504 = k by omega]
    · rw [if_neg (by omega), if_neg h0]
  have hfew := h.few
  have hlt : ∀ {i file}, files[i]? = some file → i < files.length :=
    fun hf => (getElem?_eq_some_iff.mp hf).1
  refine ⟨hsize,
    { few := hfew
      root := ?_
      rootRun := ?_
      rootCount := fun hf => absurd hf hne
      entry := ?_
      noEntry := ?_
      record := ?_
      data := ?_
      blank := ?_
      bits := ?_ }⟩
  · rw [hino 0 (by decide), if_pos rfl]
    rfl
  · rw [hino 0 (by decide), if_pos rfl, if_neg hne]
    exact holdsRun_packInode 512 nvfsTypeDir 0 1 (by omega)
  · intro i file hf
    have hi := hlt hf
    obtain ⟨name, hname, hbytes⟩ := h.entry i file hi hf
    have hlen := length_encodeAscii hname
    obtain rfl : name = entryName upper file.1 := encodeAscii_eq hname
    refine slotEntry_of_entryBytes (by omega) hlen fun j hj => ?_
    rw [hblk 0 _ (by omega) (by omega), if_pos rfl, hbytes j hj]
  · intro i hi hlen
    refine slotEntry_of_zero fun j hj => ?_
    rw [hblk 0 _ (by omega) (by omega), if_pos rfl, h.free _ (by omega)]
  · intro i file hf
    have hi := hlt hf
    have hend := startOf_end hf hi
    rw [hino (i + 1) (by omega), if_neg (by omega), h.record i file hi hf]
    exact fileRecord_spec (by omega)
  · intro i file hf j hj
    have hi := hlt hf
    have hend := startOf_end hf hi
    have hstart : 0 < startOf files i := by
      unfold startOf
      omega
    have hlen : (file.2.length + 511) / 512 = fileBlocks file := rfl
    rw [hblk _ _ (by omega) (by omega), if_neg (by omega)]
    have hidx : (42 + (startOf files i + j / 512)) * 512 + j % 512
        = (42 + startOf files i) * 512 + j := by omega
    rw [hidx]
    exact h.data i file hi hf j hj
  · intro j hj
    by_cases hj' : j < 128
    · rw [hino j hj', if_neg (by omega)]
      exact (Inode.capExtents_type _).trans (h.blank j hj).1
    rw [vol_ino, if_neg (by omega)]
    rfl
  · intro b
    by_cases hb : b < 32768
    · rw [himage.vol_bit hb, hp.bits, h.next, decide_eq_true_iff]
      exact ⟨fun hb => ⟨hne, hb⟩, fun hb => hb.2⟩
    rw [vol_bit, if_neg hb]
    constructor
    · intro hf
      cases hf
    · rintro ⟨-, hlt⟩
      omega

end

variable {img : PyBytes}

theorem startOf_le_of_create (h : create upper files = some img)
    (hsize : img.size = 32768 * 512) : startOf files files.length ≤ 32726 := by
  unfold create at h
  simp only at h
  by_cases hf : files = []
  · subst hf
    decide
  rw [if_neg hf] at h
  obtain ⟨bitmap, hb, h⟩ := bind_eq_some_iff.mp h
  obtain ⟨st, hst, h⟩ := bind_eq_some_iff.mp h
  cases h
  have hp := packed_start hb
  obtain ⟨run, hrun⟩ := hp.packFiles hst
  rw [← hp.next_packFiles (Nat.zero_le _) (Nat.zero_le _) drop_zero rfl hst]
  exact hrun.fits (hrun.image_spec.1.symm.trans hsize)

theorem carries_of_create (h : create upper files = some img)
    (hfit : startOf files files.length ≤ 32726) :
    img.size = 32768 * 512 ∧ Carries upper files (vol 32 (imageDisk img)) := by
  unfold create at h
  simp only at h
  by_cases hf : files = []
  · rw [if_pos hf] at h
    obtain rfl := some.inj h
    subst hf
    exact ⟨emptyImage_spec.1, carries_empty⟩
  rw [if_neg hf] at h
  obtain ⟨bitmap, hb, h⟩ := bind_eq_some_iff.mp h
  obtain ⟨st, hst, h⟩ := bind_eq_some_iff.mp h
  obtain rfl := some.inj h
  obtain ⟨run, hp, hfilled⟩ := (filled_start bitmap).packFiles (Nat.zero_le _) (drop_zero)
    (packed_start hb) hfit hst
  exact hfilled.carries hp hf hfit

end Noverix.Nvfs.Format

namespace Noverix.Nvfs

open Lib
open Format (Carries fileBlocks startOf entryName)

variable {upper : List Char → List Char} {files : List (List Char × List UInt8)}
  {file : List Char × List UInt8} {V : Vol} {i : Nat}

/-! ## The namespace of the image -/

theorem filterMap_range_getElem? {α : Type} (l : List α) (n : Nat) :
    (range n).filterMap (fun i => l[i]?) = l.take n := by
  induction n with
  | zero => simp
  | succ n ih =>
    rw [range_succ, filterMap_append, ih, List.take_add_one]
    cases hl : l[n]? <;> simp [hl]

theorem sectorEntries_of_slots {s : Sector} {es : List Entry} (hlen : es.length ≤ 16)
    (h : ∀ i < 16, slotEntry s i = es[i]?) : sectorEntries s = es := by
  have hslots : sectorEntries s = (range 16).filterMap fun i => es[i]? :=
    filterMap_congr fun i hi => h i (mem_range.mp hi)
  rw [hslots, filterMap_range_getElem?, take_of_length_le hlen]

theorem flatMap_bytes_run (V : Vol) (start k : Nat) :
    ((range' start k).flatMap fun b => (V.blk b).bytes)
      = (range (k * 512)).map fun j => (V.blk (start + j / 512)).byte (j % 512) := by
  have hblock : ∀ j, (V.blk (start + j)).bytes = ((range 512).map (j * 512 + ·)).map
      fun j => (V.blk (start + j / 512)).byte (j % 512) := by
    intro j
    unfold Sector.bytes
    rw [map_map]
    refine map_congr_left fun k hk => ?_
    have hk := mem_range.mp hk
    simp only [nvfsSectorSize] at hk
    simp only [Function.comp_apply]
    rw [show (j * 512 + k) / 512 = j by omega, show (j * 512 + k) % 512 = k by omega]
  rw [List.range'_eq_map_range, List.flatMap_map]
  simp only [hblock]
  rw [← List.map_flatMap, range_flatMap_rows]

variable {n : Inode}

theorem content_of_bytes {start : Nat} {l : List UInt8}
    (hrun : HoldsRun n (if 0 < (l.length + 511) / 512 then start else 0) ((l.length + 511) / 512))
    (hsize : n.size.toNat = l.length)
    (hbyte : ∀ j < l.length, (V.blk (start + j / 512)).byte (j % 512) = l.getD j 0)
    (max : Nat) : V.content n max = l.take max := by
  unfold Vol.content
  rw [hrun.blocks, flatMap_bytes_run, hsize, ← map_take, take_range]
  have hmin : min (min l.length max) ((l.length + 511) / 512 * 512) = min max l.length := by omega
  rw [hmin]
  refine ext_getElem (by simp) fun j h1 h2 => ?_
  rw [length_take] at h2
  rw [List.getElem_map, List.getElem_range, List.getElem_take, if_pos (by omega),
    hbyte j (by omega), List.getD_eq_getElem?_getD, getElem?_eq_getElem (by omega),
    getD_some]

/-- The one extent of an inode that holds a run is not empty, unless the run is. -/
theorem HoldsRun.count_pos {start k : Nat} (h : HoldsRun n start k) {e : Extent}
    (he : e ∈ V.extList n) (hk : k ≠ 0) : 0 < e.count.toNat := by
  have hcount := h.count
  have hone : V.extList n = [e] := by
    unfold Vol.extList at he ⊢
    rw [Nat.sub_eq_zero_of_le (by simp only [nvfsDirectExtents]; omega), Nat.zero_min,
      range_zero, map_nil, append_nil] at he ⊢
    obtain ⟨j, hj, rfl⟩ := mem_map.mp he
    have hj := mem_range.mp hj
    rw [show min n.extentCount.toNat nvfsDirectExtents = 1 by omega, show j = 0 by omega]
    rfl
  have hlen := congrArg List.length (h.blocks V)
  rw [Vol.blocksOf, hone, List.length_range'] at hlen
  simp only [extentBlocks, flatMap_singleton, length_map, length_range] at hlen
  omega

namespace Format.Carries

variable (h : Carries upper files V) (hn : ∀ file ∈ files, NulFree (entryName upper file.1))

include h hn

theorem kids_root : V.tree.kids 0
    = files.mapIdx fun i file => (entryName upper file.1, i + 1) := by
  rw [kids_of_dir h.root, Vol.entries, h.rootRun.blocks]
  by_cases hf : files = []
  · rw [if_pos hf, hf]
    rfl
  rw [if_neg hf]
  show ([0] : List Nat).flatMap _ = _
  rw [flatMap_singleton]
  refine sectorEntries_of_slots (by rw [List.length_mapIdx]; exact h.few) fun i hi => ?_
  rw [List.getElem?_mapIdx]
  cases hfi : files[i]? with
  | none => exact h.noEntry i hi (List.getElem?_eq_none_iff.mp hfi)
  | some file =>
    obtain ⟨x, hx, hname⟩ := h.entry i file hfi
    rw [hx, hname (hn file (List.mem_of_getElem? hfi))]
    rfl

omit hn in
/-- The entries of the root lead to the inodes of the files, whatever their names. -/
theorem map_snd_kids : (V.tree.kids 0).map Prod.snd = range' 1 files.length := by
  rw [kids_of_dir h.root, Vol.entries, h.rootRun.blocks]
  by_cases hf : files = []
  · rw [if_pos hf, hf]
    rfl
  have hslot : ∀ i ∈ range direntsPerSec,
      (slotEntry (V.blk 0) i).map Prod.snd = (range' 1 files.length)[i]? := by
    intro i hi
    cases hfi : files[i]? with
    | none =>
      have hlen := List.getElem?_eq_none_iff.mp hfi
      rw [h.noEntry i (mem_range.mp hi) hlen,
        List.getElem?_eq_none (by rw [List.length_range']; exact hlen)]
      rfl
    | some file =>
      obtain ⟨x, hx, -⟩ := h.entry i file hfi
      rw [hx, List.getElem?_range' (getElem?_eq_some_iff.mp hfi).1, map_some]
      simp [Nat.add_comm]
  rw [if_neg hf]
  show (([0] : List Nat).flatMap _).map _ = _
  rw [flatMap_singleton, sectorEntries, List.map_filterMap, filterMap_congr hslot,
    filterMap_range_getElem?, take_of_length_le]
  rw [List.length_range']
  exact h.few

theorem map_fst_kids :
    (V.tree.kids 0).map Prod.fst = files.map fun file => entryName upper file.1 := by
  rw [kids_root h hn]
  exact ext_getElem (by simp) fun j h1 h2 => by simp

omit hn in
theorem live_iff (j : Nat) : V.tree.live j ↔ j ≤ files.length := by
  show (V.ino j).type ≠ 0 ↔ _
  by_cases hj : files.length < j
  · simp only [h.blank j hj, ne_eq, not_true_eq_false, false_iff, Nat.not_le]
    exact hj
  refine ⟨fun _ => not_lt.mp hj, fun _ => ?_⟩
  cases j with
  | zero =>
    rw [h.root]
    decide
  | succ i =>
    rw [(h.record i _ (getElem?_eq_getElem (by omega))).1]
    decide

omit hn in
theorem dir_iff (j : Nat) : V.tree.dir j ↔ j = 0 := by
  constructor
  · intro hj
    have hle := (live_iff h j).mp (live_of_dir hj)
    cases j with
    | zero => rfl
    | succ i =>
      have htype := (h.record i _ (getElem?_eq_getElem (by omega))).1
      exact absurd (htype.symm.trans hj) (by decide)
  · rintro rfl
    exact h.root

omit hn in
theorem treelike : Treelike V 0 := by
  have hsnd := map_snd_kids h
  refine ⟨?_, h.root⟩
  apply Tree.rooted_of_flat (dir_iff h)
  · intro j
    rw [live_iff h, hsnd, mem_range'_1]
    omega
  · rw [hsnd, mem_range'_1]
    omega
  · rw [hsnd]
    exact nodup_range'

omit hn in
theorem solid : Solid V := by
  intro j hj e he
  rw [(dir_iff h j).mp hj] at he
  by_cases hf : files = []
  · rw [Vol.extList_of_count_zero (h.rootCount hf)] at he
    cases he
  · exact h.rootRun.count_pos he (by rw [if_neg hf]; decide)

theorem namesDiffer (hd : (files.map fun file => entryName upper file.1).Nodup) :
    V.tree.NamesDiffer := by
  intro p hp
  rw [(dir_iff h p).mp hp, map_fst_kids h hn]
  exact hd

omit hn in
theorem bit_iff (b : Nat) :
    V.bit b = true ↔ ∃ i, i ≤ files.length ∧ b ∈ V.refs (V.ino i) := by
  rw [h.bits]
  constructor
  · rintro ⟨hne, hb⟩
    by_cases h0 : b = 0
    · refine ⟨0, Nat.zero_le _, ?_⟩
      rw [h.rootRun.refs, if_neg hne, h0]
      exact mem_singleton_self 0
    obtain ⟨i, file, hf, h1, h2⟩ :=
      Format.exists_run le_rfl (Nat.pos_of_ne_zero h0) hb
    refine ⟨i + 1, (getElem?_eq_some_iff.mp hf).1, ?_⟩
    rw [(h.record i file hf).2.2.refs, if_pos (by omega), mem_range'_1]
    exact ⟨h1, h2⟩
  · rintro ⟨j, hj, hb⟩
    cases j with
    | zero =>
      rw [h.rootRun.refs, mem_range'_1] at hb
      by_cases hf : files = []
      · rw [if_pos hf] at hb
        omega
      rw [if_neg hf] at hb
      refine ⟨hf, ?_⟩
      unfold startOf
      omega
    | succ i =>
      have hf : files[i]? = some files[i] := getElem?_eq_getElem hj
      rw [(h.record i _ hf).2.2.refs, mem_range'_1] at hb
      rw [if_pos (by omega)] at hb
      have hend := Format.startOf_end hf hj
      exact ⟨List.ne_nil_of_length_pos (by omega), by omega⟩

omit hn in
theorem content_eq (hf : files[i]? = some file) (max : Nat) :
    V.content (V.ino (i + 1)) max = file.2.take max := by
  obtain ⟨-, hsize, hrun⟩ := h.record i file hf
  exact content_of_bytes hrun hsize (h.data i file hf) max

end Format.Carries

/-! ## Names -/

/-- A name of a file in the source directory, in ASCII. -/
structure FileName (name : List Char) : Prop where
  nonempty : name ≠ []
  notDot : name ≠ ['.']
  notDotDot : name ≠ ['.', '.']
  ascii : ∀ c ∈ name, 0 < c.toNat ∧ c.toNat < 128
  noSlash : '/' ∉ name

/-- The bytes of an ASCII string. -/
def asciiBytes (s : List Char) : List UInt8 := s.map fun c => UInt8.ofNat c.toNat

/-- `str.upper` on ASCII strings. -/
def UppersAscii (upper : List Char → List Char) : Prop :=
  ∀ s, (∀ c ∈ s, c.toNat < 128) → upper s = s.map Char.toUpper

/-- The two upper-casings agree on ASCII. -/
theorem upperByte_ofNat {c : Char} (hc : c.toNat < 128) :
    UInt8.ofNat c.toUpper.toNat = upperByte (UInt8.ofNat c.toNat) := by
  have hall : ∀ n : Fin 128, UInt8.ofNat (Char.ofNat n.val).toUpper.toNat
      = upperByte (UInt8.ofNat (Char.ofNat n.val).toNat) := by decide
  simpa using hall ⟨c.toNat, hc⟩

variable {name : List Char}

/-- The formatter enters a file under the name the driver looks for. -/
theorem FileName.entryName_eq (h : FileName name) (hupper : UppersAscii upper) :
    entryName upper name = toUpper (asciiBytes (name.take 27)) := by
  have hascii : ∀ c ∈ name, c.toNat < 128 := fun c hc => (h.ascii c hc).2
  unfold entryName toUpper asciiBytes
  rw [hupper name hascii, ← map_take, map_map, map_map]
  refine map_congr_left fun c hc => ?_
  exact upperByte_ofNat (hascii c (mem_of_mem_take hc))

theorem mem_asciiBytes {s : List Char} (hs : ∀ c ∈ s, c.toNat < 128) {n : Nat} (hn : n < 128) :
    UInt8.ofNat n ∈ asciiBytes s ↔ ∃ c ∈ s, c.toNat = n := by
  unfold asciiBytes
  rw [mem_map]
  refine exists_congr fun c => and_congr_right fun hc => ?_
  have hlt := hs c hc
  rw [← UInt8.toNat_inj, UInt8.toNat_ofNat', UInt8.toNat_ofNat',
    mod_eq_of_lt (by omega : c.toNat < 2 ^ 8), mod_eq_of_lt (by omega)]

variable {p : List UInt8}

/-- What a spelling of a file's name, in any letter case, is to the driver. -/
theorem FileName.spelling (h : FileName name)
    (hp : toUpper p = toUpper (asciiBytes (name.take 27))) :
    NulFree p ∧ slash ∉ p ∧ p.length ≤ 27 ∧ p ≠ [] ∧ p ≠ [dot] ∧ p ≠ [dot, dot] := by
  have hascii : ∀ c ∈ name.take 27, c.toNat < 128 :=
    fun c hc => (h.ascii c (mem_of_mem_take hc)).2
  have hlen : p.length = min 27 name.length := by
    have := congrArg List.length hp
    simpa [toUpper, asciiBytes] using this
  have hmem : ∀ n < 65, UInt8.ofNat n ∈ p → ∃ c ∈ name, c.toNat = n := by
    intro n hn hin
    have hsmall : UInt8.ofNat n < 65 := by
      rw [UInt8.lt_iff_toNat_lt, UInt8.toNat_ofNat', mod_eq_of_lt (by omega)]
      exact hn
    rw [← mem_toUpper_iff hsmall, hp, mem_toUpper_iff hsmall,
      mem_asciiBytes hascii (by omega)] at hin
    obtain ⟨c, hc, heq⟩ := hin
    exact ⟨c, mem_of_mem_take hc, heq⟩
  have hpos : 0 < name.length := List.length_pos_iff.mpr h.nonempty
  -- a path of dots comes from a name of as many dots
  have hdots : ∀ k, 0 < k → k ≤ 2 → p = replicate k dot → name = replicate k '.' := by
    intro k hk0 hk hpk
    have hk' : name.length = k := by
      rw [hpk, List.length_replicate] at hlen
      omega
    refine List.eq_replicate_iff.mpr ⟨hk', fun c hc => ?_⟩
    have hin : upperByte (UInt8.ofNat c.toNat) ∈ toUpper p := by
      rw [hp, take_of_length_le (by omega)]
      exact mem_map_of_mem (mem_map_of_mem hc)
    rw [hpk, toUpper, List.map_replicate, List.mem_replicate] at hin
    have hdot : UInt8.ofNat c.toNat = dot := (upperByte_eq_iff (by decide)).mp hin.2
    have hnat := congrArg UInt8.toNat hdot
    rw [UInt8.toNat_ofNat', mod_eq_of_lt (by have := (h.ascii c hc).2; omega)] at hnat
    exact Char.toNat_inj.mp hnat
  refine ⟨?_, ?_, by omega, ?_, ?_, ?_⟩
  · rintro c hc rfl
    obtain ⟨c, hc, heq⟩ := hmem 0 (by decide) hc
    exact absurd heq (Nat.ne_of_gt (h.ascii c hc).1)
  · intro hc
    obtain ⟨c, hc, heq⟩ := hmem 47 (by decide) hc
    have hslash : c = '/' := Char.toNat_inj.mp heq
    exact h.noSlash (hslash ▸ hc)
  · rintro rfl
    simp at hlen
    omega
  · exact fun hpd => h.notDot (hdots 1 (by decide) (by decide) hpd)
  · exact fun hpd => h.notDotDot (hdots 2 (by decide) (by decide) hpd)

/-- Names that differ after upper-casing and truncation are entered differently. -/
theorem entryName_nodup (hupper : UppersAscii upper) (hnames : ∀ file ∈ files, FileName file.1)
    (hdistinct : (files.map fun file => (upper file.1).take 27).Nodup) :
    (files.map fun file => entryName upper file.1).Nodup := by
  have hchars : ∀ n : Fin 128, Char.ofNat (UInt8.ofNat (Char.ofNat n.val).toUpper.toNat).toNat
      = (Char.ofNat n.val).toUpper := by decide
  -- the bytes of an entry determine its characters
  have hback : ∀ file ∈ files, (entryName upper file.1).map (fun b => Char.ofNat b.toNat)
      = (upper file.1).take 27 := by
    intro file hf
    have hascii : ∀ c ∈ file.1, c.toNat < 128 := fun c hc => ((hnames file hf).ascii c hc).2
    unfold entryName
    rw [hupper file.1 hascii, ← map_take, map_map, map_map]
    refine map_congr_left fun c hc => ?_
    simpa using hchars ⟨c.toNat, hascii c (mem_of_mem_take hc)⟩
  refine List.Nodup.of_map (fun bytes => bytes.map fun b => Char.ofNat b.toNat) ?_
  rw [map_map]
  exact (map_congr_left hback).symm ▸ hdistinct

/-! ## Reading the files back -/

/-- On a well-formed volume that holds the files, a file's name leads to its bytes. -/
theorem Format.Carries.read {g : Globals} {d : Disk} (h : Carries upper files (vol 32 d))
    (hn : ∀ file ∈ files, NulFree (entryName upper file.1)) (hwf : WellFormed ⟨g, d⟩)
    (hf : files[i]? = some file) (hp : toUpper p = entryName upper file.1)
    (hpath : val 32768 (resolveNamed (slash :: p)) g d = some (nvfsRootInode, toUpper p))
    (max : Nat) : val 32768 (nvfsRead (slash :: p) max) g d = some (file.2.take max) := by
  have hkey : nameKey (toUpper p) = toUpper p := by
    rw [hp]
    exact take_of_length_le (by simp [entryName])
  have htarget : target g d (slash :: p) = some (nvfsRootInode, toUpper p, i + 1) := by
    refine (target_iff hwf).mpr ⟨hpath, ?_⟩
    rw [hkey, hp, h.kids_root hn]
    apply List.mem_of_getElem? (i := i)
    rw [List.getElem?_mapIdx, hf]
    rfl
  rw [val_nvfsRead hwf.geometry hwf.owned, htarget]
  simp only
  rw [if_pos (h.record i file hf).1, h.content_eq hf]

theorem entryName_nulFree (hupper : UppersAscii upper) (hnames : ∀ file ∈ files, FileName file.1) :
    ∀ file ∈ files, NulFree (entryName upper file.1) := by
  intro file hf c hc h0
  rw [(hnames file hf).entryName_eq hupper, h0, mem_toUpper_iff (by decide)] at hc
  exact ((hnames file hf).spelling rfl).1 0 hc rfl

/-- The image of mknvfs.py, mounted, is well formed and holds the files. -/
theorem create_wellFormed (hupper : UppersAscii upper) {img : Format.PyBytes}
    (hcreate : Format.create upper files = some img) (hnames : ∀ file ∈ files, FileName file.1)
    (hdistinct : (files.map fun file => (upper file.1).take 27).Nodup)
    (hfit : startOf files files.length ≤ Format.dataBlocks) (g : Globals) (ch dr : Nat) :
    WellFormed ⟨mountedGlobals g ch dr (Format.imageDisk img 1), Format.imageDisk img⟩ ∧
      Carries upper files (vol 32 (Format.imageDisk img)) := by
  obtain ⟨hsize, hcarries⟩ := Format.carries_of_create hcreate hfit
  obtain ⟨bitmap, inodes, run, himage⟩ := Format.isImage_of_create hcreate hsize
  have hdiffer := hcarries.namesDiffer (entryName_nulFree hupper hnames)
    (entryName_nodup hupper hnames hdistinct)
  exact ⟨⟨himage.isSuperblock.geometry g ch dr, himage.owned.of_anyInode,
    hcarries.treelike.treeShaped hdiffer, hcarries.solid⟩, hcarries⟩

/-- Every file that mknvfs.py packs is read back by the driver under its name; the root
    lists these files only, and the bitmap marks what they and the root occupy. -/
theorem create_readsBack (hupper : UppersAscii upper) {img : Format.PyBytes}
    (hcreate : Format.create upper files = some img) (hnames : ∀ file ∈ files, FileName file.1)
    (hdistinct : (files.map fun file => (upper file.1).take 27).Nodup)
    (hfit : startOf files files.length ≤ Format.dataBlocks) (g : Globals) {ch dr : Nat}
    (hch : ch < 2) (hdr : dr < 2) :
    img.size = Format.diskSectors * nvfsSectorSize ∧
    ∃ s : State, s.d = Format.imageDisk img ∧ nvfsMount (onlyDrive ch dr s.d) g = (true, s.g) ∧
      (∀ file ∈ files, ∀ p, toUpper p = toUpper (asciiBytes (file.1.take 27)) → ∀ max,
        val 32768 (nvfsRead (slash :: p) max) s.g s.d = some (file.2.take max)) ∧
      (vol 32 s.d).tree.kids nvfsRootInode
        = files.mapIdx (fun i file => (toUpper (asciiBytes (file.1.take 27)), i + 1)) ∧
      ∀ b, (vol 32 s.d).bit b = true
        ↔ ∃ i, i ≤ files.length ∧ b ∈ (vol 32 s.d).refs ((vol 32 s.d).ino i) := by
  obtain ⟨hsize, -⟩ := Format.carries_of_create hcreate hfit
  obtain ⟨bitmap, inodes, run, himage⟩ := Format.isImage_of_create hcreate hsize
  have hsb := himage.isSuperblock
  have hname : ∀ file ∈ files,
      entryName upper file.1 = toUpper (asciiBytes (file.1.take 27)) :=
    fun file hf => (hnames file hf).entryName_eq hupper
  have hnul := entryName_nulFree hupper hnames
  obtain ⟨hwf, hcarries⟩ := create_wellFormed hupper hcreate hnames hdistinct hfit g ch dr
  refine ⟨hsize, ⟨mountedGlobals g ch dr (Format.imageDisk img 1), Format.imageDisk img⟩, rfl,
    nvfsMount_onlyDrive hsb g hch hdr, ?_, ?_, hcarries.bit_iff⟩
  · intro file hf p hp max
    obtain ⟨i, hi, hget⟩ := List.getElem_of_mem hf
    have hfi : files[i]? = some file := by rw [getElem?_eq_getElem hi, hget]
    obtain ⟨hn, hslash, hlen, h0, h1, h2⟩ := (hnames file hf).spelling hp
    exact hcarries.read hnul hwf hfi (hp.trans (hname file hf).symm)
      (resolveNamed_of_resolvePath hwf.geometry h0
        (resolvePath_rooted hn hslash (by omega) h1 h2)) max
  · refine (hcarries.kids_root hnul).trans ?_
    refine ext_getElem (by simp) fun i h1 h2 => ?_
    rw [List.getElem_mapIdx, List.getElem_mapIdx, hname _ (List.getElem_mem _)]

/-- The file `ab` with five bytes and the empty file `c`. -/
def twoFiles : List (List Char × List UInt8) := [(['a', 'b'], [1, 2, 3, 4, 5]), (['c'], [])]

theorem fileName_twoFiles : ∀ file ∈ twoFiles, FileName file.1 := by
  intro file hf
  simp only [twoFiles, mem_cons, not_mem_nil, or_false] at hf
  rcases hf with rfl | rfl
  · refine ⟨by decide, by decide, by decide, fun c hc => ?_, by decide⟩
    rcases List.mem_pair.mp hc with rfl | rfl
    · decide
    · decide
  refine ⟨by decide, by decide, by decide, fun c hc => ?_, by decide⟩
  rw [mem_singleton.mp hc]
  decide

/-- The image with two files is mounted, and `/aB` is the first of them. -/
theorem create_readsBack_twoFiles :
    ∃ img, Format.create (List.map Char.toUpper) twoFiles = some img ∧ ∃ s : State,
      nvfsMount (onlyDrive 0 0 (Format.imageDisk img)) bootGlobals = (true, s.g) ∧
      val 32768 (nvfsRead [slash, 97, 66] 9) s.g (Format.imageDisk img) = some [1, 2, 3, 4, 5] := by
  obtain ⟨img, himg⟩ : ∃ img, Format.create (List.map Char.toUpper) twoFiles = some img :=
    ⟨_, rfl⟩
  obtain ⟨-, s, hd, hmount, hread, -, -⟩ := create_readsBack (fun _ _ => rfl) himg fileName_twoFiles
    (by decide) (by decide) bootGlobals (by decide : 0 < 2) (by decide : 0 < 2)
  rw [hd] at hmount hread
  exact ⟨img, himg, s, hmount, hread _ (mem_cons_self ..) [97, 66] (by decide) 9⟩

end Noverix.Nvfs
