/-
  What `nvfs_append` makes of a file.  The call gathers the file and the new
  bytes in a buffer of 4096 bytes and writes the buffer in place of the file, so
  that the file ends up with the first 4096 bytes of the concatenation.  That is
  all of it unless the two together are longer; the call returns success in
  either case.
-/

import Noverix.Nvfs.Agreement
import Noverix.Nvfs.FaultCalls

namespace Noverix.Nvfs

open Lib
open Lib.DiskProg (must run must_mono)

variable {heap data : Mem} {add k parent i : Nat} {s : State} {name path : List UInt8} {env : Env}
  {D : Device} {g : Globals} {d : Disk}

/-! ## The buffer -/

/-- The first `size` bytes of a buffer. -/
def memBytes (data : Mem) (size : Nat) : List UInt8 := (List.range size).map data

@[simp] theorem memBytes_length (data : Mem) (size : Nat) : (memBytes data size).length = size := by
  simp [memBytes]

theorem take_memBytes (data : Mem) (size k : Nat) :
    (memBytes data size).take k = memBytes data (min k size) := by
  unfold memBytes
  rw [← map_take, take_range]

/-- The bytes of a file. -/
def Vol.fileBytes (V : Vol) (i : Nat) : List UInt8 := V.content (V.ino i) (V.ino i).size.toNat

/-- The blocks of the file hold as many bytes as its size says. -/
def Vol.Backed (V : Vol) (i : Nat) : Prop := (V.fileBytes i).length = (V.ino i).size.toNat

theorem Vol.content_eq_take (V : Vol) (i max : Nat) :
    V.content (V.ino i) max = (V.fileBytes i).take max := by
  unfold fileBytes content
  rw [take_take, Nat.min_self, Nat.min_comm]

variable {content : List UInt8}

theorem appendBuf_of_lt (hk : k < content.length) :
    appendBuf heap content content.length add data k = content[k] := by
  unfold appendBuf
  rw [if_neg (by omega), dif_pos hk]
  rfl

theorem appendBuf_add {old : Nat} (hk : k < add) :
    appendBuf heap content old add data (old + k) = data k := by
  unfold appendBuf
  rw [if_pos (by omega), Nat.add_sub_cancel_left]

theorem memBytes_appendBuf (heap data : Mem) (content : List UInt8) (add : Nat) :
    memBytes (appendBuf heap content content.length add data) (content.length + add)
      = content ++ memBytes data add := by
  unfold memBytes
  rw [range_add, map_append, map_map]
  congr 1
  · refine ext_getElem (by simp) fun k _ hk => ?_
    rw [List.getElem_map, List.getElem_range, appendBuf_of_lt hk]
  · exact map_congr_left fun k hk => appendBuf_add (mem_range.mp hk)

section

variable {V : Vol} {i : Nat} (hback : V.Backed i) (heap data : Mem) (size : Nat)
include hback

theorem appended_size : (appended V (V.ino i) heap data size).2
    = min ((V.fileBytes i).length + size) 4096 := by
  have hlen : (V.fileBytes i).length = (V.ino i).size.toNat := hback
  unfold appended
  simp only
  omega

/-- What the buffer holds is the concatenation, as far as it fits. -/
theorem appended_bytes :
    memBytes (appended V (V.ino i) heap data size).1 (appended V (V.ino i) heap data size).2
      = (V.fileBytes i ++ memBytes data size).take 4096 := by
  have hlen : (V.fileBytes i).length = (V.ino i).size.toNat := hback
  have hold : (V.content (V.ino i) (min (V.ino i).size.toNat 4096)).length
      = min (V.ino i).size.toNat 4096 := by
    rw [V.content_eq_take, length_take]
    omega
  have hfront : V.content (V.ino i) (min (V.ino i).size.toNat 4096)
      = (V.fileBytes i).take 4096 := by
    rw [V.content_eq_take, ← hlen, Nat.min_comm, ← take_take, List.take_length]
  unfold appended
  simp only
  generalize hadd : min size (4096 - min (V.ino i).size.toNat 4096) = add
  have hbuf := memBytes_appendBuf heap data (V.content (V.ino i) (min (V.ino i).size.toNat 4096)) add
  rw [hold] at hbuf
  have htail : add = min (4096 - (V.fileBytes i).length) size := by omega
  rw [hbuf, hfront, List.take_append, take_memBytes, ← htail]

end

/-! ## The file afterwards -/

namespace Shadowed

variable {V W : Vol} {i size : Nat} {n : Inode} {data : Mem} {t : UInt32} {m : List Note}

theorem fileBytes (h : Shadowed D g V i n data size t true m W) (hsize : size ≤ 2 ^ 32 - 512) :
    W.fileBytes i = memBytes data size := by
  cases h with
  | @replaced start n' _ X _ hstored _ hc =>
    have hino : W.ino i = n'.stamp t := by rw [hc.ino, setIno_ino, if_pos rfl]
    have hlen : (n'.stamp t).size = UInt32.ofNat size := hstored.length
    have hword : UInt32.size = 2 ^ 32 := rfl
    unfold Vol.fileBytes
    rw [hino, content_of_run (hstored.run.stamp t) hlen (fun b h1 h2 => ?_),
      writtenBytes_eq hsize, hlen,
      toNat_ofNat_of_lt' (by omega), Nat.min_self]
    · rfl
    · rw [hc.blk, setIno_blk, hstored.filling.blk, if_pos ⟨h1, h2⟩]

end Shadowed

/-! ## The call -/

/-- On a disk of `n` sectors the path resolves to an entry for inode `i`. -/
def ResolvesTo (n : Nat) (s : State) (path : List UInt8) (i : Nat) : Prop :=
  ∃ parent name, val n (resolveNamed path) s.g s.d = some (parent, name) ∧
    (nameKey name, i) ∈ (view s.g s.d).tree.kids parent

/-- In a tree, what `dir_find` returns is the only inode with an entry of the name. -/
theorem TreeState.eq_of_lookup (hs : TreeState s) {j : Nat}
    (hdir : (view s.g s.d).tree.dir parent)
    (hfind : lookup ((view s.g s.d).entries ((view s.g s.d).ino parent)) name = some j)
    (hmem : (nameKey name, i) ∈ (view s.g s.d).tree.kids parent) : j = i := by
  have hkids := kids_of_dir hdir
  have hmem' : (nameKey name, j) ∈ (view s.g s.d).tree.kids parent := by
    rw [hkids]
    exact mem_of_lookup hfind
  exact congrArg Prod.snd (List.inj_on_of_nodup_map (hs.shaped.names_nodup parent hdir) hmem' hmem rfl)

variable {n : Nat}

/-- If there is a run of blocks in the bitmap, the one that is found lies there as well. -/
theorem runsFit_of_clearRun (hg : Regular g) (hn : BitmapOn n g)
    (hrun : ∃ start, ClearRun g d k start) (hk : k ≤ 2 ^ 31) : RunsFit (Device.sound n) g d k := by
  refine .inr ?_
  by_cases h0 : k = 0
  · refine must_mono (fun r _ _ h start hr => ?_) (must_bitmapFind hg hk)
    have hlt := (h start hr).1
    omega
  obtain ⟨start, hstart⟩ := hrun
  obtain ⟨t, -, hval, hclear, -⟩ := bitmapFind_of_clearRun hn (by omega) hstart
  refine must_mono (fun r _ _ h start' hr => ?_) (must_val (readOnly_bitmapFind k))
  rw [hr, hval] at h
  rw [some.inj h]
  exact hclear.1

/-- A successful `nvfs_append` leaves the first 4096 bytes of the concatenation, and every other
    inode as it was. -/
theorem append_fileBytes (hs : IntactState s) (hn : BitmapOn n s.g)
    {size : Nat} (hi : ResolvesTo n s path i)
    (hback : (view s.g s.d).Backed i)
    (hroom : ∃ start, ClearRun s.g s.d
      (blocksFor (min (((view s.g s.d).fileBytes i).length + size) 4096)) start)
    (hret : val n (nvfsAppend env path data size) s.g s.d = true) :
    (view s.g (run n (nvfsAppend env path data size) s.g s.d).2.2).fileBytes i
        = ((view s.g s.d).fileBytes i ++ memBytes data size).take 4096 ∧
      ∀ j ≠ i, Unchanged (view s.g s.d)
        (view s.g (run n (nvfsAppend env path data size) s.g s.d).2.2) j := by
  obtain ⟨parent, name, hres, hmem⟩ := hi
  have hmust : (nvfsAppendNoted env path data size).must (Device.sound n) (fun r _ _ d' =>
      r = true → (view s.g d').fileBytes i
          = ((view s.g s.d).fileBytes i ++ memBytes data size).take 4096 ∧
        ∀ j ≠ i, Unchanged (view s.g s.d) (view s.g d') j) s.g s.d := by
    refine must_nvfsAppend_cases hs.regular hs.owned.dirsMarked
      (P := fun q => val n (resolveNamed path) s.g s.d = some q)
      (must_mono (fun r _ _ h q hq => h.symm.trans hq)
        (must_val (readOnly_resolveNamed path))) (fun _ _ h => nomatch h) ?_
    intro q j heap hfound hq buf hbuf
    obtain rfl : q = (parent, name) := some.inj (hq.symm.trans hres)
    obtain rfl : j = i := hs.eq_of_lookup hfound.dir hfound.entry hmem
    have hlive : (view s.g s.d).tree.live j :=
      hs.shaped.kid_live _ _ (Vol.child_of_lookup hfound.dir hfound.entry)
    have hrefs := hs.refs_lt hlive
    have hsize := appended_size hback heap data size
    have hfit : RunsFit (Device.sound n) s.g s.d
        (blocksFor (appended (view s.g s.d) ((view s.g s.d).ino j) heap data size).2) := by
      rw [hsize]
      exact runsFit_of_clearRun hs.regular hn hroom ((blocksFor_le _).trans (by decide))
    refine Noted.must_mono ?_ (must_shadowWrite hs.regular hrefs buf hfit (env.ticks 0))
    rintro r m g' d' ⟨-, hshadow⟩ rfl
    refine ⟨?_, fun c hc => hshadow.unchanged hs.owned hc⟩
    rw [hshadow.fileBytes (by omega), hbuf hrefs]
    exact appended_bytes hback heap data size
  have hplain := Noted.must_erase hmust
  rw [nvfsAppendNoted_erase] at hplain
  obtain ⟨-, hend⟩ := must_run hplain
  exact hend hret

/-- `nvfs_append` has put the data behind the content of file `i`, and changed no other. -/
structure Concatenates (V : Vol) (i : Nat) (data : Mem) (size : Nat) (W : Vol) : Prop where
  bytes : W.fileBytes i = V.fileBytes i ++ memBytes data size
  others : ∀ j, j ≠ i → Unchanged V W j

/-- For every intact volume on a disk without faults, every regular file and all data, with
    room for what is stored: a successful `nvfs_append` is concatenation exactly if the file and
    the data together have at most 4096 bytes. -/
theorem append_concat_iff {s : State} (hs : IntactState s) {n : Nat} (hn : BitmapOn n s.g)
    {env : Env} {path : List UInt8} {data : Mem} {size : UInt32} {i : Nat}
    (hi : ResolvesTo n s path i) (hback : (view s.g s.d).Backed i)
    (hroom : ∃ start, ClearRun s.g s.d
      (blocksFor (min (((view s.g s.d).fileBytes i).length + size.toNat) 4096)) start)
    (hret : val n (nvfsAppend env path data size.toNat) s.g s.d = true) :
    Concatenates (view s.g s.d) i data size.toNat
        (view s.g (run n (nvfsAppend env path data size.toNat) s.g s.d).2.2) ↔
      ((view s.g s.d).fileBytes i).length + size.toNat ≤ 4096 := by
  obtain ⟨hbytes, hothers⟩ := append_fileBytes hs hn hi hback hroom hret
  have hlen : ((view s.g s.d).fileBytes i ++ memBytes data size.toNat).length
      = ((view s.g s.d).fileBytes i).length + size.toNat := by simp
  refine ⟨fun h => ?_, fun hle => ⟨?_, hothers⟩⟩
  · have htake := congrArg List.length (hbytes.symm.trans h.bytes)
    rw [length_take, hlen] at htake
    omega
  · rw [hbytes, take_of_length_le (by omega)]

/-! ## Appending to a file of five bytes -/

/-- A call made at time zero, with a buffer from the heap. -/
def withHeap : Env := ⟨fun _ => 0, fun _ => ⟨0, 0⟩, some fun _ => 0⟩

/-- The path `/ab`. -/
def pathAb : List UInt8 := [slash, 97, 98]

/-- The image with the file `/AB` of five bytes and another one, as mknvfs.py makes it. -/
def twoFilesImage : Format.PyBytes :=
  (Format.create (List.map Char.toUpper) twoFiles).getD (Format.PyBytes.zeros 0)

/-- The driver after it mounted the image. -/
def fiveByteFile : State where
  g := mountedGlobals bootGlobals 0 0 (Format.imageDisk twoFilesImage 1)
  d := Format.imageDisk twoFilesImage

theorem wellFormed_fiveByteFile : WellFormed fiveByteFile :=
  have hcreate : Format.create (List.map Char.toUpper) twoFiles = some twoFilesImage := rfl
  (create_wellFormed (fun _ _ => rfl) hcreate fileName_twoFiles (by decide) (by decide) bootGlobals
    0 0).1

theorem fiveByteFile_bytes :
    (view fiveByteFile.g fiveByteFile.d).fileBytes 1 = [1, 2, 3, 4, 5] := by
  decide +kernel

theorem fiveByteFile_backed : (view fiveByteFile.g fiveByteFile.d).Backed 1 := by
  unfold Vol.Backed
  rw [fiveByteFile_bytes]
  decide +kernel

theorem fiveByteFile_resolves : ResolvesTo 32768 fiveByteFile pathAb 1 :=
  ⟨nvfsRootInode, [65, 66], by decide +kernel, by decide +kernel⟩

theorem fiveByteFile_clearRun {k : Nat} (hk : k ≤ 9) :
    ClearRun fiveByteFile.g fiveByteFile.d k 2 := by
  have hbits : ∀ j < 9, diskBit fiveByteFile.g fiveByteFile.d (2 + j) = false := by
    decide +kernel
  have hsectors := wellFormed_fiveByteFile.geometry.bitmapSectors
  exact ⟨by omega, fun j hj => hbits j (by omega)⟩

/-- Five bytes more are put behind the five. -/
theorem append_concat_iff_fiveBytes : ∃ s, IntactState s ∧
    (view s.g s.d).fileBytes 1 = [1, 2, 3, 4, 5] ∧
    val 32768 (nvfsAppend withHeap pathAb fiveBytes 5) s.g s.d = true ∧
    Concatenates (view s.g s.d) 1 fiveBytes 5
      (view s.g (run 32768 (nvfsAppend withHeap pathAb fiveBytes 5) s.g s.d).2.2) := by
  have hwf := wellFormed_fiveByteFile
  have hfive : (5 : UInt32).toNat = 5 := rfl
  have hret : val 32768 (nvfsAppend withHeap pathAb fiveBytes (5 : UInt32).toNat) fiveByteFile.g
      fiveByteFile.d = true := by decide +kernel
  have hiff := append_concat_iff hwf.intact hwf.geometry.bitmapOn fiveByteFile_resolves
    fiveByteFile_backed ⟨2, fiveByteFile_clearRun (by rw [fiveByteFile_bytes]; decide)⟩ hret
  rw [hfive] at hret hiff
  rw [fiveByteFile_bytes] at hiff
  exact ⟨fiveByteFile, hwf.intact, fiveByteFile_bytes, hret, hiff.mpr (by decide)⟩

/-- Of 4092 bytes appended to five the last is lost, and the call returns success. -/
theorem append_drops_last : ∃ s, IntactState s ∧ BitmapOn 32768 s.g ∧ ResolvesTo 32768 s pathAb 1 ∧
    (view s.g s.d).fileBytes 1 = [1, 2, 3, 4, 5] ∧
    (∃ start, ClearRun s.g s.d (blocksFor (5 + 4092)) start) ∧
    val 32768 (nvfsAppend withHeap pathAb fiveBytes 4092) s.g s.d = true ∧
    (view s.g (run 32768 (nvfsAppend withHeap pathAb fiveBytes 4092) s.g s.d).2.2).fileBytes 1
      ≠ [1, 2, 3, 4, 5] ++ memBytes fiveBytes 4092 := by
  have hwf := wellFormed_fiveByteFile
  have hret : val 32768 (nvfsAppend withHeap pathAb fiveBytes 4092) fiveByteFile.g fiveByteFile.d
      = true := by decide +kernel
  have hbytes := (append_fileBytes hwf.intact hwf.geometry.bitmapOn fiveByteFile_resolves
    fiveByteFile_backed ⟨2, fiveByteFile_clearRun (by rw [fiveByteFile_bytes]; decide)⟩ hret).1
  refine ⟨fiveByteFile, hwf.intact, hwf.geometry.bitmapOn, fiveByteFile_resolves,
    fiveByteFile_bytes, ⟨2, fiveByteFile_clearRun (by decide)⟩, hret, fun hconcat => ?_⟩
  have hlen := congrArg List.length (hbytes.symm.trans hconcat)
  rw [fiveByteFile_bytes, length_take, length_append, memBytes_length] at hlen
  simp at hlen

end Noverix.Nvfs
