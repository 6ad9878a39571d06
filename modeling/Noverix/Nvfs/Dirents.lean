/-
  Directory sectors as lists of entries.  A sector has sixteen slots; its
  entries are the used ones, in order (`sectorEntries`).  Filling a free slot
  inserts an entry into the list, clearing a slot deletes one, and the driver's
  search for a name is a search of the list for the name's first 27 bytes.
-/

import Noverix.Lib.Loops
import Noverix.Nvfs.Directory

namespace Noverix.Nvfs

open Lib

variable {s : Sector} {name : List UInt8} {k i e child : Nat} {nd : Mem}

/-- A directory entry: its name and its inode number. -/
abbrev Entry := List UInt8 × Nat

/-- The entry in slot `e`, if it is used. -/
def slotEntry (s : Sector) (e : Nat) : Option Entry :=
  if slotInode s e = 0 then none else some (slotName s e, slotInode s e)

/-- The entries of a directory sector. -/
def sectorEntries (s : Sector) : List Entry := (List.range direntsPerSec).filterMap (slotEntry s)

theorem any_slotInode {p : Nat → Bool} (hp : p 0 = false) (s : Sector) :
    (range direntsPerSec).any (fun e => p (slotInode s e))
      = (sectorEntries s).any fun e => p e.2 := by
  unfold sectorEntries
  rw [List.any_filterMap]
  congr 1
  funext e
  unfold slotEntry
  by_cases h0 : slotInode s e = 0
  · rw [if_pos h0, h0, hp]
  · rw [if_neg h0]

theorem sectorEntries_eq_nil
    (h : ((range direntsPerSec).any fun e => slotInode s e != 0) = false) :
    sectorEntries s = [] := by
  refine List.filterMap_eq_nil_iff.mpr fun e he => if_pos ?_
  simpa using List.any_eq_false.mp h e he

/-- The part of a name that is stored and compared. -/
def nameKey (name : List UInt8) : List UInt8 := name.take nvfsMaxName

/-- A C string: no byte is zero. -/
def NulFree (name : List UInt8) : Prop := ∀ c ∈ name, c ≠ 0

theorem nulFree_nil : NulFree [] := nofun

theorem nulFree_takeWhile (s : List UInt8) : NulFree (s.takeWhile (· != 0)) := by
  intro c hc
  have hall := List.all_takeWhile (p := (· != 0)) (l := s)
  rw [List.all_eq_true] at hall
  simpa using hall c hc

theorem slotName_nulFree (s : Sector) (e : Nat) : NulFree (slotName s e) := nulFree_takeWhile _

theorem NulFree.nameKey (h : NulFree name) : NulFree (nameKey name) :=
  fun c hc => h c (mem_of_mem_take hc)

theorem nameKey_length (name : List UInt8) : (nameKey name).length = min name.length 27 := by
  simp [nameKey, Nat.min_comm]

theorem nameKey_getD (hk : k < min name.length 27) :
    (nameKey name).getD k 0 = name.getD k 0 := by
  rw [List.getD_eq_getElem?_getD, List.getD_eq_getElem?_getD, nameKey, List.getElem?_take,
    if_pos (by simp only [nvfsMaxName]; omega)]

/-! ## Comparing names -/

/-- The driver's comparison of a slot with a name is equality of the stored name
    with the name's key. -/
theorem slotMatch_iff (s : Sector) (e : Nat) (hn : NulFree name) :
    slotMatch s e name = true ↔ slotName s e = nameKey name := by
  have hlen := nameKey_length name
  unfold slotMatch slotName
  rw [takeWhile_map_range_eq_iff hn.nameKey (by omega), hlen]
  simp only [nvfsMaxName, Bool.and_eq_true, List.all_eq_true, mem_range, beq_iff_eq]
  refine and_congr (forall_congr' fun k => ?_) .rfl
  constructor
  · intro h hk
    rw [nameKey_getD hk]
    exact h hk
  · intro h hk
    rw [← nameKey_getD hk]
    exact h hk

theorem find_sectorEntries (s : Sector) (hn : NulFree name) :
    (sectorEntries s).find? (fun e => e.1 == nameKey name)
      = (findSlot s name).map fun e => (slotName s e, slotInode s e) := by
  have hpred : (fun e => Option.any (fun e : Entry => e.1 == nameKey name) (slotEntry s e))
      = fun e => slotInode s e != 0 && slotMatch s e name := by
    funext e
    unfold slotEntry
    by_cases h0 : slotInode s e = 0
    · simp [h0]
    rw [if_neg h0]
    cases hm : slotMatch s e name with
    | true => simp [h0, (slotMatch_iff s e hn).mp hm]
    | false =>
      have hne : slotName s e ≠ nameKey name := fun h => by
        rw [(slotMatch_iff s e hn).mpr h] at hm
        cases hm
      simp [hne]
  unfold sectorEntries findSlot
  rw [List.find?_filterMap, hpred]
  cases hf : (range direntsPerSec).find? fun e => slotInode s e != 0 && slotMatch s e name with
  | none => rfl
  | some e =>
    have h0 : slotInode s e ≠ 0 := by
      have := find?_some hf
      simp only [Bool.and_eq_true, bne_iff_ne] at this
      exact this.1
    simp [slotEntry, h0]

theorem find_sectorEntries_inode (s : Sector) (h0 : i ≠ 0) :
    (sectorEntries s).find? (fun e => e.2 == i)
      = ((range direntsPerSec).find? fun e => slotInode s e == i).map
          fun e => (slotName s e, slotInode s e) := by
  have hpred : (fun e => Option.any (fun e : Entry => e.2 == i) (slotEntry s e))
      = fun e => slotInode s e == i := by
    funext e
    unfold slotEntry
    by_cases hz : slotInode s e = 0
    · rw [if_pos hz, hz]
      simpa using Ne.symm h0
    rw [if_neg hz]
    rfl
  unfold sectorEntries
  rw [List.find?_filterMap, hpred]
  cases hf : (range direntsPerSec).find? fun e => slotInode s e == i with
  | none => rfl
  | some e =>
    have hi : slotInode s e = i := by simpa using find?_some hf
    rw [bind_some, slotEntry, if_neg (hi ▸ h0)]
    rfl

/-! ## Changing slots -/

theorem putSlot_byte_same (he : e < 16) (hk : k < 32) :
    (putSlot s e nd).byte (e * 32 + k) = nd k := by
  unfold putSlot
  simp only [nvfsDirentSize]
  rw [byte_ofMem (by omega), if_pos (by omega), Nat.add_sub_cancel_left]

theorem putSlot_byte_other (hi : i < 512)
    (h : i < e * 32 ∨ e * 32 + 32 ≤ i) : (putSlot s e nd).byte i = s.byte i := by
  unfold putSlot
  simp only [nvfsDirentSize]
  rw [byte_ofMem hi, if_neg (by omega)]

theorem slotEntry_congr {t : Sector} (h : ∀ i, e * 32 ≤ i → i < e * 32 + 32 → t.byte i = s.byte i) :
    slotEntry t e = slotEntry s e := by
  have hi : slotInode t e = slotInode s e := load32_congr fun i h1 h2 =>
    h i (by simp only [nvfsDirentSize] at h1; omega) (by simp only [nvfsDirentSize] at h2; omega)
  have hname : slotName t e = slotName s e := by
    unfold slotName
    rw [map_congr_left fun k hk => ?_]
    have := mem_range.mp hk
    exact h _ (by simp only [nvfsDirentSize]; omega) (by simp only [nvfsDirentSize]; omega)
  unfold slotEntry
  rw [hi, hname]

theorem slotEntry_putSlot_same (s : Sector) (he : e < 16)
    (hn : NulFree name) (h0 : child ≠ 0) (hc : child < 2 ^ 32) :
    slotEntry (putSlot s e (direntBytes name child)) e = some (nameKey name, child) := by
  have hi : slotInode (putSlot s e (direntBytes name child)) e = child := by
    have hload : load32 (putSlot s e (direntBytes name child)).byte (e * 32 + 28)
        = load32 (direntBytes name child) 28 := load32_shift fun k hk => by
      rw [Nat.add_assoc, putSlot_byte_same he (by omega)]
    unfold slotInode direntBytes at *
    rw [hload, load32_store32_same, mod_eq_of_lt hc]
  have hname : slotName (putSlot s e (direntBytes name child)) e = nameKey name := by
    have hlen := nameKey_length name
    -- below the inode number the entry is the name, padded with zeros
    have hbyte : ∀ k < 28, (putSlot s e (direntBytes name child)).byte (e * nvfsDirentSize + k)
        = if k < min name.length nvfsMaxName then name.getD k 0 else 0 := by
      intro k hk
      simp only [nvfsDirentSize]
      rw [putSlot_byte_same he (by omega)]
      exact store32_of_disjoint _ (by omega)
    unfold slotName
    rw [takeWhile_map_range_eq_iff hn.nameKey (by omega), hlen]
    refine ⟨fun k hk => ?_, ?_⟩
    · rw [hbyte k (by omega), if_pos hk, nameKey_getD hk]
    · rw [hbyte _ (by omega), if_neg (by simp only [nvfsMaxName]; omega)]
  unfold slotEntry
  rw [hi, hname, if_neg h0]

theorem sectorEntries_putSlot (hfree : freeSlot s = some e) (hn : NulFree name) (h0 : child ≠ 0)
    (hc : child < 2 ^ 32) :
    ∃ l1 l2, sectorEntries s = l1 ++ l2 ∧
      sectorEntries (putSlot s e (direntBytes name child)) = l1 ++ (nameKey name, child) :: l2 := by
  have he : e < 16 := mem_range.mp (mem_of_find?_eq_some hfree)
  have hzero : slotEntry s e = none := if_pos (by simpa using find?_some hfree)
  obtain ⟨l1, l2, h1, h2⟩ := filterMap_range_split (f := slotEntry s)
    (g := slotEntry (putSlot s e (direntBytes name child))) (n := direntsPerSec) he
    fun k hk hne => slotEntry_congr fun i hi1 hi2 => by
      have hk : k < 16 := hk
      exact putSlot_byte_other (by omega) (by omega)
  refine ⟨l1, l2, ?_, ?_⟩
  · rw [sectorEntries, h1, hzero]
    simp
  · rw [sectorEntries, h2, slotEntry_putSlot_same s he hn h0 hc]
    simp

/-- `dir_remove` deletes the entry it finds. -/
theorem sectorEntries_clearSlot (hfind : findSlot s name = some e) :
    ∃ l1 l2, sectorEntries s = l1 ++ (slotName s e, slotInode s e) :: l2 ∧
      sectorEntries (clearSlot s e) = l1 ++ l2 := by
  have he : e < 16 := mem_range.mp (mem_of_find?_eq_some hfind)
  have hused : slotInode s e ≠ 0 := by
    have := find?_some hfind
    simp only [Bool.and_eq_true, bne_iff_ne] at this
    exact this.1
  have hzero : slotInode (clearSlot s e) e = 0 := by
    unfold slotInode clearSlot
    simp only [nvfsDirentSize]
    rw [load32_ofMem (by omega)]
    exact (load32_store32_same _ _ _).trans (Nat.zero_mod _)
  obtain ⟨l1, l2, h1, h2⟩ := filterMap_range_split (f := slotEntry s)
    (g := slotEntry (clearSlot s e)) (n := direntsPerSec) he
    fun k hk hne => slotEntry_congr fun i hi1 hi2 => by
      have hk : k < 16 := hk
      unfold clearSlot
      rw [byte_ofMem (by omega)]
      exact store32_of_disjoint _ (by simp only [nvfsDirentSize]; omega)
  refine ⟨l1, l2, ?_, ?_⟩
  · rw [sectorEntries, h1, slotEntry, if_neg hused]
    simp
  · rw [sectorEntries, h2, slotEntry, if_pos hzero]
    simp

theorem sectorEntries_length_of_full (h : freeSlot s = none) :
    (sectorEntries s).length = 16 := by
  have hused : ∀ e ∈ range direntsPerSec, slotEntry s e
      = some (slotName s e, slotInode s e) := by
    intro e he
    have := find?_eq_none.mp h e he
    exact if_neg (by simpa using this)
  rw [sectorEntries, filterMap_congr hused, List.filterMap_eq_map', length_map,
    length_range]
  rfl

theorem sectorEntries_zero : sectorEntries Sector.zero = [] := by
  have hnone : ∀ e ∈ range direntsPerSec, slotEntry Sector.zero e = none := fun e _ =>
    if_pos (by simp [slotInode, load32])
  rw [sectorEntries, filterMap_congr hnone]
  simp

theorem sectorEntries_putSlot_zero (hn : NulFree name)
    (h0 : child ≠ 0) (hc : child < 2 ^ 32) :
    sectorEntries (putSlot Sector.zero 0 (direntBytes name child)) = [(nameKey name, child)] := by
  have hfree : freeSlot Sector.zero = some 0 := by
    unfold freeSlot
    rw [find?_range_eq_some]
    exact ⟨by simp [slotInode, load32], by decide, fun j hj => absurd hj (by omega)⟩
  obtain ⟨l1, l2, h1, h2⟩ := sectorEntries_putSlot hfree hn h0 hc
  rw [sectorEntries_zero] at h1
  obtain ⟨rfl, rfl⟩ := append_eq_nil_iff.mp h1.symm
  exact h2

end Noverix.Nvfs
