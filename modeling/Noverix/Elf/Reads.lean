/-
  What `elf_exec` reads of `elf_load_buf` (kernel/elf.c): the header, the program
  headers and the sources of the copies, in the order of the code and up to the
  check that rejects the file.  The values are those of `Image.validate` and
  `Image.loadStores`; every place is inside the file.
-/

import Noverix.Elf.Image
import Noverix.Lib.Reads

namespace Noverix.Elf.Image

open Lib Lib.Reads

variable (f : Image)

/-! ## The model -/

def read8 (a : Nat) : Reads UInt8 := ⟨f.buf a, [a]⟩

def read16 (a : Nat) : Reads Nat := ⟨load16 f.buf a, [a, a + 1]⟩

def read32 (a : Nat) : Reads Nat := ⟨load32 f.buf a, [a, a + 1, a + 2, a + 3]⟩

/-- `ph_table + i * ehdr->e_phentsize`, as an index of the file. -/
def readPhdr (i : Nat) : Reads Nat := do
  let ePhoff ← f.read32 28
  let ePhentsize ← f.read16 42
  return ePhoff + i * ePhentsize

/-- The reads of the checks on one program header. -/
def checkSegmentReads (i : Nat) : Reads (Option ElfError) := do
  let phdr ← f.readPhdr i
  let pType ← f.read32 phdr
  if pType ≠ ptLoad then return none
  let pVaddr ← f.read32 (phdr + 8)
  if pVaddr < userElfBase ∨ userElfLimit ≤ pVaddr then return some .loadAddress
  let pMemsz ← f.read32 (phdr + 20)
  if userStackTop < u32 (pVaddr + pMemsz) then return some .pastUserRange
  let pOffset ← f.read32 (phdr + 4)
  let pFilesz ← f.read32 (phdr + 16)
  if u32 (pOffset + pFilesz) < pOffset ∨ f.size.toNat < u32 (pOffset + pFilesz) then
    return some .pastFile
  if pMemsz < pFilesz then return some .fileszMemsz
  return none

/-- The reads of the checks.  `e_phoff` and `e_phnum` are also printed before they are
    checked. -/
def validateReads : Reads (Option ElfError) := do
  if f.size ≤ 0 then return some .read
  if f.size < 52 then return some .tooSmall
  let magic ← f.read32 0
  if magic ≠ 0x464C457F then return some .magic
  let elfClass ← f.read8 4
  if elfClass ≠ 1 then return some .elfClass
  let eMachine ← f.read16 18
  if eMachine ≠ 3 then return some .machine
  let eEntry ← f.read32 24
  if eEntry < userElfBase ∨ userElfLimit ≤ eEntry then return some .entryPoint
  let ePhoff ← f.read32 28
  let ePhnum ← f.read16 44
  let ePhentsize ← f.read16 42
  if 0xFFFF < ePhnum ∨ 0xFFFF < ePhentsize ∨ 0xFFFFFFFF - ePhoff < ePhnum * ePhentsize then
    return some .tableOverflow
  if f.size.toNat < u32 (ePhoff + ePhnum * ePhentsize) then return some .tableBounds
  if ePhentsize < 32 then return some .entrySize
  first f.checkSegmentReads (List.range ePhnum)

/-- The reads of the load loop for one program header.  `lib_memset` reads nothing. -/
def segmentReads (i : Nat) : Reads (List (Nat × UInt8)) := do
  let phdr ← f.readPhdr i
  let pType ← f.read32 phdr
  if pType ≠ ptLoad then return []
  let pOffset ← f.read32 (phdr + 4)
  let pVaddr ← f.read32 (phdr + 8)
  let pFilesz ← f.read32 (phdr + 16)
  let pMemsz ← f.read32 (phdr + 20)
  let copied ← each (fun k => do
    let b ← f.read8 (pOffset + k)
    return (u32 (pVaddr + k), b)) (List.range pFilesz)
  return copied ++ if pFilesz < pMemsz then
    (List.range (pMemsz - pFilesz)).map fun k => (u32 (u32 (pVaddr + pFilesz) + k), 0) else []

/-- The reads of the load loop, and the last one, of the entry point for the new task. -/
def loadReads : Reads (List (Nat × UInt8) × Nat) := do
  let ePhnum ← f.read16 44
  let stores ← each f.segmentReads (List.range ePhnum)
  let eEntry ← f.read32 24
  return (stores.flatten, eEntry)

/-! ## The values are those of the model without reads -/

theorem value_checkSegmentReads (i : Nat) : (f.checkSegmentReads i).value = f.checkSegment i := by
  simp only [checkSegmentReads, value_bind, apply_ite Reads.value, value_pure]
  rfl

theorem value_validateReads : f.validateReads.value = f.validate := by
  simp only [validateReads, value_bind, apply_ite Reads.value, value_pure, value_first,
    value_checkSegmentReads]
  rfl

theorem value_segmentReads (i : Nat) : (f.segmentReads i).value = f.segmentStores i := by
  simp only [segmentReads, value_bind, apply_ite Reads.value, value_pure, value_each, ne_eq,
    ite_not]
  rfl

theorem value_loadReads : f.loadReads.value = (f.loadStores, f.eEntry) := by
  simp only [loadReads, value_bind, value_pure, value_each, value_segmentReads]
  rfl

/-! ## The places are inside the file -/

variable {f} {n a i : Nat}

theorem below_read8 (h : a < n) : Below n (f.read8 a) := by
  intro b hb
  rw [mem_singleton.mp hb]
  exact h

theorem below_read16 (h : a + 1 < n) : Below n (f.read16 a) := by
  intro b hb
  simp only [read16, mem_cons, not_mem_nil, or_false] at hb
  omega

theorem below_read32 (h : a + 3 < n) : Below n (f.read32 a) := by
  intro b hb
  simp only [read32, mem_cons, not_mem_nil, or_false] at hb
  omega

theorem below_readPhdr (hn : 52 ≤ n) : Below n (f.readPhdr i) :=
  below_bind (below_read32 (by omega)) (below_bind (below_read16 (by omega)) (below_pure _))

/-- The table is inside the file and its entries are large enough, so each program header is
    inside the file. -/
theorem phdr_inside (htable : f.ePhoff + f.ePhnum * f.ePhentsize ≤ n) (hent : 32 ≤ f.ePhentsize)
    (hi : i < f.ePhnum) : f.phdr i + 32 ≤ n := by
  have hrows : (i + 1) * f.ePhentsize ≤ f.ePhnum * f.ePhentsize := Nat.mul_le_mul_right _ hi
  have hrow : (i + 1) * f.ePhentsize = i * f.ePhentsize + f.ePhentsize := Nat.succ_mul i _
  unfold phdr
  omega

/-- The first checks bound the table by the file: neither its size nor its end wraps around. -/
theorem table_inside (hoverflow : ¬ (0xFFFF < f.ePhnum ∨ 0xFFFF < f.ePhentsize ∨
      0xFFFFFFFF - f.ePhoff < f.ePhnum * f.ePhentsize))
    (hbounds : ¬ f.size.toNat < u32 (f.ePhoff + f.ePhnum * f.ePhentsize)) :
    f.ePhoff + f.ePhnum * f.ePhentsize ≤ f.size.toNat := by
  have hoff : f.ePhoff < 2 ^ 32 := load32_lt _ _
  rw [u32_of_lt (by omega)] at hbounds
  omega

theorem below_checkSegmentReads (hn : 52 ≤ n) (hphdr : f.phdr i + 32 ≤ n) :
    Below n (f.checkSegmentReads i) := by
  have hfield : ∀ k, k + 4 ≤ 32 → Below n (f.read32 (f.phdr i + k)) := fun k hk =>
    below_read32 (by omega)
  refine below_bind (below_readPhdr hn) (below_bind (hfield 0 (by omega)) ?_)
  split
  · exact below_pure _
  refine below_bind (hfield 8 (by omega)) ?_
  split
  · exact below_pure _
  refine below_bind (hfield 20 (by omega)) ?_
  split
  · exact below_pure _
  refine below_bind (hfield 4 (by omega)) (below_bind (hfield 16 (by omega)) ?_)
  split
  · exact below_pure _
  split
  · exact below_pure _
  · exact below_pure _

theorem below_validateReads : Below f.size.toNat f.validateReads := by
  unfold validateReads
  split
  · exact below_pure _
  split
  · exact below_pure _
  next hsmall =>
  have hn : 52 ≤ f.size.toNat := by omega
  refine below_bind (below_read32 (by omega)) ?_
  split
  · exact below_pure _
  refine below_bind (below_read8 (by omega)) ?_
  split
  · exact below_pure _
  refine below_bind (below_read16 (by omega)) ?_
  split
  · exact below_pure _
  refine below_bind (below_read32 (by omega)) ?_
  split
  · exact below_pure _
  refine below_bind (below_read32 (by omega)) (below_bind (below_read16 (by omega))
    (below_bind (below_read16 (by omega)) ?_))
  split
  · exact below_pure _
  next hoverflow =>
  split
  · exact below_pure _
  next hbounds =>
  split
  · exact below_pure _
  next hent =>
  refine below_first fun i hi => below_checkSegmentReads hn ?_
  exact phdr_inside (table_inside hoverflow hbounds) (not_lt.mp hent)
    (mem_range.mp hi)

/-- What the load loop relies on: a header, a table inside the file, and entries that hold a
    program header. -/
theorem table_of_validate (h : f.validate = none) :
    52 ≤ f.size.toNat ∧ f.ePhoff + f.ePhnum * f.ePhentsize ≤ f.size.toNat ∧
      32 ≤ f.ePhentsize := by
  unfold validate at h
  iterate 6
    split at h
    · cases h
  split at h
  · cases h
  next hoverflow =>
  split at h
  · cases h
  next hbounds =>
  split at h
  · cases h
  · exact ⟨by omega, table_inside hoverflow hbounds, by omega⟩

/-- The source of a copy is inside the file: its end does not wrap around. -/
theorem source_of_check (h : f.checkSegment i = none) (hload : f.pType i = ptLoad) :
    f.pOffset i + f.pFilesz i ≤ f.size.toNat := by
  have hfilesz : f.pFilesz i < 2 ^ 32 := load32_lt _ _
  unfold checkSegment at h
  rw [if_neg (not_not.mpr hload)] at h
  iterate 2
    split at h
    · cases h
  split at h
  · cases h
  next hsource =>
  unfold u32 at hsource
  omega

theorem below_segmentReads (hn : 52 ≤ n) (hphdr : f.phdr i + 32 ≤ n)
    (hsource : f.pType i = ptLoad → f.pOffset i + f.pFilesz i ≤ n) :
    Below n (f.segmentReads i) := by
  have hfield : ∀ k, k + 4 ≤ 32 → Below n (f.read32 (f.phdr i + k)) := fun k hk =>
    below_read32 (by omega)
  refine below_bind (below_readPhdr hn) (below_bind (hfield 0 (by omega)) ?_)
  split
  · exact below_pure _
  next hload =>
  refine below_bind (hfield 4 (by omega)) (below_bind (hfield 8 (by omega))
    (below_bind (hfield 16 (by omega)) (below_bind (hfield 20 (by omega)) ?_)))
  refine below_bind (below_each fun k hk => ?_) (below_pure _)
  have hk' : k < f.pFilesz i := mem_range.mp hk
  have hend := hsource (not_not.mp hload)
  exact below_bind (below_read8 (show f.pOffset i + k < n by omega)) (below_pure _)

theorem below_loadReads (h : f.validate = none) : Below f.size.toNat f.loadReads := by
  obtain ⟨hn, htable, hent⟩ := table_of_validate h
  refine below_bind (below_read16 (by omega)) (below_bind (below_each fun i hi => ?_)
    (below_bind (below_read32 (by omega)) (below_pure _)))
  have hi' : i < f.ePhnum := mem_range.mp hi
  exact below_segmentReads hn (phdr_inside htable hent hi')
    (source_of_check (checkSegment_of_validate h hi'))

/-- `elf_exec` reads only the file: the places that the checks read, on every path to a
    rejection or to acceptance, and those that the load loop reads of a file that is
    accepted, are below the file's size. -/
theorem elf_reads_inside (f : Image) :
    (f.validateReads.value = f.validate ∧ ∀ a ∈ f.validateReads.places, (a : Int) < f.size) ∧
      (f.validate = none → f.loadReads.value = (f.loadStores, f.eEntry) ∧
        ∀ a ∈ f.loadReads.places, (a : Int) < f.size) := by
  refine ⟨⟨value_validateReads f, fun a ha => ?_⟩, fun h => ⟨value_loadReads f, fun a ha => ?_⟩⟩
  · have hlt := below_validateReads a ha
    omega
  · have hlt := below_loadReads h a ha
    omega

theorem elf_reads_inside_small : (oneSegment [0x10, 0, 0, 0]).validate = none ∧
    ∀ a ∈ (oneSegment [0x10, 0, 0, 0]).loadReads.places, (a : Int) < 84 := by
  have hvalid : (oneSegment [0x10, 0, 0, 0]).validate = none := by decide
  exact ⟨hvalid, ((elf_reads_inside _).2 hvalid).2⟩

end Noverix.Elf.Image
