/-
  The program files that `elf_exec` accepts, and where it loads them
  (kernel/elf.c).

  The file is what `nvfs_read` leaves in `elf_load_buf`.  All its fields are
  32-bit words that the file chooses, and every sum of them wraps around.  The
  stores of the load loop are listed here as the code issues them, before any of
  them is translated.
-/

import Noverix.Lib.Word

namespace Noverix.Elf

open Lib

/-! ## The model -/

abbrev userElfBase : Nat := 0x00800000

abbrev userElfLimit : Nat := 0x00900000

abbrev userStackTop : Nat := 0x00A00000

abbrev ptLoad : Nat := 1

/-- What `nvfs_read` returns, and the bytes of `elf_load_buf`. -/
structure Image where
  size : Int
  buf : Mem

/-- An `unsigned short` in memory. -/
def load16 (m : Mem) (a : Nat) : Nat := (m a).toNat + 256 * (m (a + 1)).toNat

namespace Image

variable (f : Image)

/-! ### Header fields -/

def eMachine : Nat := load16 f.buf 18

def eEntry : Nat := load32 f.buf 24

def ePhoff : Nat := load32 f.buf 28

def ePhentsize : Nat := load16 f.buf 42

def ePhnum : Nat := load16 f.buf 44

/-- Where program header `i` is in the file. -/
def phdr (i : Nat) : Nat := f.ePhoff + i * f.ePhentsize

def pType (i : Nat) : Nat := load32 f.buf (f.phdr i)

def pOffset (i : Nat) : Nat := load32 f.buf (f.phdr i + 4)

def pVaddr (i : Nat) : Nat := load32 f.buf (f.phdr i + 8)

def pFilesz (i : Nat) : Nat := load32 f.buf (f.phdr i + 16)

def pMemsz (i : Nat) : Nat := load32 f.buf (f.phdr i + 20)

end Image

/-- Why `elf_exec` returns -1. -/
inductive ElfError where
  | read
  | tooSmall
  | magic
  | elfClass
  | machine
  | entryPoint
  | tableOverflow
  | tableBounds
  | entrySize
  | loadAddress
  | pastUserRange
  | pastFile
  | fileszMemsz
  | pageDirectory
  | userPages
  | mapPage
  | allocTask
  | kernelStack
deriving DecidableEq

/-- What `elf_exec` prints. -/
def ElfError.text : ElfError → String
  | read => "Error: Failed to read file\n"
  | tooSmall => "Error: File too small\n"
  | magic => "Error: Not a valid ELF file\n"
  | elfClass => "Error: 64-bit ELF not supported\n"
  | machine => "Error: Not an x86 executable\n"
  | entryPoint => "Error: Invalid ELF entry point\n"
  | tableOverflow => "Error: Program header table overflow\n"
  | tableBounds => "Error: Program Header Table out of file bounds\n"
  | entrySize => "Error: Program header entry size too small\n"
  | loadAddress => "Error: Invalid ELF load address\n"
  | pastUserRange => "Error: ELF segment extends past user range\n"
  | pastFile => "Error: ELF segment extends past file\n"
  | fileszMemsz => "Error: p_filesz > p_memsz\n"
  | pageDirectory => "Error: Failed to allocate page directory\n"
  | userPages => "Error: Out of memory for user pages\n"
  | mapPage => "Error: Failed to map user page\n"
  | allocTask => "Error: Failed to allocate task\n"
  | kernelStack => "Error: Failed to allocate kernel stack\n"

namespace Image

variable (f : Image)

/-- The checks of `elf_exec` on one program header. -/
def checkSegment (i : Nat) : Option ElfError :=
  if f.pType i ≠ ptLoad then none
  else if f.pVaddr i < userElfBase ∨ userElfLimit ≤ f.pVaddr i then some .loadAddress
  else if userStackTop < u32 (f.pVaddr i + f.pMemsz i) then some .pastUserRange
  else if u32 (f.pOffset i + f.pFilesz i) < f.pOffset i ∨
      f.size.toNat < u32 (f.pOffset i + f.pFilesz i) then some .pastFile
  else if f.pMemsz i < f.pFilesz i then some .fileszMemsz
  else none

/-- The checks of `elf_exec`, up to the first that fails. -/
def validate : Option ElfError :=
  if f.size ≤ 0 then some .read
  else if f.size < 52 then some .tooSmall
  else if load32 f.buf 0 ≠ 0x464C457F then some .magic
  else if f.buf 4 ≠ 1 then some .elfClass
  else if f.eMachine ≠ 3 then some .machine
  else if f.eEntry < userElfBase ∨ userElfLimit ≤ f.eEntry then some .entryPoint
  else if 0xFFFF < f.ePhnum ∨ 0xFFFF < f.ePhentsize ∨
      0xFFFFFFFF - f.ePhoff < f.ePhnum * f.ePhentsize then some .tableOverflow
  else if f.size.toNat < u32 (f.ePhoff + f.ePhnum * f.ePhentsize) then some .tableBounds
  else if f.ePhentsize < 32 then some .entrySize
  else (List.range f.ePhnum).findSome? f.checkSegment

/-- The stores of the load loop for one program header: `lib_memcpy` from the file, then
    `lib_memset` for the rest of the segment. -/
def segmentStores (i : Nat) : List (Nat × UInt8) :=
  if f.pType i = ptLoad then
    (List.range (f.pFilesz i)).map (fun k => (u32 (f.pVaddr i + k), f.buf (f.pOffset i + k))) ++
      if f.pFilesz i < f.pMemsz i then
        (List.range (f.pMemsz i - f.pFilesz i)).map fun k =>
          (u32 (u32 (f.pVaddr i + f.pFilesz i) + k), 0)
      else []
  else []

/-- The stores of the load loop. -/
def loadStores : List (Nat × UInt8) := (List.range f.ePhnum).flatMap f.segmentStores

/-- The store is to the user's memory. -/
def InUserRange (store : Nat × UInt8) : Prop := userElfBase ≤ store.1 ∧ store.1 < userStackTop

/-! ## What the checks establish -/

variable {f}
  {i : Nat}

theorem checkSegment_of_validate (h : f.validate = none) (hi : i < f.ePhnum) :
    f.checkSegment i = none := by
  unfold validate at h
  -- only the last branch, the loop over the headers, yields `none`
  iterate 9
    split at h
    · cases h
  exact List.findSome?_eq_none_iff.mp h i (mem_range.mpr hi)

/-- A segment that passes the checks.  The end of the segment is a wrapped sum. -/
theorem segment_of_check (h : f.checkSegment i = none) (hload : f.pType i = ptLoad) :
    userElfBase ≤ f.pVaddr i ∧ f.pVaddr i < userElfLimit ∧
      u32 (f.pVaddr i + f.pMemsz i) ≤ userStackTop ∧ f.pFilesz i ≤ f.pMemsz i := by
  unfold checkSegment at h
  rw [if_neg (not_not.mpr hload)] at h
  split at h
  · cases h
  split at h
  · cases h
  split at h
  · cases h
  split at h
  · cases h
  · omega

/-- The load loop stores to every address of the segment, and to no other. -/
theorem mem_segmentStores_iff {i a : Nat} (hload : f.pType i = ptLoad)
    (hsizes : f.pFilesz i ≤ f.pMemsz i) :
    (∃ b, (a, b) ∈ f.segmentStores i) ↔ ∃ k, k < f.pMemsz i ∧ a = u32 (f.pVaddr i + k) := by
  have hzero : ∀ k, u32 (u32 (f.pVaddr i + f.pFilesz i) + k)
      = u32 (f.pVaddr i + (f.pFilesz i + k)) := by
    intro k
    unfold u32
    omega
  unfold segmentStores
  rw [if_pos hload]
  constructor
  · rintro ⟨b, hmem⟩
    rcases mem_append.mp hmem with hcopy | hfill
    · obtain ⟨k, hk, heq⟩ := mem_map.mp hcopy
      have hk' := mem_range.mp hk
      exact ⟨k, by omega, (congrArg Prod.fst heq).symm⟩
    split at hfill
    · obtain ⟨k, hk, heq⟩ := mem_map.mp hfill
      have hk' := mem_range.mp hk
      exact ⟨f.pFilesz i + k, by omega, ((congrArg Prod.fst heq).symm.trans (hzero k))⟩
    · cases hfill
  · rintro ⟨k, hk, rfl⟩
    by_cases hcopy : k < f.pFilesz i
    · exact ⟨_, mem_append_left _ (mem_map.mpr ⟨k, mem_range.mpr hcopy, rfl⟩)⟩
    refine ⟨0, mem_append_right _ ?_⟩
    rw [if_pos (by omega)]
    refine mem_map.mpr ⟨k - f.pFilesz i, mem_range.mpr (by omega), ?_⟩
    have hk' : f.pFilesz i + (k - f.pFilesz i) = k := by omega
    rw [hzero, hk']

/-- A segment whose end wraps around includes the address right after the user's memory. -/
theorem stackTop_mem_of_wrap (h : f.checkSegment i = none) (hload : f.pType i = ptLoad)
    (hwrap : 2 ^ 32 ≤ f.pVaddr i + f.pMemsz i) : ∃ b, (userStackTop, b) ∈ f.segmentStores i := by
  obtain ⟨hbase, hlimit, -, hsizes⟩ := segment_of_check h hload
  have htop : userStackTop = 0xA00000 := rfl
  have hlim : userElfLimit = 0x900000 := rfl
  refine (mem_segmentStores_iff hload hsizes).mpr ⟨userStackTop - f.pVaddr i, by omega, ?_⟩
  rw [u32_of_lt (by omega)]
  omega

/-! ## Containment -/

theorem loadStores_inUserRange (h : f.validate = none)
    (hfits : ∀ i < f.ePhnum, f.pType i = ptLoad → f.pVaddr i + f.pMemsz i < 2 ^ 32) :
    ∀ store ∈ f.loadStores, InUserRange store := by
  rintro ⟨a, b⟩ hstore
  obtain ⟨i, hi, hmem⟩ := mem_flatMap.mp hstore
  have hi' := mem_range.mp hi
  by_cases hload : f.pType i = ptLoad
  · obtain ⟨hbase, -, hend, hsizes⟩ := segment_of_check (checkSegment_of_validate h hi') hload
    obtain ⟨k, hk, rfl⟩ := (mem_segmentStores_iff hload hsizes).mp ⟨b, hmem⟩
    have hlt := hfits i hi' hload
    rw [u32_of_lt hlt] at hend
    refine ⟨?_, ?_⟩
    · show userElfBase ≤ u32 (f.pVaddr i + k)
      rw [u32_of_lt (by omega)]
      omega
    · show u32 (f.pVaddr i + k) < userStackTop
      rw [u32_of_lt (by omega)]
      omega
  rw [segmentStores, if_neg hload] at hmem
  cases hmem

/-- All stores of the load loop are to the user's memory iff the end of no segment wraps
    around. -/
theorem load_contained_iff (h : f.validate = none) :
    (∀ store ∈ f.loadStores, InUserRange store) ↔
      ∀ i, i < f.ePhnum → f.pType i = ptLoad → f.pVaddr i + f.pMemsz i < 2 ^ 32 := by
  constructor
  · intro hall i hi hload
    by_contra hwrap
    obtain ⟨b, hmem⟩ := stackTop_mem_of_wrap (checkSegment_of_validate h hi) hload (by omega)
    have hin := hall _ (mem_flatMap.mpr ⟨i, mem_range.mpr hi, hmem⟩)
    exact Nat.lt_irrefl _ hin.2
  · exact loadStores_inUserRange h

/-- A file with one segment at `USER_ELF_BASE` that holds no bytes of the file. -/
def oneSegment (memsz : List UInt8) : Image where
  size := 84
  buf := fun a => ([0x7F, 0x45, 0x4C, 0x46, 1, 1, 1, 0, 0, 0, 0, 0, 0, 0, 0, 0,
    2, 0, 3, 0, 1, 0, 0, 0, 0, 0, 0x80, 0, 52, 0, 0, 0, 0, 0, 0, 0, 0, 0, 0, 0,
    52, 0, 32, 0, 1, 0, 0, 0, 0, 0, 0, 0,
    1, 0, 0, 0, 0, 0, 0, 0, 0, 0, 0x80, 0, 0, 0, 0x80, 0, 0, 0, 0, 0] ++ memsz).getD a 0

theorem load_contained_iff_small :
    (∀ store ∈ (oneSegment [0x10, 0, 0, 0]).loadStores, InUserRange store) ↔
      ∀ i, i < (oneSegment [0x10, 0, 0, 0]).ePhnum →
        (oneSegment [0x10, 0, 0, 0]).pType i = ptLoad →
        (oneSegment [0x10, 0, 0, 0]).pVaddr i + (oneSegment [0x10, 0, 0, 0]).pMemsz i < 2 ^ 32 :=
  load_contained_iff (by decide)

/-- The segment of `0xFFFFFFFF` bytes passes the checks, and is stored to past the end of the
    user's memory. -/
theorem hugeSegment_not_contained : (oneSegment [0xFF, 0xFF, 0xFF, 0xFF]).validate = none ∧
    ¬ ∀ store ∈ (oneSegment [0xFF, 0xFF, 0xFF, 0xFF]).loadStores, InUserRange store := by
  have hvalid : (oneSegment [0xFF, 0xFF, 0xFF, 0xFF]).validate = none := by decide
  refine ⟨hvalid, fun hall => ?_⟩
  obtain ⟨b, hmem⟩ := stackTop_mem_of_wrap
    (checkSegment_of_validate hvalid (by decide : 0 < _)) (by decide) (by decide)
  have hin := hall _ (mem_flatMap.mpr ⟨0, mem_range.mpr (by decide), hmem⟩)
  exact Nat.lt_irrefl _ hin.2

end Image

end Noverix.Elf
