/-
  Page directories and page tables (kernel/memory/paging.c).

  A directory and a table are pages of 1024 words in physical memory.  The
  kernel reaches them at their physical addresses, through its identity mapping.
  `translate` is what the processor does with a virtual address.

  A word is a natural number below `2 ^ 32`: `e & 0xFFFFF000` is
  `e / 4096 * 4096` and `e & PAGE_PRESENT` is `e % 2`.
-/

import Noverix.Memory.Pfa
import Noverix.Lib.Region

namespace Noverix.Memory

open Lib

/-! ## The model -/

abbrev pagePresent : Nat := 1

abbrev pageWrite : Nat := 2

abbrev pageUser : Nat := 4

/-- `PDE_IDX(virt)`. -/
def pdeIdx (virt : Nat) : Nat := virt / 2 ^ 22 % 1024

/-- `PTE_IDX(virt)`. -/
def pteIdx (virt : Nat) : Nat := virt / 2 ^ 12 % 1024

/-- Entry `i` of the directory or table at `table`. -/
def entry (m : Mem) (table i : Nat) : Nat := load32 m (table + 4 * i)

def setEntry (m : Mem) (table i v : Nat) : Mem := store32 m (table + 4 * i) v

/-- Physical memory, the frame allocator, and `kernel_page_dir`. -/
structure Vm where
  mem : Mem
  pfa : Pfa
  kernelDir : Nat

/-- The physical address of `virt` in the address space of `dir`, if it is mapped. -/
def translate (m : Mem) (dir virt : Nat) : Option Nat :=
  let pde := entry m dir (pdeIdx virt)
  if pde % 2 = 0 then none
  else
    let pte := entry m (pde / 4096 * 4096) (pteIdx virt)
    if pte % 2 = 0 then none else some (pte / 4096 * 4096 + virt % 4096)

/-- The frame that the page of `virt` is mapped to in `dir`, as `get_page_mapping` looks it up. -/
def pageAt (m : Mem) (dir virt : Nat) : Option Nat :=
  if entry m dir (pdeIdx virt) % 2 = 0 then none
  else
    let table := entry m dir (pdeIdx virt) / 4096 * 4096
    if entry m table (pteIdx virt) % 2 = 0 then none
    else some (entry m table (pteIdx virt) / 4096 * 4096)

namespace Vm

/-- `alloc_frame`: the address, 0 if there is none. -/
def allocFrame (s : Vm) : Nat × Vm :=
  (s.pfa.allocFrame.1.toNat, { s with pfa := s.pfa.allocFrame.2 })

def allocFrames (s : Vm) (count : Nat) : Nat × Vm :=
  ((s.pfa.allocFrames (UInt32.ofNat count)).1.toNat,
    { s with pfa := (s.pfa.allocFrames (UInt32.ofNat count)).2 })

def freeFrame (s : Vm) (addr : Nat) : Vm := { s with pfa := s.pfa.freeFrame (UInt32.ofNat addr) }

def freeFrames (s : Vm) (addr count : Nat) : Vm :=
  { s with pfa := s.pfa.freeFrames (UInt32.ofNat addr) (UInt32.ofNat count) }

/-- `create_table_in_dir`: the table, 0 if there is no frame for it. -/
def createTableInDir (s : Vm) (dir virt flags : Nat) : Nat × Vm :=
  let table := s.allocFrame.1
  let s := s.allocFrame.2
  if table = 0 then (0, s)
  else
    let mem := storeWords s.mem table (fun _ _ => 0) 1024
    let mem := setEntry mem dir (pdeIdx virt)
      (table ||| pagePresent ||| pageWrite ||| (flags &&& pageUser))
    (table, { s with mem := mem })

/-- The loop of `init_paging` over the memory above 4 MB; `false` if a table is missing.
    Every round takes a frame, so `fuel` rounds are enough once it is the number of frames. -/
def mapUpper (detectedRam : Nat) : Nat → Vm → Nat → Bool × Vm
  | 0, s, _ => (false, s)
  | fuel + 1, s, virt =>
    if virt < detectedRam then
      let r := s.createTableInDir s.kernelDir virt 0
      if r.1 = 0 then (false, r.2)
      else
        let mem := storeWords r.2.mem r.1
          (fun _ i => virt + i * frameSize ||| pagePresent ||| pageWrite) 1024
        mapUpper detectedRam fuel { r.2 with mem := mem } (u32 (virt + 0x400000))
    else (true, s)

/-- `init_paging`; `true` if it gets as far as turning paging on. -/
def initPaging (s : Vm) (detectedRam : UInt32) : Bool × Vm :=
  let dir := s.allocFrame.1
  let s := { s.allocFrame.2 with kernelDir := dir }
  if dir = 0 then (false, s)
  else
    let s := { s with mem := storeWords s.mem dir (fun _ _ => 0) 1024 }
    let firstPt := s.allocFrame.1
    let s := s.allocFrame.2
    if firstPt = 0 then (false, s)
    else
      let mem := storeWords s.mem firstPt
        (fun _ i => i * frameSize ||| pagePresent ||| pageWrite) 1024
      let mem := setEntry mem dir 0 (firstPt ||| pagePresent ||| pageWrite)
      mapUpper detectedRam.toNat (maxMemory / frameSize + 1) { s with mem := mem } 0x400000

/-- A store of a word through the kernel's address space.  A page that is not mapped faults. -/
def storeWord (s : Vm) (virt v : Nat) : Vm :=
  match translate s.mem s.kernelDir virt with
  | some addr => { s with mem := store32 s.mem addr v }
  | none => s

/-- `page_dir_create`: a copy of the kernel's directory, 0 if there is no frame for it. -/
def pageDirCreate (s : Vm) : Nat × Vm :=
  let dir := s.allocFrame.1
  let s := s.allocFrame.2
  if dir = 0 then (0, s)
  else (dir, { s with mem := storeWords s.mem dir (fun m i => entry m s.kernelDir i) 1024 })

/-- `map_page_to_dir`; `false` is -1. -/
def mapPageToDir (s : Vm) (dir virt phys flags : Nat) : Bool × Vm :=
  let r := if entry s.mem dir (pdeIdx virt) % 2 = 0 then s.createTableInDir dir virt flags else (1, s)
  if r.1 = 0 then (false, r.2)
  else
    let table := entry r.2.mem dir (pdeIdx virt) / 4096 * 4096
    (true, { r.2 with
      mem := setEntry r.2.mem table (pteIdx virt)
        (phys / 4096 * 4096 ||| pagePresent ||| (flags &&& (pageWrite ||| pageUser ||| pagePresent))) })

/-- `map_page`; `false` is -1. -/
def mapPage (s : Vm) (virt phys flags : Nat) : Bool × Vm :=
  s.mapPageToDir s.kernelDir virt phys flags

/-- `unmap_page_from_dir`; `false` is -1. -/
def unmapPageFromDir (s : Vm) (dir virt : Nat) : Bool × Vm :=
  if entry s.mem dir (pdeIdx virt) % 2 = 0 then (false, s)
  else
    let table := entry s.mem dir (pdeIdx virt) / 4096 * 4096
    if entry s.mem table (pteIdx virt) % 2 = 0 then (false, s)
    else (true, { s with mem := setEntry s.mem table (pteIdx virt) 0 })

/-- `unmap_page`; `false` is -1. -/
def unmapPage (s : Vm) (virt : Nat) : Bool × Vm := s.unmapPageFromDir s.kernelDir virt

/-- `get_page_mapping`: what it stores through `phys_out`; `none` is -1. -/
def getPageMapping (s : Vm) (virt : Nat) : Option Nat := pageAt s.mem s.kernelDir virt

/-- The inner loop of `page_dir_add_user_flag`, over a table. -/
def tableAddUserFlag (mem : Mem) (table : Nat) : Mem :=
  (List.range 1024).foldl (fun mem j =>
    if entry mem table j % 2 = 0 then mem
    else setEntry mem table j (entry mem table j ||| pageUser)) mem

/-- The round of `page_dir_add_user_flag` for entry `i` of the directory. -/
def entryAddUserFlag (dir : Nat) (mem : Mem) (i : Nat) : Mem :=
  if entry mem dir i % 2 = 0 then mem
  else
    let mem := setEntry mem dir i (entry mem dir i ||| pageUser)
    tableAddUserFlag mem (entry mem dir i / 4096 * 4096)

/-- The loop of `page_dir_add_user_flag` over the directory. -/
def dirAddUserFlag (mem : Mem) (dir : Nat) : Mem :=
  (List.range 1024).foldl (entryAddUserFlag dir) mem

def pageDirAddUserFlag (s : Vm) (dir : Nat) : Vm := { s with mem := dirAddUserFlag s.mem dir }

def pagingEnableUserAccess (s : Vm) : Vm := s.pageDirAddUserFlag s.kernelDir

/-- The frames that a task's directory does not share with the kernel's are freed, with the
    directory itself. -/
def freeDir (s : Vm) (dir : Nat) : Vm :=
  let s := (List.range 1024).foldl (fun s i =>
    if entry s.mem dir i = entry s.mem s.kernelDir i then s
    else if entry s.mem dir i % 2 = 0 then s
    else
      let pt := entry s.mem dir i / 4096 * 4096
      let s := (List.range 1024).foldl (fun s j =>
        if entry s.mem pt j % 2 = 0 then s else s.freeFrame (entry s.mem pt j / 4096 * 4096)) s
      s.freeFrame pt) s
  s.freeFrame dir

end Vm

end Noverix.Memory
