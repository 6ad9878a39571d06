/-
  Starting a program (kernel/elf.c, elf_exec).

  `elf_exec` copies the kernel's directory, maps fresh frames at the user's
  addresses, stores the program through the new directory, and makes a task of
  it.  While it stores the program CR3 is the new directory; a store to a page
  that is not mapped there faults, and the kernel halts (`none`).  The stores of
  the kernel to directories, tables and stacks are at physical addresses.
-/

import Noverix.Elf.Image
import Noverix.Memory.Tables
import Noverix.Sched.Task

namespace Noverix.Elf

open Lib Memory Sched

/-! ## The model -/

abbrev userExitTramp : Nat := 0x009FFE00

abbrev userPdeIdx : Nat := 2

/-- The number of pages from `USER_ELF_BASE` to `USER_STACK_TOP`. -/
abbrev userPageCount : Nat := 512

/-- The error path of the loop over the user's pages: the entry for them is cleared and the
    directory freed. -/
def dropDir (s : Vm) (pd : Nat) : Vm :=
  { s with mem := setEntry s.mem pd userPdeIdx 0 }.freeFrame pd

/-- The loop over the user's pages, for `n` more pages from `addr` on. -/
def mapUserPages (pd : Nat) : Nat → Nat → Vm → Option ElfError × Vm
  | 0, _, s => (none, s)
  | n + 1, addr, s =>
    let phys := s.allocFrame.1
    let s := s.allocFrame.2
    if phys = 0 then (some .userPages, dropDir s pd)
    else
      let r := s.mapPageToDir pd addr phys (pageWrite ||| pageUser)
      if r.1 = false then (some .mapPage, dropDir r.2 pd)
      else mapUserPages pd n (addr + 0x1000) r.2

/-- A store of a byte through the directory `dir`. -/
def storeByte (dir : Nat) (m : Mem) (store : Nat × UInt8) : Option Mem :=
  (translate m dir store.1).map fun addr => Function.update m addr store.2

/-- Stores through `dir`, up to the first that faults. -/
def storeBytes (dir : Nat) (m : Mem) (stores : List (Nat × UInt8)) : Option Mem :=
  stores.foldlM (storeByte dir) m

/-- The exit trampoline: `mov $0, %eax; int $0x80`. -/
def trampoline : List (Nat × UInt8) :=
  [(userExitTramp, 0xB8), (userExitTramp + 1, 0), (userExitTramp + 2, 0), (userExitTramp + 3, 0),
    (userExitTramp + 4, 0), (userExitTramp + 5, 0xCD), (userExitTramp + 6, 0x80)]

/-- The bytes of the first word on the user's stack, the address of the trampoline. -/
def stackWord : List (Nat × UInt8) :=
  [(userStackTop - 4, 0x00), (userStackTop - 3, 0xFE), (userStackTop - 2, 0x9F),
    (userStackTop - 1, 0x00)]

/-- All that is stored through the new directory. -/
def setupStores (f : Image) : List (Nat × UInt8) := f.loadStores ++ (trampoline ++ stackWord)

/-- The words of a user task's first stack frame. -/
def userFrame (entry : Nat) : List Nat :=
  [0x23, userStackTop - 4, 0x202, 0x1B, entry, 0, 0, 0, 0, 0, 0, 0, 0, 0, 0, 0x23, 0x23, 0x23, 0x23]

/-- The task gets its first stack frame and the directory, and is linked into the ring. -/
def launch (k : Kernel) (t : Tid) (pd entry stack : Nat) : Kernel :=
  let r := Kernel.pushWords k.vm.mem (stack + taskStackSize) (userFrame entry)
  let k := { k with vm := { k.vm with mem := r.2 } }
  let k := k.setTask t fun task => { task with
    kernelStackBase := stack
    kernelEsp := UInt32.ofNat r.1
    pageDir := pd
    state := .ready }
  k.enqueue t

/-- The last part of `elf_exec`: the task, its kernel stack, and the ring. -/
def startTask (k : Kernel) (pd entry : Nat) : Except ElfError Tid × Kernel :=
  let t := k.allocTask.1
  let k := k.allocTask.2
  if t = 0 then (.error .allocTask, k)
  else
    let stack := (k.vm.allocFrames (taskStackSize / 4096)).1
    let k := { k with vm := (k.vm.allocFrames (taskStackSize / 4096)).2 }
    if stack = 0 then (.error .kernelStack, { k with vm := k.vm.freeFrame t.toNat })
    else (.ok t, launch k t pd entry stack)

/-- The part of `elf_exec` after the checks, with the new directory: `none` if a store of the
    program faults. -/
def loadProgram (k : Kernel) (cpu : Cpu) (f : Image) (pd : Nat) :
    Option (Except ElfError Tid × Kernel) :=
  let s := { k.vm with mem := setEntry k.vm.mem pd userPdeIdx 0 }
  let r := mapUserPages pd userPageCount userElfBase s
  match r.1 with
  | some e => some (.error e, { k with vm := r.2 })
  | none =>
    (storeBytes pd r.2.mem (setupStores f)).map fun mem =>
      let mem := setEntry (setEntry mem pd 0 0) pd 1 0
      let k := { k with
        vm := { r.2 with mem := mem }
        cr3 := Function.update k.cr3 cpu r.2.kernelDir }
      startTask k pd f.eEntry

/-- `elf_exec`, for the file that `nvfs_read` has read. -/
def elfExec (k : Kernel) (cpu : Cpu) (f : Image) : Option (Except ElfError Tid × Kernel) :=
  match f.validate with
  | some e => some (.error e, k)
  | none =>
    let pd := k.vm.pageDirCreate.1
    let k := { k with vm := k.vm.pageDirCreate.2 }
    if pd = 0 then some (.error .pageDirectory, k) else loadProgram k cpu f pd

end Noverix.Elf
