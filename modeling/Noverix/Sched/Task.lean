/-
  Tasks and the scheduler (kernel/task.c, the wake-up scan of
  kernel/cpu/timer.c, and the scheduling system calls of kernel/elf.c).

  Tasks are linked in a ring through `next`; `ready_head` is one of them.  Each
  CPU has a current task.  Every function below is one section under
  `sched_lock`, with the unlocked stores to the caller's own task in front of
  it; a section that follows `next` yields `none` if it never gets out of its
  loop.

  A task is named by the address of its structure, and 0 is NULL.  The structure
  itself is kept apart from physical memory.
-/

import Noverix.Memory.Paging
import Noverix.Lib.Ring

namespace Noverix.Sched

open Lib Memory

/-! ## State -/

/-- `TASK_FREE` and the others. -/
inductive TaskState where
  | free
  | ready
  | running
  | blocked
  | zombie
deriving DecidableEq

/-- The address of a task. -/
abbrev Tid := UInt32

/-- The number of a CPU. -/
abbrev Cpu := Nat

/-- `task_t`; `cpu_assigned` is -1 for `none`. -/
structure Task where
  pid : UInt32
  state : TaskState
  cpuAssigned : Option Cpu
  pageDir : Nat
  kernelEsp : UInt32
  kernelStackBase : Nat
  wakeupTick : UInt32
  next : Tid

/-- A task of zero bytes. -/
def Task.blank : Task := ⟨0, .free, some 0, 0, 0, 0, 0, 0⟩

/-- The task is RUNNING, and assigned to the CPU. -/
def Task.runOn (cpu : Cpu) (task : Task) : Task :=
  { task with state := .running, cpuAssigned := some cpu }

abbrev taskStackSize : Nat := 0x4000

/-- Memory, the tasks, and for each CPU its `cpu_info`, its directory and its kernel stack. -/
structure Kernel where
  vm : Vm
  tasks : Tid → Task
  readyHead : Tid
  nextPid : UInt32
  current : Cpu → Tid
  reschedPending : Cpu → Bool
  tickCount : UInt32
  cr3 : Cpu → Nat
  esp0 : Cpu → Nat

/-- Enough steps along `next` to meet every task. -/
abbrev ringFuel : Nat := 2 ^ 32

namespace Kernel

/-- A store to a task. -/
def setTask (k : Kernel) (t : Tid) (f : Task → Task) : Kernel :=
  { k with tasks := Function.update k.tasks t (f (k.tasks t)) }

/-- `t->next`. -/
def next (k : Kernel) (t : Tid) : Tid := (k.tasks t).next

/-- `gdt_set_kernel_stack` and `page_dir_switch`, for the task that is to run. -/
def switchTo (k : Kernel) (cpu : Cpu) (t : Tid) : Kernel :=
  { k with
    esp0 := Function.update k.esp0 cpu ((k.tasks t).kernelStackBase + taskStackSize)
    cr3 := Function.update k.cr3 cpu (k.tasks t).pageDir }

/-! ## Creating tasks -/

def allocTask (k : Kernel) : Tid × Kernel :=
  let t : Tid := UInt32.ofNat k.vm.allocFrame.1
  let k := { k with vm := k.vm.allocFrame.2 }
  if t = 0 then (0, k)
  else
    (t, { k.setTask t fun _ => { Task.blank with pid := k.nextPid, cpuAssigned := none } with
      nextPid := k.nextPid + 1 })

/-- The section of `task_create` and `elf_exec` that links a task into the ring. -/
def enqueue (k : Kernel) (t : Tid) : Kernel :=
  if k.readyHead = 0 then
    { k.setTask t fun task => { task with next := t } with readyHead := t }
  else
    let k := k.setTask t fun task => { task with next := k.next k.readyHead }
    k.setTask k.readyHead fun task => { task with next := t }

/-- `*--sp = w` for each of the words. -/
def pushWords (m : Mem) (sp : Nat) (ws : List Nat) : Nat × Mem :=
  ws.foldl (fun r w => (r.1 - 4, store32 r.2 (r.1 - 4) w)) (sp, m)

/-- The words of a kernel task's first stack frame: EFLAGS, CS, EIP, the interrupt number
    and error code, the registers, the segments. -/
def kernelFrame (entry : Nat) : List Nat :=
  [0x202, 0x08, entry, 0, 0, 0, 0, 0, 0, 0, 0, 0, 0, 0x10, 0x10, 0x10, 0x30]

def taskCreate (k : Kernel) (entry : Nat) : Tid × Kernel :=
  let t := k.allocTask.1
  let k := k.allocTask.2
  if t = 0 then (0, k)
  else
    let stack := (k.vm.allocFrames (taskStackSize / 4096)).1
    let k := { k with vm := (k.vm.allocFrames (taskStackSize / 4096)).2 }
    if stack = 0 then (0, { k with vm := k.vm.freeFrame t.toNat })
    else
      let r := pushWords k.vm.mem (stack + taskStackSize) (kernelFrame entry)
      let k := { k with vm := { k.vm with mem := r.2 } }
      let k := k.setTask t fun task => { task with
        kernelStackBase := stack
        kernelEsp := UInt32.ofNat r.1
        pageDir := k.vm.kernelDir
        state := .ready }
      (t, k.enqueue t)

/-! ## Switching -/

/-- A task that `pick_next_locked` takes. -/
def pickable (k : Kernel) (cpu : Cpu) (t : Tid) : Bool :=
  decide ((k.tasks t).state = .ready) &&
    (decide ((k.tasks t).cpuAssigned = none) || decide ((k.tasks t).cpuAssigned = some cpu)) &&
    decide ((k.tasks t).kernelEsp ≠ 0)

def pickNextLocked (k : Kernel) (cpu : Cpu) : Option Tid :=
  let curr := k.current cpu
  if curr = 0 ∨ k.readyHead = 0 then some 0
  else
    match seek k.next (fun t => decide (t = curr) || k.pickable cpu t) ringFuel (k.next curr) with
    | none => none
    | some t =>
      if t ≠ curr then some t
      else if k.pickable cpu curr then some curr
      else some 0

/-- A task is made the current one of the CPU, under the lock. -/
def claim (k : Kernel) (cpu : Cpu) (next : Tid) : Kernel :=
  { k.setTask next (Task.runOn cpu) with current := Function.update k.current cpu next }

/-- A task is made the one that runs on the CPU. -/
def dispatch (k : Kernel) (cpu : Cpu) (next : Tid) : Kernel :=
  (k.claim cpu next).switchTo cpu next

/-- The caller's task stops running: what `task_switch_from` stores in it first. -/
def suspend (k : Kernel) (cpu : Cpu) (currentEsp : UInt32) (newState : TaskState)
    (wakeupTick : UInt32) : Kernel :=
  k.setTask (k.current cpu) fun task => { task with
    kernelEsp := currentEsp
    wakeupTick := wakeupTick
    state := newState
    cpuAssigned := some cpu }

/-- The caller's task goes on running. -/
def resume (k : Kernel) (cpu : Cpu) : Kernel :=
  k.setTask (k.current cpu) (Task.runOn cpu)

/-- `task_switch_from`: the stack pointer to load, 0 for none. -/
def taskSwitchFrom (k : Kernel) (cpu : Cpu) (currentEsp : UInt32) (newState : TaskState)
    (wakeupTick : UInt32) : Option (UInt32 × Kernel) :=
  let curr := k.current cpu
  if curr = 0 then some (0, k)
  else
    let k := k.suspend cpu currentEsp newState wakeupTick
    match k.pickNextLocked cpu with
    | none => none
    | some next =>
      if next = 0 ∨ next = curr then some (0, k.resume cpu)
      else some ((k.tasks next).kernelEsp, k.dispatch cpu next)

def taskBlockAndSwitch (k : Kernel) (cpu : Cpu) (currentEsp wakeupTick : UInt32) :
    Option (UInt32 × Kernel) :=
  k.taskSwitchFrom cpu currentEsp .blocked wakeupTick

def taskYield (k : Kernel) (cpu : Cpu) (currentEsp : UInt32) : Option (UInt32 × Kernel) :=
  k.taskSwitchFrom cpu currentEsp .ready 0

def taskSwitchTick (k : Kernel) (cpu : Cpu) (currentEsp : UInt32) : Option (UInt32 × Kernel) :=
  if k.current cpu = 0 then some (0, k)
  else if k.reschedPending cpu = false then some (0, k)
  else
    { k with reschedPending := Function.update k.reschedPending cpu false }.taskSwitchFrom cpu
      currentEsp .ready 0

/-! ## The timer -/

/-- A task that the timer wakes. -/
def due (k : Kernel) (t : Tid) : Bool :=
  decide ((k.tasks t).state = .blocked) && decide ((k.tasks t).wakeupTick ≠ 0) &&
    decide ((k.tasks t).wakeupTick ≤ k.tickCount)

/-- The loop of `timer_handler` over the ring, from `t` until it is back at `start`. -/
def wakeLoop (start : Tid) : Nat → Tid → Kernel → Option Kernel
  | 0, _, _ => none
  | fuel + 1, t, k =>
    let next := k.next t
    let k := if k.due t then
        k.setTask t fun task => { task with state := .ready, wakeupTick := 0 }
      else k
    if next = start then some k else wakeLoop start fuel next k

/-- `timer_handler`; `locked` is the result of `spinlock_try_lock`. -/
def timerHandler (k : Kernel) (cpu : Cpu) (locked : Bool) : Option Kernel :=
  let k := if cpu = 0 then { k with tickCount := k.tickCount + 1 } else k
  let scanned :=
    if cpu = 0 ∧ locked = true ∧ k.readyHead ≠ 0 then wakeLoop k.readyHead ringFuel k.readyHead k
    else some k
  scanned.map fun k => { k with reschedPending := Function.update k.reschedPending cpu true }

/-! ## Ending tasks -/

/-- A loop `do ... while (t != ready_head)` that stops at the first task with `p`; 0 if it
    meets none. -/
def firstOf (k : Kernel) (p : Tid → Bool) : Option Tid :=
  if p k.readyHead then some k.readyHead
  else
    (seek k.next (fun t => decide (t = k.readyHead) || p t) ringFuel (k.next k.readyHead)).map
      fun t => if t = k.readyHead then 0 else t

/-- The part of `task_kill` that takes a task out of the ring. -/
def unlink (k : Kernel) (t : Tid) : Option Kernel :=
  if k.next t = t then some { k with readyHead := 0 }
  else
    (seek k.next (fun p => decide (k.next p = t)) ringFuel t).map fun p =>
      let k := k.setTask p fun task => { task with next := k.next t }
      if k.readyHead = t then { k with readyHead := k.next t } else k

/-- A task's own directory is freed, and `dir` put in its place. -/
def releaseDir (k : Kernel) (t : Tid) (dir : Nat) : Kernel :=
  if (k.tasks t).pageDir ≠ 0 ∧ (k.tasks t).pageDir ≠ k.vm.kernelDir then
    { k.setTask t fun task => { task with pageDir := dir } with
      vm := k.vm.freeDir (k.tasks t).pageDir }
  else k

/-- A task's kernel stack is freed. -/
def releaseStack (k : Kernel) (t : Tid) : Kernel :=
  if (k.tasks t).kernelStackBase ≠ 0 then
    { k.setTask t fun task => { task with kernelStackBase := 0 } with
      vm := k.vm.freeFrames (k.tasks t).kernelStackBase (taskStackSize / 4096) }
  else k

def taskKill (k : Kernel) (pid : UInt32) : Option (Int × Kernel) :=
  if k.readyHead = 0 then some (-1, k)
  else
    match k.firstOf fun t => decide ((k.tasks t).pid = pid) with
    | none => none
    | some t =>
      if t = 0 then some (-1, k)
      else if (k.tasks t).state = .running then some (-2, k)
      else
        (k.unlink t).map fun k =>
          let k := k.setTask t fun task => { task with state := .free, cpuAssigned := none }
          (0, (k.releaseDir t 0).releaseStack t)

def freeTaskResources (k : Kernel) (t : Tid) : Kernel :=
  (k.releaseDir t k.vm.kernelDir).releaseStack t

/-- A task that `SYS_EXIT` takes. -/
def exitPickable (k : Kernel) (curr t : Tid) : Bool :=
  decide ((k.tasks t).state = .ready) && decide ((k.tasks t).cpuAssigned = none) &&
    decide ((k.tasks t).kernelEsp ≠ 0) && decide (t ≠ curr)

/-- `SYS_EXIT` of `syscall_handler`: the stack pointer to load, 0 for none. -/
def sysExit (k : Kernel) (cpu : Cpu) : Option (UInt32 × Kernel) :=
  let curr := k.current cpu
  if curr = 0 then some (0, k)
  else
    let k := k.freeTaskResources curr
    let k := k.setTask curr fun task => { task with state := .free, cpuAssigned := none }
    let found := if k.readyHead = 0 then some 0 else k.firstOf (k.exitPickable curr)
    match found with
    | none => none
    | some next =>
      if next = 0 then
        some (0, { k with
          current := Function.update k.current cpu 0
          cr3 := Function.update k.cr3 cpu k.vm.kernelDir })
      else some ((k.tasks next).kernelEsp, k.dispatch cpu next)

end Kernel

end Noverix.Sched
