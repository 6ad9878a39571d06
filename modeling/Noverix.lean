import Noverix.Net.Ipv4
import Noverix.Net.StateMachine
import Noverix.Net.Acks
import Noverix.Net.SendStream
import Noverix.Net.RecvStream
import Noverix.Memory.Frames
import Noverix.Memory.HeapContents
import Noverix.Sched.Fairness
import Noverix.Elf.Reads
import Noverix.Elf.Teardown
import Noverix.Sched.WorkQueue
import Noverix.Elf.Preempt
import Noverix.Sched.Bringup
import Noverix.Sched.InUse
import Noverix.Sched.NvfsLock
import Noverix.Memory.Shootdown
import Noverix.Nvfs.Leaks
import Noverix.Nvfs.ShadowPaging
import Noverix.Nvfs.DirCapacity
import Noverix.Memory.HeapRequests
import Noverix.Memory.Coalescing
import Noverix.Nvfs.NameBuffer
import Noverix.Nvfs.SizeRecord
import Noverix.Nvfs.RmdirFaults
import Noverix.Nvfs.Append
import Noverix.Drivers.Rtl8139
import Noverix.Drivers.Keyboard
import Noverix.Shell.Commands
import Noverix.Shell.Prompt
import Noverix.Sched.Spinlock
import Noverix.Nvfs.FaultIsolation
