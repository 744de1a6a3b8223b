import Cykusz.Lib.Align
import Cykusz.Lib.Bitmap
import Cykusz.Mm.Buddy
import Cykusz.Mm.BuddySpec
import Cykusz.Mm.BuddyLoops
import Cykusz.Mm.BuddyInvariant
import Cykusz.Mm.BuddyExact
import Cykusz.Lib.BitField
import Cykusz.Mm.Virt.Entry
import Cykusz.Lib.FrameAlloc
import Cykusz.Mm.Virt.Table
import Cykusz.Lib.Count
import Cykusz.Mm.Virt.TableSpec
import Cykusz.Mm.Virt.Walk
import Cykusz.Mm.Virt.Frames
import Cykusz.Mm.Virt.Shape
import Cykusz.Mm.Virt.Steps
import Cykusz.Mm.Virt.Ops
import Cykusz.Mm.Virt.Map
import Cykusz.Mm.Virt.Unmap
import Cykusz.Lib.Simulation
import Cykusz.Mm.Virt.Query
import Cykusz.Mm.Virt.Refine
import Cykusz.Lib.Loop
import Cykusz.Mm.Virt.Fork
import Cykusz.Mm.Virt.Runs
import Cykusz.Lib.WordMemory
import Cykusz.Syscall.Defs
import Cykusz.Arch.Signal
import Cykusz.Arch.SignalSpec
import Cykusz.Fs.Vfs
import Cykusz.Lib.Circular
import Cykusz.Kernel.Buffer
import Cykusz.Fs.Pipe
import Cykusz.Lib.ByteBits
import Cykusz.Fs.Ext2.BlockGroup
import Cykusz.Lib.Bindings
import Cykusz.Fs.Ext2.DirEnt
import Cykusz.Fs.Ext2.Namespace
import Cykusz.Kernel.WaitQueue
import Cykusz.Kernel.WaitLock
import Cykusz.Kernel.Futex
import Cykusz.Kernel.Semaphore
import Cykusz.Lib.SpinLock
import Cykusz.Kernel.Mutex
import Cykusz.Kernel.RwMutex
import Cykusz.Kernel.Timer
import Cykusz.Lib.Lru
import Cykusz.Fs.Cache
import Cykusz.Fs.Dirent
import Cykusz.Fs.Mount
import Cykusz.Fs.PageCache
import Cykusz.Kernel.FileTable
import Cykusz.Kernel.Sched
import Cykusz.Net.Tcp.Socket
import Cykusz.Net.Tcp.Handlers
import Cykusz.Net.Arp
import Cykusz.Net.Unix
import Cykusz.Lib.OnesComplement
import Cykusz.Net.Checksum
import Cykusz.Net.Tcp.Header
import Cykusz.Net.Dhcp
import Cykusz.Net.Dns
import Cykusz.Kernel.Signal
import Cykusz.Lib.Slice
import Cykusz.Kernel.Types
import Cykusz.Drivers.Tty.Output
import Cykusz.Drivers.Tty.Input
import Cykusz.Kernel.Session
import Cykusz.Fs.Lookup
import Cykusz.Mm.PhysIter
import Cykusz.Kernel.WaitPid
import Cykusz.Kernel.Block.Partitions
import Cykusz.Net.Tcp.Close
import Cykusz.Lib.SeqSpace
import Cykusz.Net.Tcp.Send
import Cykusz.Kernel.Vm
import Cykusz.Fs.Ext2.BlockTree
import Cykusz.Fs.Ext2.Truncate
import Cykusz.Fs.Ext2.SetBlock
