import CxxKernel.Heap.ExactFit
import CxxKernel.Heap.Realloc
import CxxKernel.Heap.Stale
import CxxKernel.Heap.Safety
import CxxKernel.Sched.ProcessManager
import CxxKernel.Sched.Progress
import CxxKernel.Lib.LinkedChain
import CxxKernel.Sched.Mutex
import CxxKernel.Sched.Guard
import CxxKernel.Clothes.Block
import CxxKernel.Clothes.ClothesFS
import CxxKernel.Clothes.Iterator
import CxxKernel.Clothes.FreeChain
import CxxKernel.Clothes.Format
import CxxKernel.Clothes.FreeRun
import CxxKernel.Clothes.Entries
import CxxKernel.Clothes.MetaChain
import CxxKernel.Clothes.Directory
import CxxKernel.Clothes.DirRun
import CxxKernel.Clothes.Listing
import CxxKernel.Clothes.RoundTrip
import CxxKernel.Fs.Ustar
import CxxKernel.Fs.UstarWalk
import CxxKernel.Fs.HostileWalk
import CxxKernel.Paging.Bits
import CxxKernel.Paging.PagingX86
import CxxKernel.Paging.Frames
import CxxKernel.Paging.Mapping
import CxxKernel.Paging.Init
import CxxKernel.Paging.RealMemory
import CxxKernel.Paging.Unmap
import CxxKernel.Containers.LinkedList
import CxxKernel.Containers.Nodes
import CxxKernel.Containers.Sequence
import CxxKernel.Fs.Filesystem
import CxxKernel.Fs.Vfs
import CxxKernel.Fs.Mounts
import CxxKernel.Fs.OpenFiles
import CxxKernel.Sched.RoundRobin
import CxxKernel.Devices.PCI
import CxxKernel.Devices.Enumeration
import CxxKernel.Devices.ATA
import CxxKernel.Devices.Drive
import CxxKernel.Devices.Requests
import CxxKernel.Devices.BlockAddress
import CxxKernel.Lib.RingBuffer
import CxxKernel.Devices.Keyboard
import CxxKernel.Devices.StoreBounds
import CxxKernel.Devices.FB
import CxxKernel.Text.Store
import CxxKernel.Text.String
import CxxKernel.Text.Placed
import CxxKernel.Text.ValueSemantics
import CxxKernel.Text.HeapStore
import CxxKernel.Heap.Calloc
import CxxKernel.Containers.Edits
import CxxKernel.Paging.BitSearch
import CxxKernel.Paging.FailedMap
import CxxKernel.Paging.StaticFrames
import CxxKernel.Fs.UstarRead
import CxxKernel.Fs.FileIO
import CxxKernel.Fs.FindFile
import CxxKernel.Arith.Division
import CxxKernel.Clothes.Fields
import CxxKernel.Clothes.Geometry
import CxxKernel.Clothes.Names
import CxxKernel.Clothes.FormatRun
import CxxKernel.Clothes.Paths
import CxxKernel.Clothes.Remove
import CxxKernel.Fs.UstarPath
import CxxKernel.Clothes.MetaWalk
import CxxKernel.Clothes.Creation
import CxxKernel.Arith.Signed
import CxxKernel.Arith.Aeabi
import CxxKernel.Devices.Numbers
import CxxKernel.Devices.Timer
import CxxKernel.Memcpy
import CxxKernel.Devices.Console
import CxxKernel.Text.Splitting
import CxxKernel.Fs.Stdin
import CxxKernel.Devices.Realtime
import CxxKernel.Fs.Stat
import CxxKernel.Lib.Walks
import CxxKernel.Words
import CxxKernel.Devices.ACPI
import CxxKernel.Sched.PthreadMutex
import CxxKernel.Sched.TryLock
import CxxKernel.Sched.Killer
import CxxKernel.Setjmp
import CxxKernel.Devices.GDT
import CxxKernel.Devices.Header00
import CxxKernel.Devices.Modifiers
import CxxKernel.Devices.Pixels
import CxxKernel.Devices.Registers
import CxxKernel.Fs.Octal
import CxxKernel.Fs.Descriptors
import CxxKernel.Fs.SyscallRun
import CxxKernel.Sched.MutexSteps
import CxxKernel.Sched.Preemption
import CxxKernel.Paging.Ownership
import CxxKernel.Sched.TimeSlices
import CxxKernel.Heap.KernelHeap
import CxxKernel.Sched.TaskX86
import CxxKernel.Devices.Disk
import CxxKernel.Devices.Formats
import CxxKernel.Text.Values
import CxxKernel.Fs.Objects
