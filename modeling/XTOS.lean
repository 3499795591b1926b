import XTOS.Pipe
import XTOS.Pipe.Buffer
import XTOS.RWLock
import XTOS.Handle
import XTOS.PageAlloc
import XTOS.PageAlloc.Rounding
import XTOS.Heap
import XTOS.Heap.Requests
import XTOS.Heap.Growth
import XTOS.Heap.Served
import XTOS.Heap.DoubleFree
import XTOS.Hpet
import XTOS.Process.Threads
import XTOS.Vfat.Directory
import XTOS.Vfat.Locking
import XTOS.Vfat.Format
import XTOS.Lib.Walk
import XTOS.User.Access
import XTOS.User.Syscall
import XTOS.User.Arguments
import XTOS.Linker.Image
import XTOS.Linker.Load
import XTOS.Lib.Periods
import XTOS.Queue
import XTOS.Time
import XTOS.Event
import XTOS.Spinlock
import XTOS.EventLocks
import XTOS.Mutex
import XTOS.WaitThread
import XTOS.Process.ActiveThreads
import XTOS.Lib.Acyclic
import XTOS.Linker.Kernel
import XTOS.SharedPtr
import XTOS.Process.Record
import XTOS.Devfs
import XTOS.Fs.Mount
import XTOS.Handle.Free
import XTOS.Handle.Search
import XTOS.Handle.Destroy
import XTOS.Fs.Paths
import XTOS.User.Handles
import XTOS.User.Rights
import XTOS.Linker.Sections
import XTOS.Lib.Spans
import XTOS.PageAlloc.MemoryMap
import XTOS.PageAlloc.Classes
import XTOS.Paging.Keep
import XTOS.Paging.Tables
import XTOS.Paging.Split
import XTOS.Paging.Stale
import XTOS.Scheduler.Nap
import XTOS.Process.MapList
import XTOS.Process.FindMap
import XTOS.Lib.StableInsert
import XTOS.Paging.Removal
import XTOS.Event.Timeout
import XTOS.Event.Waiters
import XTOS.Fs.FileLock
import XTOS.Fs.Tar
import XTOS.Gpt
import XTOS.Vfat.Full
import XTOS.Vfat.Reader
import XTOS.Vfat.Lookup
import XTOS.Vfat.Create
import XTOS.Vfat.Entries
import XTOS.Vfat.Stamps
import XTOS.Vfat.Delete
import XTOS.Vfat.Callers
import XTOS.Vfat.Listing
import XTOS.Vfat.Decoders
import XTOS.Lib.FirstStop
import XTOS.Vfat.Endless
import XTOS.Vfat.Termination
import XTOS.Vfat.Taken
import XTOS.Vfat.Appended
import XTOS.LinkedList.Removal
import XTOS.Encodings.Reads
import XTOS.Linker.Relocate
import XTOS.Linker.Thunks
import XTOS.Fs.Normalize
import XTOS.Fs.PathBuffer
import XTOS.Fs.CopyFile
import XTOS.User.ParameterBlock
import XTOS.Gpt.Checksum
import XTOS.Strings.Copy
import XTOS.Paging.OnePage
import XTOS.Process.PageFault
import XTOS.Process.Release
import XTOS.Lib.WordStack
import XTOS.Arch.Machine
import XTOS.Arch.Switch
import XTOS.Arch.Syscall
import XTOS.Lib.Overwrite
import XTOS.Vfat.Store
import XTOS.Boot.HighHalf
import XTOS.Scheduler.Fair
import XTOS.Lib.Execution
import XTOS.User.Assembly
import XTOS.Pipe.Waiting
import XTOS.Paging.Spaces
import XTOS.Lib.Snapshot
import XTOS.Time.Cmos
