import CS162.Lib.Wp
import CS162.Lib.Bytes
import CS162.Lib.Threads
import CS162.Lib.Donation
import CS162.Lib.Rel
import CS162.Lib.Mem
import CS162.Lib.Words
import CS162.Lib.Slots
import CS162.Lib.RoundRobin
import CS162.Lib.Rounding
import CS162.Lib.NaturalMerge
import CS162.Lib.LinkedList
import CS162.Lib.Hierarchy
import CS162.Lib.Holdings
import CS162.Fs.Cache
import CS162.Fs.CacheRefine
import CS162.Fs.CacheProto
import CS162.Fs.CacheVictim
import CS162.Fs.CacheClock
import CS162.Fs.Bitmap
import CS162.Fs.BitmapElems
import CS162.Fs.Blocks
import CS162.Fs.Volume
import CS162.Fs.Inode
import CS162.Fs.Pointers
import CS162.Fs.Extend
import CS162.Fs.Indirect
import CS162.Fs.Attempt
import CS162.Fs.Files
import CS162.Fs.FreeMap
import CS162.Fs.Owners
import CS162.Fs.Handles
import CS162.Fs.Format
import CS162.Fs.Runs
import CS162.Fs.MapDisk
import CS162.Fs.ByteArray
import CS162.Fs.Programs
import CS162.Fs.Removed
import CS162.Fs.Ledger
import CS162.Fs.Growth
import CS162.Fs.Tidy
import CS162.Fs.Boot
import CS162.Fs.Space
import CS162.Fs.Limit
import CS162.Fs.Deleted
import CS162.Fs.Directory
import CS162.Fs.Filesys
import CS162.Fs.Nodes
import CS162.Fs.DenyWrite
import CS162.Fs.Entries
import CS162.Fs.Paths
import CS162.Fs.DirMap
import CS162.Fs.DirRuns
import CS162.Fs.Creation
import CS162.Fs.CreationFails
import CS162.Fs.CreationPlaces
import CS162.Fs.LongNames
import CS162.Fs.Opening
import CS162.Fs.OpenFiles
import CS162.Fs.Trees
import CS162.Fs.TreeRuns
import CS162.Fs.Lookup
import CS162.Fs.TreeShape
import CS162.Fs.NamedFiles
import CS162.Userprog.Wait
import CS162.Userprog.WaitProtocol
import CS162.Userprog.WaitRuns
import CS162.Userprog.Descriptors
import CS162.Userprog.Load
import CS162.Userprog.UserMem
import CS162.Userprog.Args
import CS162.Paging.Palloc
import CS162.Paging.PallocRuns
import CS162.Paging.Pagedir
import CS162.Paging.Entries
import CS162.Paging.Spaces
import CS162.Paging.Changes
import CS162.Paging.Calls
import CS162.Paging.Processor
import CS162.Paging.KernelMap
import CS162.Paging.Isolation
import CS162.Kernel.Priority
import CS162.Kernel.DonationRuns
import CS162.Kernel.Sema
import CS162.Kernel.Sched
import CS162.Kernel.Lists
import CS162.Kernel.ListSort
import CS162.Kernel.Preempt
import CS162.Kernel.Cond
import CS162.Kernel.Chain
import CS162.Kernel.Yield
import CS162.Kernel.Alarm
import CS162.Kernel.FixedPoint
import CS162.Kernel.Mlfqs
import CS162.Kernel.LoadAvg
import CS162.Kernel.Malloc
import CS162.Kernel.MallocRuns
import CS162.Devices.Partition
import CS162.Runtime.Arithmetic
import CS162.Runtime.Ustar
import CS162.Hw3.MmAlloc
import CS162.Hw3.HeapRuns
import CS162.Hw3.Realloc
import CS162.Hw0.Wc
import CS162.Hw1.Tokenizer
import CS162.Hw1.TokenBuffer
import CS162.Hw2.Wq
import CS162.Hw2.WqRuns
import CS162.Hw2.Request
import CS162.Hw2.Send
import CS162.Hw2.Relay
import CS162.Hw2.Server
import CS162.Hw2.Connections
import CS162.Devices.Intq
import CS162.Devices.IntqRuns
import CS162.Devices.Serial
import CS162.Kernel.Hash
