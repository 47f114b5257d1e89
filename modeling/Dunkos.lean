import Dunkos.Lib.Chain
import Dunkos.Lib.Reach
import Dunkos.IntrusiveList
import Dunkos.ListSpec
import Dunkos.Hashtable
import Dunkos.Bitmap
import Dunkos.Paging
import Dunkos.WordMem
import Dunkos.Heap
import Dunkos.PageTable
import Dunkos.Thread
import Dunkos.ThreadRun
import Dunkos.Lock
import Dunkos.Scheduler
import Dunkos.Places
import Dunkos.Semaphore
import Dunkos.Condvar
import Dunkos.PageTableBuffer
import Dunkos.FdTable
import Dunkos.PageFree
import Dunkos.SemTable
import Dunkos.UserLock
import Dunkos.Process
import Dunkos.WaitExit
import Dunkos.Lib.Loop
import Dunkos.Pml4Copy
import Dunkos.Spt
import Dunkos.Reaping
import Dunkos.Timer
import Dunkos.IsrStub
import Dunkos.SwitchTo
import Dunkos.Inode
import Dunkos.Directory
import Dunkos.Lib.Call
import Dunkos.Lib.LockTrace
import Dunkos.Filesys
import Dunkos.FreeSectors
import Dunkos.InodeMap
import Dunkos.FsLocks
import Dunkos.Removal
import Dunkos.BlockDevice
import Dunkos.DiskFormat
import Dunkos.Mkusr
import Dunkos.Partition
import Dunkos.Stdio
import Dunkos.Console
import Dunkos.SyscallLinkage
import Dunkos.HeapMetadata
import Dunkos.Xprintf
import Dunkos.BitmapScan
import Dunkos.InsertOrdered
import Dunkos.StringLib
import Dunkos.Lib.Descent
import Dunkos.Pci
import Dunkos.Kcalloc
import Dunkos.InterruptLevel
import Dunkos.PageLoad
import Dunkos.ElemSwap
import Dunkos.Lib.Select
import Dunkos.ListFit
import Dunkos.HashSize
import Dunkos.HashDestroy
import Dunkos.FdErrors
import Dunkos.PageValid
import Dunkos.PageFault
import Dunkos.FormatInt
import Dunkos.FormatMemory
import Dunkos.FormatScan
import Dunkos.FormatText
import Dunkos.Lib.LastWrite
import Dunkos.PageFlags
import Dunkos.BlockTransfer
import Dunkos.StreamPosition
import Dunkos.SleepTime
import Dunkos.ExecLoad
import Dunkos.AllocateSpace
import Dunkos.CreateInode
import Dunkos.SignalAll
import Dunkos.DeadThreads
import Dunkos.ExecTotal
import Dunkos.PciSearch
import Dunkos.FindRsdp
import Dunkos.HashWord
import Dunkos.BitmapBuffer
import Dunkos.SafeMul
import Dunkos.FormatLong
import Dunkos.ReadyOrder
import Dunkos.BlockedCalls
import Dunkos.Lib.Serial
import Dunkos.Guarded
import Dunkos.BlockSerial
import Dunkos.BootPaging
import Dunkos.Translation
import Dunkos.FileInfo
import Dunkos.AcpiTables
import Dunkos.InterruptTable
import Dunkos.FormatMeaning
import Dunkos.TimeSlice
import Dunkos.MemCopy
