import TriOS.Library.Outcome
import TriOS.Library.Transition
import TriOS.Library.CircularList
import TriOS.Library.Blocks
import TriOS.Library.Bounded
import TriOS.Library.DeltaQueue
import TriOS.Libs.List
import TriOS.Libs.Printfmt
import TriOS.Libs.PrintfmtRuns
import TriOS.Libs.Strtol
import TriOS.Mm.DefaultPmm
import TriOS.Mm.FirstFit
import TriOS.Mm.PmmRuns
import TriOS.Process.Proc
import TriOS.Schedule.Sched
import TriOS.Libs.SkewHeap
import TriOS.Schedule.Stride
import TriOS.Schedule.Timer
import TriOS.Schedule.TimerRuns
import TriOS.Sync.Wait
import TriOS.Sync.Sem
import TriOS.Sync.SemRuns
import TriOS.Sync.Monitor
import TriOS.Sync.MonitorRuns
import TriOS.Sync.MonitorDiscipline
import TriOS.Library.Serial
import TriOS.Schedule.SchedRuns
import TriOS.Schedule.StrideRuns
import TriOS.Library.Chain
import TriOS.Process.Tree
import TriOS.Process.Pid
import TriOS.Process.Kernel
import TriOS.Process.KernelInv
import TriOS.Process.ForkExit
import TriOS.Process.KernelRuns
import TriOS.Process.TreeRuns
import TriOS.Process.WaitRuns
import TriOS.Libs.Hash
import TriOS.Fs.Bitmap
import TriOS.Fs.Sfs
import TriOS.Fs.Reclaim
import TriOS.Fs.ReclaimRuns
import TriOS.Libs.Error
import TriOS.Mm.Pte
import TriOS.Mm.Paging
import TriOS.Mm.PagingInv
import TriOS.Mm.PagingTables
import TriOS.Mm.PagingPages
import TriOS.Mm.Shape
import TriOS.Mm.PagingExit
import TriOS.Mm.ExitRange
import TriOS.Mm.PagingRuns
import TriOS.Mm.Teardown
import TriOS.Library.Requests
import TriOS.Mm.Fork
import TriOS.Mm.ForkRuns
import TriOS.Mm.CopyMm
import TriOS.Mm.PageMap
import TriOS.Mm.PageFault
import TriOS.Mm.SwapOut
import TriOS.Mm.SwapMm
import TriOS.Mm.SwapMmRuns
import TriOS.Mm.SwapManagers
import TriOS.Mm.BuddySystem
import TriOS.Library.Hoare
import TriOS.Fs.SfsIo
import TriOS.Fs.SfsInode
import TriOS.Fs.SfsKeeps
import TriOS.Fs.SfsRead
import TriOS.Fs.Vfs
import TriOS.Fs.File
import TriOS.Fs.VfsRefs
import TriOS.Fs.VfsPath
import TriOS.Fs.VfsTabs
import TriOS.Fs.VfsOpen
import TriOS.Fs.VfsCalls
import TriOS.Fs.VfsRuns
import TriOS.Library.Intervals
import TriOS.Library.Lockstep
import TriOS.Mm.MmStruct
import TriOS.Mm.UserMem
import TriOS.Mm.MmMap
import TriOS.Library.SecondChance
import TriOS.Mm.SwapClock
import TriOS.Schedule.RoundRobin
import TriOS.Schedule.RoundRobinRuns
import TriOS.Fs.BitmapBits
import TriOS.Fs.BitmapRuns
import TriOS.Fs.BlockMap
import TriOS.Fs.SfsFrame
import TriOS.Fs.FileBytes
import TriOS.Fs.FileRuns
import TriOS.Sync.PhilosophersCondvar
import TriOS.Mm.SwapLru
import TriOS.Mm.BestFit
import TriOS.Libs.SkewHeapLinks
import TriOS.Process.PidRuns
import TriOS.Schedule.StrideProgress
import TriOS.Process.Argv
import TriOS.Fs.Transfer
import TriOS.Mm.Slub
import TriOS.Mm.Slob
import TriOS.Mm.SlobList
import TriOS.Mm.SlobRuns
import TriOS.Mm.SlobCalls
import TriOS.Library.Ring
import TriOS.Fs.Stdin
import TriOS.Library.Memory
import TriOS.Fs.Dirent
import TriOS.Fs.Disk0
import TriOS.Library.CString
import TriOS.Library.Coherence
import TriOS.Libs.String
import TriOS.Debug.Kmonitor
import TriOS.User.Sh
import TriOS.Tools.Mksfs
import TriOS.Tools.MksfsCache
import TriOS.Tools.MksfsMount
import TriOS.Fs.Mount
import TriOS.Libs.PrintfmtRuns
import TriOS.Libs.Strtol
