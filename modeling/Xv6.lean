import Xv6.System
import Xv6.Mapping
import Xv6.Release
import Xv6.Lib.Run
import Xv6.RegionTable
import Xv6.Unmap
import Xv6.RegionCalls
import Xv6.RegionSet
import Xv6.KernelMap
import Xv6.Grow
import Xv6.Share
import Xv6.Load
import Xv6.ExecSpec
import Xv6.Inherit
import Xv6.ForkSpec
import Xv6.Resize
import Xv6.ExitSpec
import Xv6.CowSpec
import Xv6.WindowSpec
import Xv6.FaultProgress
import Xv6.Lib.Holding
import Xv6.Ownership
import Xv6.Trades
import Xv6.RegionTrades
import Xv6.SpaceTrades
import Xv6.Sane
import Xv6.Supply
import Xv6.Boot
import Xv6.ExecInput
import Xv6.Steps
import Xv6.Lib.Ring
import Xv6.Bcache
import Xv6.Log
import Xv6.BcacheSpec
import Xv6.LogSpec
import Xv6.StorageSteps
import Xv6.Coherence
import Xv6.StorageRuns
import Xv6.Crash
import Xv6.GroupCommit
import Xv6.LogSpace
import Xv6.PageSteps
import Xv6.KernelHalf
import Xv6.ForkTotal
import Xv6.Launch
import Xv6.WritePermission
import Xv6.StepTrades
import Xv6.GuardPage
import Xv6.Lib.Handles
import Xv6.Descriptors
import Xv6.DescriptorSpec
import Xv6.FileSteps
import Xv6.DescriptorBalance
import Xv6.FileBinding
import Xv6.Forking
import Xv6.ForkingSteps
import Xv6.HalfBuilt
import Xv6.ForkSteps
import Xv6.Lib.Cyclic
import Xv6.Pipe
import Xv6.PipeFifo
import Xv6.PipeWakeup
import Xv6.Ptable
import Xv6.ProcTree
import Xv6.ProcTreeRuns
import Xv6.ProcExit
import Xv6.FileTable
import Xv6.FileCounts
import Xv6.Lib.Bytes
import Xv6.FsLayout
import Xv6.Lib.Slots
import Xv6.BlockRefs
import Xv6.Mkfs
import Xv6.MkfsSpec
import Xv6.MkfsImage
import Xv6.Inodes
import Xv6.InodeReads
import Xv6.MkfsHoles
import Xv6.MkfsNames
import Xv6.BlockMap
import Xv6.InodeBlocks
import Xv6.InodeOwners
import Xv6.InodeTrunc
import Xv6.Icache
import Xv6.IcacheSpec
import Xv6.IcacheSteps
import Xv6.BlockOwnership
import Xv6.IcacheLinks
import Xv6.IcacheCoherence
import Xv6.IcacheRace
import Xv6.CowContract
import Xv6.CopyExact
import Xv6.UnmapFrame
import Xv6.FileWrite
import Xv6.LazyLoad
import Xv6.WriteBack
import Xv6.UnmapFailure
import Xv6.Exhaustion
import Xv6.Ide
import Xv6.IdeQueue
import Xv6.Sleep
import Xv6.SleepLocks
import Xv6.Wakeup
import Xv6.Console
import Xv6.Tty
import Xv6.LineDiscipline
import Xv6.FirstRuns
import Xv6.FrameSafety
import Xv6.DirectorySteps
import Xv6.LoadedDirectory
import Xv6.PageIn
import Xv6.GrowFailure
import Xv6.Shrink
import Xv6.CopyPanics
import Xv6.FullPages
import Xv6.ForkMemory
import Xv6.ForkTrace
import Xv6.RegionReport
import Xv6.UserMemory
import Xv6.CopyoutSafety
import Xv6.ArgStack
import Xv6.ExecImage
import Xv6.SysExec
import Xv6.ExecArgs
import Xv6.ExecPasses
import Xv6.ExecMisread
import Xv6.ExecRegions
import Xv6.InodeContents
import Xv6.Grep
import Xv6.MpTable
import Xv6.Directories
import Xv6.FlatMap
import Xv6.Memmove
import Xv6.ShellParser
import Xv6.ShellWords
