import Dana.AddrLoop
import Dana.ByteMem
import Dana.Pmm
import Dana.PmmInit
import Dana.Hhdm
import Dana.Zalloc
import Dana.Pmap
import Dana.PmapInv
import Dana.PmapWalk
import Dana.PmapOps
import Dana.X86
import Dana.SyscallEntry
import Dana.ThreadSwitch
import Dana.Thread
import Dana.SchedRuns
import Dana.LinkedRing
import Dana.RadixTree
import Dana.Sched
import Dana.SchedInv
import Dana.SchedLinks
import Dana.Transition
import Dana.PmapRefine
import Dana.PmapFree
import Dana.PmapDestroy
import Dana.SyscallReturn
import Dana.Zones
import Dana.RingBuffer
import Dana.Mailbox
import Dana.Ipc
import Dana.IpcMsg
import Dana.IpcRuns
import Dana.IpcSpec
import Dana.IpcInv
import Dana.IpcWakeup
import Dana.IpcReceive
import Dana.IpcZone
import Dana.IpcKmsgZone
import Dana.IpcOwnership
import Dana.IpcLedger
import Dana.IpcPorts
import Dana.ThreadDestroy
import Dana.ThreadZones
import Dana.ThreadLife
import Dana.Syscall
import Dana.VmMap
import Dana.IntervalList
import Dana.VmPages
import Dana.VmMapInv
import Dana.VmMapOps
import Dana.PmapHw
import Dana.VmCreate
import Dana.VmRuns
import Dana.VmAttrs
import Dana.VmExact
import Dana.VmFrames
import Dana.VmCover
import Dana.VmOrphans
import Dana.PmmExact
import Dana.IpcRoundTrip
import Dana.HwStore
import Dana.MachO
import Dana.Exec
import Dana.VmShape
import Dana.LoadFrame
import Dana.LoadReads
import Dana.ExecDarwin
import Dana.ExecMap
import Dana.ExecAtomic
import Dana.VmBytes
import Dana.VmRange
import Dana.VmFaults
import Dana.VmRollback
import Dana.LoadStores
import Dana.PageLoops
import Dana.MachoUnload
import Dana.LargePages
import Dana.LoadBytes
import Dana.ExecTarget
import Dana.PageTrees
import Dana.SharedHalf
import Dana.Tlb
import Dana.PagesLeft
import Dana.UserWrites
import Dana.IpcQueue
import Dana.NameTable
import Dana.IpcNames
import Dana.RoundRobin
import Dana.SchedSteps
import Dana.SchedTurns
import Dana.DestroyQueue
import Dana.LoadEntry
import Dana.LoadRights
import Dana.ZoneGrowth
import Dana.SwitchFlags
import Dana.PmmCount
import Dana.Numerals
import Dana.Printf
import Dana.FormatScan
import Dana.Fb
import Dana.VmDestroy
import Dana.VmLives
import Dana.Typewriter
import Dana.FbShows
import Dana.FormatMeaning
import Dana.Console
import Dana.VmKeeps
import Dana.VmZones
import Dana.VmRest
import Dana.ThreadPages
import Dana.Machine
import Dana.Boot
import Dana.PageFaults
import Dana.ExecRuns
import Dana.KernelRuns
