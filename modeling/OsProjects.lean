import OsProjects.Lib.Paging
import OsProjects.Lib.Policies
import OsProjects.Lib.Ring
import OsProjects.Lib.Runs
import OsProjects.Lib.Loops
import OsProjects.Lib.Chain
import OsProjects.Lib.Select
import OsProjects.Lib.Workload
import OsProjects.Lib.Decimal
import OsProjects.Lib.ForkJoin
import OsProjects.Lib.Bytes
import OsProjects.Lib.Growable
import OsProjects.Lib.Hooks
import OsProjects.PageSim.Model
import OsProjects.PageSim.Frames
import OsProjects.PageSim.Queues
import OsProjects.PageSim.Lru
import OsProjects.PageSim.Optimality
import OsProjects.PageSim.Bounds
import OsProjects.PageSim.Rename
import OsProjects.PageSim.LoadOrder
import OsProjects.PageSim.Range
import OsProjects.PageSim.VictimSearch
import OsProjects.PageSim.Main
import OsProjects.Sched.Model
import OsProjects.Sched.Segments
import OsProjects.Sched.RoundRobin
import OsProjects.Sched.Completion
import OsProjects.Sched.Policies
import OsProjects.Sched.Dispatch
import OsProjects.Sched.Tiling
import OsProjects.Sched.Service
import OsProjects.Sched.Switches
import OsProjects.Sched.BusyPeriods
import OsProjects.Sched.Simultaneous
import OsProjects.Sched.ArrivalOrder
import OsProjects.Sched.ShortestFirst
import OsProjects.Sched.LargeQuantum
import OsProjects.Sched.Fairness
import OsProjects.Sched.QueueBounds
import OsProjects.Sched.Gantt
import OsProjects.Sched.Preemption
import OsProjects.Sched.ShortestRemaining
import OsProjects.Sched.Accounting
import OsProjects.Sched.Main
import OsProjects.Fat.Model
import OsProjects.Fat.Blocks
import OsProjects.Fat.Allocation
import OsProjects.Fat.Contents
import OsProjects.Fat.Operations
import OsProjects.Fat.Linked
import OsProjects.Fat.Invariant
import OsProjects.Fat.Append
import OsProjects.Fat.Isolation
import OsProjects.Fat.Range
import OsProjects.Fat.Termination
import OsProjects.Fat.Flat
import OsProjects.Fat.Refinement
import OsProjects.Fat.Image
import OsProjects.Fat.Processes
import OsProjects.Fat.Frame
import OsProjects.Fat.Absent
import OsProjects.Fat.Deletion
import OsProjects.Hooks.Modules
import OsProjects.IoTrace.Model
import OsProjects.IoTrace.Integrity
import OsProjects.IoTrace.Report
import OsProjects.ProcInfo.Model
import OsProjects.ProcInfo.Readers
import OsProjects.ProcInfo.Chunks
import OsProjects.ProcInfo.Rows
import OsProjects.ProcInfo.Device
import OsProjects.ProcInfo.Parse
import OsProjects.ProcTree.Model
import OsProjects.ProcTree.Family
import OsProjects.PairSums.Model
import OsProjects.PairSums.Totals
import OsProjects.Hooks.FileVarea
import OsProjects.IoTrace.Lifecycle
import OsProjects.PairSums.AnyInput
import OsProjects.PairSums.Failures
import OsProjects.Lib.Nearest
import OsProjects.Sched.Clock
import OsProjects.Sched.Horizon
