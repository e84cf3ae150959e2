import Lockhammer.Interleaving.Count
import Lockhammer.Interleaving.Queue
import Lockhammer.Tests.CasLockref
import Lockhammer.Measure.Barrier
import Lockhammer.Mysql.EventMutex
import Lockhammer.Sms.ClhSpinlock
import Lockhammer.Interleaving.LinkedQueue
import Lockhammer.Linux.OsqLock
import Lockhammer.Linux.OsqRefinement
import Lockhammer.Linux.OsqProperties
import Lockhammer.Linux.QueuedSpinlock
import Lockhammer.Linux.QueuedSpinlockRefinement
import Lockhammer.Linux.QueuedSpinlockWord
import Lockhammer.Linux.QueuedSpinlockProperties
import Lockhammer.Measure.StartHandshake
import Lockhammer.Jvm.ParkEvent
import Lockhammer.Tbb.SpinRwMutex
import Lockhammer.Interleaving.McsQueue
import Lockhammer.Linux.HybridSpinlock
import Lockhammer.Linux.HybridSpinlockQueue
import Lockhammer.Linux.HybridSpinlockTickets
import Lockhammer.Linux.HybridSpinlockProperties
import Lockhammer.CLib.Strtoul
import Lockhammer.Harness.Args
import Lockhammer.Harness.Rerun
import Lockhammer.Interleaving.LinkedList
import Lockhammer.Jvm.ObjectMonitor
import Lockhammer.Jvm.ObjectMonitorLists
import Lockhammer.Jvm.Succession
import Lockhammer.Jvm.ObjectMonitorSuccession
import Lockhammer.Interleaving.Exclusive
import Lockhammer.Mysql.CasEventMutex
import Lockhammer.Linux.TicketSpinlock
import Lockhammer.Tests.CounterLocks
import Lockhammer.CLib.IntLoop
import Lockhammer.Harness.CpuRanges
import Lockhammer.Harness.PinningOrder
import Lockhammer.Harness.Affinity
import Lockhammer.Harness.Placement
import Lockhammer.Harness.Report
import Lockhammer.Measure.Cancellation
import Lockhammer.Linux.TicketDepth
import Lockhammer.Harness.Grammar
import Lockhammer.Harness.Hugepages
import Lockhammer.Harness.HugepageAlloc
import Lockhammer.Search.Selection
import Lockhammer.Measure.Calibration
import Lockhammer.Measure.Progress
import Lockhammer.Harness.LockMemory
import Lockhammer.Harness.TableAccess
import Lockhammer.Linux.OsqParameters
import Lockhammer.Tbb.ReaderWriterRatio
import Lockhammer.Measure.NoisyCalibration
import Lockhammer.Interleaving.Fairness
import Lockhammer.Linux.TicketFairness
import Lockhammer.Sms.ClhFairness
import Lockhammer.Measure.BarrierProgress
import Lockhammer.Measure.HandshakeProgress
import Lockhammer.Interleaving.RetryLoop
import Lockhammer.Interleaving.Ownership
import Lockhammer.Tests.SwapMutex
import Lockhammer.Mysql.MutexExclusion
import Lockhammer.Tests.CounterBuilds
import Lockhammer.Measure.SyncBuilds
import Lockhammer.Tbb.SpinRwProgress
import Lockhammer.Linux.QueuedSpinlockOrder
import Lockhammer.Linux.QueuedSpinlockBuilds
import Lockhammer.Measure.Completion
import Lockhammer.Harness.Experiments
import Lockhammer.Linux.OsqBuilds
import Lockhammer.Linux.QueuedSpinlockFairness
import Lockhammer.Harness.CpufreqScaling
import Lockhammer.Harness.Invocation
import Lockhammer.Linux.OsqFairness
