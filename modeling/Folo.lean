import Folo.Awaiters.Drain
import Folo.Awaiters.Queue
import Folo.Awaiters.Runs
import Folo.Awaiters.Set
import Folo.BenchHistory.Backfill
import Folo.BenchHistory.BaseWindows
import Folo.BenchHistory.BestOf
import Folo.BenchHistory.CacheCoherence
import Folo.BenchHistory.Codec
import Folo.BenchHistory.ParallelFold
import Folo.BenchHistory.PruneSafety
import Folo.BenchHistory.ScopeRelations
import Folo.BenchHistory.SplitPoint
import Folo.BenchHistory.StorageKeys
import Folo.Cpulist.Emit
import Folo.Cpulist.Parse
import Folo.Dure.CommandLine
import Folo.Dure.Console
import Folo.Dure.Framing
import Folo.Dure.SessionIds
import Folo.Dure.Streams
import Folo.Events.Auto
import Folo.Events.AutoEquiv
import Folo.Events.AutoInv
import Folo.Events.EventInner
import Folo.Events.LocalManual
import Folo.Events.LocalManualRuns
import Folo.Events.Manual
import Folo.Events.ManualInv
import Folo.Events.ManualSound
import Folo.Events.ManualWakeups
import Folo.EventsOnce.LocalEvent
import Folo.EventsOnce.LocalInv
import Folo.EventsOnce.State
import Folo.EventsOnce.SyncEvent
import Folo.EventsOnce.SyncInv
import Folo.EventsOnce.SyncRuns
import Folo.FutureDeque.Core
import Folo.FutureDeque.CoreInv
import Folo.FutureDeque.Handles
import Folo.FutureDeque.Ideal
import Folo.FutureDeque.Outputs
import Folo.FutureDeque.Releases
import Folo.FutureDeque.WakeRuns
import Folo.FutureDeque.Wakes
import Folo.HistoryGithub.Model
import Folo.HistoryGithub.Reconcile
import Folo.HistoryGithub.Scope
import Folo.InfinityPool.Iteration
import Folo.InfinityPool.PoolInv
import Folo.InfinityPool.PoolRuns
import Folo.InfinityPool.RawOpaquePool
import Folo.InfinityPool.Slab
import Folo.InfinityPool.SlabRuns
import Folo.InfinityPool.Unwinding
import Folo.InfinityPool.VacancyMap
import Folo.InfinityPool.VacancyRuns
import Folo.InfinityPool.VacancyTracker
import Folo.Lib.Coders
import Folo.Lib.Descent
import Folo.Lib.FreeList
import Folo.Lib.Hops
import Folo.Lib.Links
import Folo.Lib.Loops
import Folo.Lib.Machine
import Folo.Lib.Quoting
import Folo.Lib.Runs
import Folo.Lib.Separators
import Folo.Lib.Threads
import Folo.Lib.Worklist
import Folo.Linked.OneInstance
import Folo.ManyCpus.CpuMask
import Folo.ManyCpus.PinFaithful
import Folo.ManyCpus.Take
import Folo.ManyCpus.TakeAll
import Folo.Metrics.PairRuns
import Folo.Publishing.TagSafety
import Folo.Regional.CachedFresh
import Folo.Regional.LocalWrites
import Folo.ReleasePlan.Agreement
import Folo.ReleasePlan.AnalysisOrder
import Folo.ReleasePlan.Anchors
import Folo.ReleasePlan.Coherent
import Folo.ReleasePlan.Compatibility
import Folo.ReleasePlan.Components
import Folo.ReleasePlan.Consequences
import Folo.ReleasePlan.DecisionMinimums
import Folo.ReleasePlan.Diffs
import Folo.ReleasePlan.Evidence
import Folo.ReleasePlan.Expanded
import Folo.ReleasePlan.GitPaths
import Folo.ReleasePlan.LineEdits
import Folo.ReleasePlan.LinkExpansion
import Folo.ReleasePlan.LinkTargets
import Folo.ReleasePlan.ManifestEdits
import Folo.ReleasePlan.Patches
import Folo.ReleasePlan.Places
import Folo.ReleasePlan.Predictions
import Folo.ReleasePlan.Proposals
import Folo.ReleasePlan.ReportChecks
import Folo.ReleasePlan.Resolution
import Folo.ReleasePlan.Semver
import Folo.ReleasePlan.VersionGroups
