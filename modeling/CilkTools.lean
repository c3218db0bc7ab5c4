import CilkTools.SeriesParallel
import CilkTools.GrowingDag
import CilkTools.Forest
import CilkTools.Cells
import CilkTools.OrderedProbing
import CilkTools.SPDag
import CilkTools.TimedDag
import CilkTools.Cilksan.Location
import CilkTools.Cilksan.DisjointSet
import CilkTools.Cilksan.Partition
import CilkTools.Cilksan.SPBag
import CilkTools.Cilksan.FrameData
import CilkTools.Cilksan.Hooks
import CilkTools.Cilksan.Program
import CilkTools.Cilksan.FrameSpec
import CilkTools.Cilksan.Placement
import CilkTools.Cilksan.BagInvariant
import CilkTools.Cilksan.Exactness
import CilkTools.Cilksan.StrandOrder
import CilkTools.Cilksan.LoopSync
import CilkTools.Cilksan.Driver
import CilkTools.Cilksan.SerialFilter
import CilkTools.Cilksan.Nesting
import CilkTools.Cilksan.LiveBags
import CilkTools.Cilksan.BagOwnership
import CilkTools.Cilksan.OwnershipRuns
import CilkTools.Cilksan.ChildReturns
import CilkTools.Cilksan.LoopBags
import CilkTools.Cilksan.CallStacks
import CilkTools.Cilksan.AccessStacks
import CilkTools.Cilksan.LockSets
import CilkTools.Cilksan.LockSetArray
import CilkTools.Cilksan.Intersect
import CilkTools.Cilksan.Chunk
import CilkTools.Cilksan.Line
import CilkTools.Cilksan.Dictionary
import CilkTools.Cilksan.QuerySpec
import CilkTools.Cilksan.UpdateSpec
import CilkTools.Cilksan.UpdateLoop
import CilkTools.Cilksan.QueryLoop
import CilkTools.Cilksan.ShadowMem
import CilkTools.Cilksan.ByteUpdates
import CilkTools.Cilksan.FastPath
import CilkTools.Cilksan.Occupancy
import CilkTools.Cilksan.OccupancyFilter
import CilkTools.Cilksan.OccupancyRuns
import CilkTools.Cilksan.RangeQueries
import CilkTools.Cilksan.RangeEnds
import CilkTools.Cilksan.LockedAccess
import CilkTools.Cilksan.LockedRuns
import CilkTools.Cilksan.LoopVersions
import CilkTools.Cilksan.UnlockedRaces
import CilkTools.Cilksan.AddrMap
import CilkTools.Cilksan.MallocSizes
import CilkTools.Cilksan.SetRange
import CilkTools.Cilksan.AllocHooks
import CilkTools.Cilksan.AllocMap
import CilkTools.Cilksan.HyperTable
import CilkTools.Cilksan.HyperTableSpec
import CilkTools.Cilksan.HyperTableRuns
import CilkTools.Cilksan.MergeViews
import CilkTools.Cilksan.ReduceViews
import CilkTools.Cilksan.ParallelExecution
import CilkTools.Cilksan.Locking
import CilkTools.Cilksan.Atomics
import CilkTools.Cilkscale.ShadowStack
import CilkTools.Cilkscale.WorkSpan
import CilkTools.Cilkscale.Steals
import CilkTools.Cilkscale.SyncRegions
import CilkTools.Csi.FedTables
import CilkTools.Csi.EntryArrays
import CilkTools.Csi.UnitTables
import CilkTools.Csi.Csirt
import CilkTools.Csi.Csanrt
import CilkTools.Csi.Lookups
import CilkTools.Csi.Teardown
import CilkTools.Cilksan.PackedLineRuns
import CilkTools.Representatives
import CilkTools.RefCounts
import CilkTools.Cilkiaf.CacheLines
import CilkTools.Cilksan.ProbeRuns
import CilkTools.Cilksan.HyperTableCounts
import CilkTools.Cilksan.PackedAccess
import CilkTools.Cilksan.Stack
import CilkTools.Cilksan.RaceReports
import CilkTools.Cilksan.Continuations
import CilkTools.Cilksan.CallStackNodes
import CilkTools.Cilksan.SetNodes
import CilkTools.Cilksan.RecordMoves
import CilkTools.LinkedLists
import CilkTools.Bitmaps
import CilkTools.Cilksan.Slabs
import CilkTools.Cilksan.SlabLinks
import CilkTools.Cilksan.SlabSpec
import CilkTools.Cilksan.SlabAllocators
import CilkTools.Cilksan.SlabRuns
import CilkTools.Cilksan.SetForest
import CilkTools.Cilksan.BagCounts
import CilkTools.PartialFolds
import CilkTools.Cilksan.ViewContents
import CilkTools.Cilksan.ViewHeap
import CilkTools.Cilksan.ReducerViews
import CilkTools.Cilksan.ParallelMarks
import CilkTools.Cilksan.ReducerOrder
import CilkTools.Cilksan.NestedSyncs
import CilkTools.Cilksan.LoopFreeTraces
import CilkTools.Cilksan.RaceDetector
import CilkTools.Cilksan.RecordedAccesses
import CilkTools.Cilksan.DetectorRuns
import CilkTools.Cilksan.RaceSoundness
import CilkTools.Cilksan.ByteEntries
import CilkTools.Cilksan.RaceDetection
import CilkTools.DagWork
import CilkTools.Cilkscale.RegionWork
import CilkTools.Cilkscale.Probes
import CilkTools.Cilkscale.ProbeDifferences
import CilkTools.Cilksan.StackReuse
