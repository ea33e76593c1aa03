import LearnedIndex.Lib.Words
import LearnedIndex.Lib.Search
import LearnedIndex.Lib.Chains
import LearnedIndex.Lib.Dyadic
import LearnedIndex.Lib.PreOrder
import LearnedIndex.Alexol.Base
import LearnedIndex.Alexol.Doubles
import LearnedIndex.Alexol.Slots
import LearnedIndex.Alexol.SlotsView
import LearnedIndex.Alexol.SlotsScan
import LearnedIndex.Alexol.ClosestGap
import LearnedIndex.Alexol.ClosestGapSlow
import LearnedIndex.Alexol.Gapped
import LearnedIndex.Alexol.GappedUpdate
import LearnedIndex.Alexol.DataNode
import LearnedIndex.Alexol.LeafLock
import LearnedIndex.Alexol.DataNodeSpec
import LearnedIndex.Alexol.DataNodeRebuild
import LearnedIndex.Alexol.DataNodeRun
import LearnedIndex.Alexol.WellFormed
import LearnedIndex.Alexol.FilledBounds
import LearnedIndex.Alexol.DataNodeExact
import LearnedIndex.Alexol.SearchExact
import LearnedIndex.Alexol.ModelNode
import LearnedIndex.Alexol.ModelNodeSpec
import LearnedIndex.Alexol.FanoutTree
import LearnedIndex.Alexol.Index
import LearnedIndex.Alexol.Restructure
import LearnedIndex.Alexol.ExpandRoot
import LearnedIndex.Alexol.Insert
import LearnedIndex.Alexol.Leaf
import LearnedIndex.Alexol.LeafParts
import LearnedIndex.Alexol.BitmapBounds
import LearnedIndex.Alexol.FanoutTreeSpec
import LearnedIndex.Alexol.FanoutPartition
import LearnedIndex.Alexol.FanoutCosts
import LearnedIndex.Alexol.FanoutCollapse
import LearnedIndex.Alexol.ImplicitBuild
import LearnedIndex.Alexol.Tree
import LearnedIndex.Alexol.TreeUpdate
import LearnedIndex.Alexol.HeapUpdate
import LearnedIndex.Alexol.IndexInvariant
import LearnedIndex.Alexol.DoublesDescent
import LearnedIndex.Alexol.Relink
import LearnedIndex.Alexol.Parent
import LearnedIndex.Alexol.PathCorrection
import LearnedIndex.Alexol.LeafReplacement
import LearnedIndex.Alexol.LeafSwap
import LearnedIndex.Alexol.Resize
import LearnedIndex.Alexol.Replace
import LearnedIndex.Alexol.SplitParts
import LearnedIndex.Alexol.SplitPlace
import LearnedIndex.Alexol.SplitLeaves
import LearnedIndex.Alexol.Split
import LearnedIndex.Alexol.SplitTree
import LearnedIndex.Alexol.PointOps
import LearnedIndex.Alexol.DoublesCalls
import LearnedIndex.Alexol.LeafChain
import LearnedIndex.Alexol.BulkFanout
import LearnedIndex.Alexol.Loaded
import LearnedIndex.Alexol.BulkLoadNode
import LearnedIndex.Alexol.LoadedTree
import LearnedIndex.Alexol.BulkLoad
import LearnedIndex.Alexol.ExpandDomain
import LearnedIndex.Alexol.ExpandSlots
import LearnedIndex.Alexol.ExpandedRoot
import LearnedIndex.Alexol.Scan
import LearnedIndex.Alexol.Iterators
import LearnedIndex.Alexol.ReverseIterator
import LearnedIndex.Alexol.Enumeration
import LearnedIndex.Alexol.TreeOrder
import LearnedIndex.Alexol.FiniteMap
import LearnedIndex.Alexol.Predecessor
import LearnedIndex.Lib.Machine
import LearnedIndex.Lib.Atomic
import LearnedIndex.Lib.Runs
import LearnedIndex.Lib.RunCursors
import LearnedIndex.Lib.Tournament
import LearnedIndex.Lib.Reads
import LearnedIndex.Lib.Ranges
import LearnedIndex.Lib.Tangents
import LearnedIndex.Lib.Greedy
import LearnedIndex.Alexol.Reclamation
import LearnedIndex.Alexol.ModelNodeLock
import LearnedIndex.Alexol.OptimisticRead
import LearnedIndex.Alexol.LeafLinks
import LearnedIndex.Alexol.LeafLinksInv
import LearnedIndex.Alexol.LeafLinksWrite
import LearnedIndex.Alexol.LeafLinksRun
import LearnedIndex.Alexol.LeafLinksOwners
import LearnedIndex.Alexol.LeafLinksProgress
import LearnedIndex.Alexol.ScanRetry
import LearnedIndex.Alexol.KeyCount
import LearnedIndex.Alexol.KeyBounds
import LearnedIndex.Alexol.Reached
import LearnedIndex.Alexol.TreeBlocks
import LearnedIndex.Alexol.RootModel
import LearnedIndex.Alexol.RootPointer
import LearnedIndex.Benchmark.Workload
import LearnedIndex.Benchmark.UniqueData
import LearnedIndex.Benchmark.Freshness
import LearnedIndex.Benchmark.SameWorkload
import LearnedIndex.Benchmark.UniqueSets
import LearnedIndex.Benchmark.OperationMix
import LearnedIndex.Benchmark.DataShift
import LearnedIndex.Benchmark.PgmModel
import LearnedIndex.Benchmark.PgmHull
import LearnedIndex.Benchmark.PgmSegment
import LearnedIndex.Benchmark.PgmMetric
import LearnedIndex.Benchmark.PgmExact
import LearnedIndex.Benchmark.PgmMse
import LearnedIndex.Benchmark.ScanAdapters
import LearnedIndex.Benchmark.UpsertAdapters
import LearnedIndex.Btreeolc.Model
import LearnedIndex.Btreeolc.Search
import LearnedIndex.Btreeolc.Insert
import LearnedIndex.Btreeolc.Run
import LearnedIndex.Btreeolc.Scan
import LearnedIndex.Btreeolc.Contents
import LearnedIndex.Btreeolc.Concurrent
import LearnedIndex.Btreeolc.SharedTree
import LearnedIndex.Btreeolc.Versions
import LearnedIndex.Btreeolc.Access
import LearnedIndex.Btreeolc.Linearizable
import LearnedIndex.Pgm.Dynamic
import LearnedIndex.Pgm.DynamicInsert
import LearnedIndex.Pgm.DynamicRun
import LearnedIndex.Pgm.DynamicSpec
import LearnedIndex.Pgm.DynamicMerge
import LearnedIndex.Pgm.LoserTree
import LearnedIndex.Pgm.DynamicLowerBound
import LearnedIndex.Pgm.DynamicIterator
import LearnedIndex.Pgm.DynamicScan
