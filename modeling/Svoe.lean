import Svoe.Airflow.DagRuns
import Svoe.Airflow.Sync
import Svoe.Airflow.Transport
import Svoe.Backtester.Aggregate
import Svoe.Backtester.BuyLowSellHigh
import Svoe.Backtester.Instruments
import Svoe.Backtester.Limit
import Svoe.Backtester.Loop
import Svoe.Backtester.MissingFeature
import Svoe.Backtester.Record
import Svoe.Backtester.Update
import Svoe.Backtester.Value
import Svoe.Backtester.Workers
import Svoe.Blocks.Blockwise
import Svoe.Blocks.GroupOverlaps
import Svoe.Blocks.LooksBack
import Svoe.Blocks.Overlaps
import Svoe.Blocks.RangePartition
import Svoe.Blocks.Ranges
import Svoe.Blocks.Rounding
import Svoe.Common.Buckets
import Svoe.Common.DeltaLog
import Svoe.Common.Frame
import Svoe.Common.FrameSort
import Svoe.Common.FrameSplit
import Svoe.DataFeed.BlockScan
import Svoe.DataFeed.PodConfigs
import Svoe.DataFeed.ReuseIndex
import Svoe.DataFeed.SymbolDistribution
import Svoe.Features.ConfigOrder
import Svoe.Features.DataRanges
import Svoe.Features.DefinitionsLoader
import Svoe.Features.Generator
import Svoe.Features.InputGroups
import Svoe.Features.LiveEvents
import Svoe.Features.Ohlcv
import Svoe.Features.Positions
import Svoe.Features.PreprocessCache
import Svoe.Features.SampledPrices
import Svoe.Features.TradeVolume
import Svoe.Ingest.Catalogue
import Svoe.Ingest.Metadata
import Svoe.Ingest.Pipeline
import Svoe.L2Book.Blockwise
import Svoe.L2Book.CryptofeedBook
import Svoe.L2Book.DeadLevels
import Svoe.L2Book.KeepsRows
import Svoe.L2Book.LegacySnapshots
import Svoe.L2Book.NetSize
import Svoe.L2Book.Preprocess
import Svoe.L2Book.PriceFeatures
import Svoe.L2Book.Regroup
import Svoe.L2Book.Sampling
import Svoe.L2Book.Split
import Svoe.Perf.EarlyStop
import Svoe.Perf.KubeEvents
import Svoe.Perf.KubeWatch
import Svoe.Perf.LockDiscipline
import Svoe.Perf.LostPods
import Svoe.Perf.OomMarking
import Svoe.Perf.PodObjectEvents
import Svoe.Perf.SchedulingState
import Svoe.Perf.WakeUp
import Svoe.Portion.Interval
import Svoe.Portion.IntervalDict
import Svoe.Portion.Sort
import Svoe.Series.Accumulate
import Svoe.Series.AsOf
import Svoe.Series.Filled
import Svoe.TaskGraph.CacheActor
import Svoe.TaskGraph.CachedChains
import Svoe.TaskGraph.CachedRun
import Svoe.TaskGraph.Calculation
import Svoe.TaskGraph.ChainGraph
import Svoe.TaskGraph.ChainStreams
import Svoe.TaskGraph.Demultiplex
import Svoe.TaskGraph.Evaluate
import Svoe.TaskGraph.ExecuteGraph
import Svoe.TaskGraph.FixedWindows
import Svoe.TaskGraph.JoinRanges
import Svoe.TaskGraph.JoinSpec
import Svoe.TaskGraph.Lookahead
import Svoe.TaskGraph.OfflineLive
import Svoe.TaskGraph.ReachGroups
import Svoe.TaskGraph.RunResult
import Svoe.TaskGraph.Runner
import Svoe.TaskGraph.StoreFeature
import Svoe.TaskGraph.StoreRoundTrip
import Svoe.TaskGraph.StoredBlocks
import Svoe.TaskGraph.Wiring
import Svoe.Transition.Lock
import Svoe.Transition.Raising
import Svoe.Transition.While
import Svoe.TaskGraph.BlockPaths
import Svoe.TaskGraph.BlockStore
