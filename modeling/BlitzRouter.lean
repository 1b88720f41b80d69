import BlitzRouter.Arena
import BlitzRouter.CommonPrefix
import BlitzRouter.PrefixTrie
import BlitzRouter.RadixCore
import BlitzRouter.RadixShape
import BlitzRouter.RadixEdit
import BlitzRouter.RadixGrow
import BlitzRouter.RadixSplit
import BlitzRouter.RadixCut
import BlitzRouter.RadixLookup
import BlitzRouter.RadixScan
import BlitzRouter.RadixDescent
import BlitzRouter.RadixAlias
import BlitzRouter.RadixInsert
import BlitzRouter.RadixRemove
import BlitzRouter.RadixRefine
import BlitzRouter.RadixCount
import BlitzRouter.RadixRepresentation
import BlitzRouter.Ledger
import BlitzRouter.HashTable
import BlitzRouter.BackendAgreement
import BlitzRouter.Kvcache
import BlitzRouter.ScheduleState
import BlitzRouter.Entry
import BlitzRouter.ExceptContext
import BlitzRouter.Completion
import BlitzRouter.CompletionMeter
import BlitzRouter.CompletionBlocks
import BlitzRouter.CompletionDeliver
import BlitzRouter.CompletionExcept
import BlitzRouter.Runs
import BlitzRouter.Replica
import BlitzRouter.ReplicaBooks
import BlitzRouter.Audit
import BlitzRouter.BatchSize
import BlitzRouter.WaitingRequests
import BlitzRouter.TokenBalance
import BlitzRouter.Ownership
import BlitzRouter.GuardedRuns
import BlitzRouter.PhaseTracking
import BlitzRouter.PhaseLegality
import BlitzRouter.StaleOutputs
import BlitzRouter.SchedSnapshot
import BlitzRouter.IncrementalMirror
import BlitzRouter.Rollout
import BlitzRouter.PredictorContext
import BlitzRouter.ScheduleStep
import BlitzRouter.SimulatedStep
import BlitzRouter.RolloutLoop
import BlitzRouter.RolloutRuns
import BlitzRouter.RolloutResidue
import BlitzRouter.RolloutThreads
import BlitzRouter.RolloutSavepoint
import BlitzRouter.LeastTtftProtocol
import BlitzRouter.ReqIdTrie
import BlitzRouter.InFlight
import BlitzRouter.MirrorExact
import BlitzRouter.MirrorInFlight
import BlitzRouter.ChatCompletions
import BlitzRouter.CommitRuns
import BlitzRouter.FaultDelivery
import BlitzRouter.CounterRestoration
import BlitzRouter.FullBlocks
import BlitzRouter.BlockHashing
import BlitzRouter.RadixSize
import BlitzRouter.Validation
import BlitzRouter.TokenBacking
import BlitzRouter.PolicyDelivery
import BlitzRouter.AbortRecoverySafety
import BlitzRouter.Fairness
import BlitzRouter.AbortRecoveryFairness
import BlitzRouter.AbortRecoveryLiveness
import BlitzRouter.CompressedTrie
import BlitzRouter.SortedSearch
import BlitzRouter.LoweringLevels
import BlitzRouter.LoweringBoxes
import BlitzRouter.OwnedCells
import BlitzRouter.LoweringPointers
import BlitzRouter.LoweringHeaps
import BlitzRouter.LoweringLadder
import BlitzRouter.ClosingStreams
import BlitzRouter.ResponseChannels
import BlitzRouter.ResponseLines
import BlitzRouter.LoopPlaces
import BlitzRouter.LoopLines
import BlitzRouter.LoopDelivery
import BlitzRouter.TokenDelivery
import BlitzRouter.TokenDeliverySafety
import BlitzRouter.SpanTiling
import BlitzRouter.RolloutConservation
import BlitzRouter.RolloutTtft
import BlitzRouter.ValidationLimits
import BlitzRouter.SnapshotAbsorption
import BlitzRouter.RolloutReuse
import BlitzRouter.RadixEviction
import BlitzRouter.HashTableIndex
import BlitzRouter.InsertCounts
import BlitzRouter.ReqIdHistory
import BlitzRouter.ReqIdEffects
import BlitzRouter.OntoHashes
import BlitzRouter.ExceptHistory
import BlitzRouter.LiveFlags
import BlitzRouter.BinaryRounding
import BlitzRouter.Generation
import BlitzRouter.ChannelRuns
import BlitzRouter.Extremes
import BlitzRouter.Balancing
import BlitzRouter.PolicyDsl
import BlitzRouter.PolicyLowering
import BlitzRouter.PolicyCatalogue
import BlitzRouter.PolicyCluster
import BlitzRouter.PolicyClusterRuns
import BlitzRouter.EpochReuse
import BlitzRouter.PolicyBalance
import BlitzRouter.PolicyRotation
import BlitzRouter.PrebleFlavours
import BlitzRouter.PrebleLoads
import BlitzRouter.PrebleBursts
import BlitzRouter.PrebleTpsBursts
import BlitzRouter.AibrixPolicy
import BlitzRouter.WeightedPick
import BlitzRouter.SlidingWindow
import BlitzRouter.IdleCredit
import BlitzRouter.IdleCreditExact
import BlitzRouter.CostModel
import BlitzRouter.EvenSplit
import BlitzRouter.BatchFromStep
import BlitzRouter.VidurFiles
import BlitzRouter.VidurPredictions
import BlitzRouter.OnlineCorrection
import BlitzRouter.RolloutPricing
import BlitzRouter.StepReceiver
import BlitzRouter.StreamEnd
import BlitzRouter.TokenizerPool
