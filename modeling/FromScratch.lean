import FromScratch.MapReduce.Mapper
import FromScratch.MapReduce.Reducer
import FromScratch.Proofs.JobOutcome
import FromScratch.Proofs.AttemptBookkeeping
import FromScratch.Proofs.PhaseProgress
import FromScratch.Proofs.AttemptRules
import FromScratch.Proofs.PublishRules
import FromScratch.Proofs.MapAttempt
import FromScratch.Proofs.ReduceAttempt
import FromScratch.Proofs.ReduceFailures
import FromScratch.Proofs.MergeOrder
import FromScratch.Proofs.MergeSorted
import FromScratch.Proofs.MapOutput
import FromScratch.Proofs.ReduceOutput
import FromScratch.Proofs.JobRuns
import FromScratch.Proofs.PipelineCorrectness
import FromScratch.Proofs.DuplicateAttempts
import FromScratch.Proofs.ScheduleIndependence
import FromScratch.Proofs.SpillOrder
import FromScratch.Proofs.CombinerEquivalence
import FromScratch.Proofs.AtomicPublication
import FromScratch.Inference.Loader
import FromScratch.Proofs.ModelReload
import FromScratch.Proofs.ModelTruncation
import FromScratch.Proofs.ModelSizes
import FromScratch.Proofs.GemmRational
import FromScratch.Inference.Session
import FromScratch.Proofs.BufferReuse
import FromScratch.Proofs.TopologicalOrder
import FromScratch.Lib.Dataflow
import FromScratch.Proofs.SessionMemory
import FromScratch.Proofs.SlotOwnership
import FromScratch.Proofs.ConstantFolding
import FromScratch.Proofs.DeadNodes
import FromScratch.Proofs.GroupCalls
import FromScratch.Proofs.BatchClients
import FromScratch.Proofs.BatchPromises
import FromScratch.Proofs.HttpBounds
import FromScratch.Proofs.PoolBlocks
import FromScratch.Proofs.ShardCover
import FromScratch.Proofs.CounterText
import FromScratch.Proofs.ConfigNumbers
import FromScratch.Proofs.BackupEvidence
import FromScratch.Proofs.AttemptLedger
import FromScratch.Proofs.WorkAccounting
import FromScratch.Proofs.WorkerRegistry
import FromScratch.Proofs.FailureDetector
import FromScratch.Proofs.LoneWorker
import FromScratch.Proofs.JobCounters
import FromScratch.Proofs.EvalAccuracy
import FromScratch.Proofs.LocalRuns
import FromScratch.Proofs.ReferenceRuns
import FromScratch.Proofs.WordCountRuns
