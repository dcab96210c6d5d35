import KeyedLog.Scenario.Run
import KeyedLog.Schedule
import KeyedLog.Proofs.Log.Codec
import KeyedLog.Proofs.Log.Basic
import KeyedLog.Proofs.Log.Format
import KeyedLog.Proofs.Log.Buckets
import KeyedLog.Proofs.Attribute.Ids
import KeyedLog.Proofs.Attribute.Links
import KeyedLog.Proofs.Attribute.LinkMap
import KeyedLog.Proofs.Attribute.Kinds
import KeyedLog.Proofs.Watermark.Basic
import KeyedLog.Proofs.Watermark.AdjacentBatches
import KeyedLog.Proofs.Watermark.FirstGap
import KeyedLog.Proofs.Walk.Visit
import KeyedLog.Proofs.Walk.VisitAnywhere
import KeyedLog.Proofs.Walk.Rewind
import KeyedLog.Proofs.Walk.Trails
import KeyedLog.Proofs.Program.Container
import KeyedLog.Proofs.Program.Interference
import KeyedLog.Proofs.Program.Remainders
import KeyedLog.Proofs.Program.Succession
import KeyedLog.Proofs.Program.Alone
import KeyedLog.Proofs.Program.LoneThread
import KeyedLog.Proofs.Program.Inquiry
import KeyedLog.Proofs.Program.Stages
import KeyedLog.Proofs.Program.Simulation
import KeyedLog.Proofs.Segment.Memory
import KeyedLog.Proofs.Segment.Site
import KeyedLog.Proofs.Segment.Growth
import KeyedLog.Proofs.Segment.Steps
import KeyedLog.Proofs.Segment.LinkUpdates
import KeyedLog.Proofs.Segment.TailSteps
import KeyedLog.Proofs.Segment.Calls
import KeyedLog.Proofs.Segment.Renewal
import KeyedLog.Proofs.Operation.Engaged
import KeyedLog.Proofs.Operation.Recovery
import KeyedLog.Proofs.Operation.Access
import KeyedLog.Proofs.Operation.Heads
import KeyedLog.Proofs.Operation.Indexer
import KeyedLog.Proofs.Operation.Lookup
import KeyedLog.Proofs.Operation.Operations
import KeyedLog.Proofs.Operation.ReadOnly
import KeyedLog.Proofs.Write.Batch
import KeyedLog.Proofs.Write.Persist
import KeyedLog.Proofs.Write.Update
import KeyedLog.Proofs.Write.AppendLast
import KeyedLog.Proofs.Write.AllOrNothing
import KeyedLog.Proofs.Write.Merging
import KeyedLog.Proofs.Write.Fitting
import KeyedLog.Proofs.Run.Sessions
import KeyedLog.Proofs.Run.Reopening
import KeyedLog.Proofs.Run.Schedules
import KeyedLog.Proofs.Run.Chains
import KeyedLog.Proofs.Run.Freshness
import KeyedLog.Proofs.Run.Dropping
import KeyedLog.Proofs.Run.Reachable
import KeyedLog.Proofs.Alone.Operations
import KeyedLog.Proofs.Alone.Index
import KeyedLog.Proofs.Alone.CachedHeads
import KeyedLog.Proofs.Alone.CatchUp
import KeyedLog.Proofs.Alone.Find
import KeyedLog.Proofs.Alone.Refinement
import KeyedLog.Proofs.Alone.Restoring
import KeyedLog.Proofs.Alone.Write
import KeyedLog.Proofs.Alone.Linkers
import KeyedLog.Proofs.Alone.LookupOutcome
import KeyedLog.Proofs.Alone.PendingWrite
import KeyedLog.Proofs.Alone.AccessOutcome
import KeyedLog.Proofs.Alone.QueryOutcome
import KeyedLog.Proofs.Recovery.FailedAttempts
import KeyedLog.Proofs.Recovery.AccessCalls
import KeyedLog.Proofs.Recovery.Relinking
import KeyedLog.Proofs.Recovery.Retries
import KeyedLog.Proofs.Recovery.FirstAccess
import KeyedLog.Proofs.Recovery.LaggingOffset
import KeyedLog.Proofs.LostAppend.Invariant
import KeyedLog.Proofs.LostAppend.Operations
import KeyedLog.Proofs.LostAppend.Runs
import KeyedLog.Proofs.LostAppend.Reflection
import KeyedLog.Proofs.Custody.Register
import KeyedLog.Proofs.Custody.Transfer
import KeyedLog.Proofs.Custody.Steps
import KeyedLog.Proofs.Custody.Rules
import KeyedLog.Proofs.Custody.Operations
import KeyedLog.Proofs.Custody.Runs
import KeyedLog.Proofs.Custody.IndexOffset
import KeyedLog.Proofs.Custody.Backlog
import KeyedLog.Proofs.Deferred.WatermarkGate
import KeyedLog.Proofs.Deferred.GatedOperations
import KeyedLog.Proofs.Deferred.Admission
import KeyedLog.Proofs.Deferred.TailEvents
import KeyedLog.Proofs.Deferred.TailOperations
import KeyedLog.Proofs.Deferred.UnindexedTail
import KeyedLog.Proofs.Extension.Requests
import KeyedLog.Proofs.Extension.EntryStages
import KeyedLog.Proofs.Extension.Restriction
import KeyedLog.Proofs.Extension.SegmentSimulation
import KeyedLog.Proofs.Extension.Closing
import KeyedLog.Proofs.Extension.SegmentRequests
import KeyedLog.Proofs.Extension.Isolation
import KeyedLog.Proofs.Extension.Notes
import KeyedLog.Proofs.Extension.NotedOperations
import KeyedLog.Proofs.Extension.LeftBehind
import KeyedLog.Proofs.Locking.Nesting
import KeyedLog.Proofs.Locking.Exclusion
