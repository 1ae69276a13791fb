import TokenCake.Lib.OrdDict
import TokenCake.Lib.Run
import TokenCake.Model.CachePolicy
import TokenCake.Model.CPUManager
import TokenCake.Model.Lifecycle
import TokenCake.Model.OffloadSystem
import TokenCake.Verification.CachePolicy.Semantics
import TokenCake.Verification.CachePolicy.Contents
import TokenCake.Verification.CPUManager.Accounts
import TokenCake.Verification.CPUManager.InFlight
import TokenCake.Verification.CPUManager.Pool
import TokenCake.Verification.Lifecycle.Records
import TokenCake.Verification.Lifecycle.Operations
import TokenCake.Verification.Lifecycle.Steps
import TokenCake.Verification.Lifecycle.Pending
import TokenCake.Verification.Lifecycle.Retention
import TokenCake.Verification.Lifecycle.Absorption
import TokenCake.Lib.Ensures
import TokenCake.Model.Request
import TokenCake.Model.Schedule
import TokenCake.Model.Engine
import TokenCake.Verification.Schedule.Queues
import TokenCake.Verification.Schedule.Running
import TokenCake.Verification.Schedule.Places
import TokenCake.Verification.Schedule.Waiting
import TokenCake.Verification.Schedule.Conservation
import TokenCake.Model.Backend
import TokenCake.Verification.Engine.Balance
import TokenCake.Verification.Engine.Update
import TokenCake.Verification.Engine.Collaborators
import TokenCake.Model.Connector
import TokenCake.Model.Fleet
import TokenCake.Verification.Schedule.Backend
import TokenCake.Verification.Fence.Frames
import TokenCake.Verification.Fence.Publication
import TokenCake.Verification.Fence.Completion
import TokenCake.Verification.Fence.Workers
import TokenCake.Verification.Fence.Moves
import TokenCake.Verification.Fence.Phases
import TokenCake.Verification.Fence.Detached
import TokenCake.Verification.Fence.Correctness
import TokenCake.Verification.Awaited.Stores
import TokenCake.Verification.Awaited.Correctness
import TokenCake.Lib.HashChain
import TokenCake.Model.BlockHash
import TokenCake.Verification.BlockHash.Keys
import TokenCake.Verification.BlockHash.Incremental
import TokenCake.Verification.BlockHash.Isolation
import TokenCake.Lib.Acyclic
import TokenCake.Model.AgentGraph
import TokenCake.Lib.Search
import TokenCake.Model.NodeDepths
import TokenCake.Verification.AgentGraph.Graphs
import TokenCake.Verification.AgentGraph.Depths
import TokenCake.Verification.AgentGraph.Invariant
import TokenCake.Verification.AgentGraph.Correctness
import TokenCake.Model.BlockPool
import TokenCake.Lib.LinkedList
import TokenCake.Model.FreeQueue
import TokenCake.Model.KVCacheManager
import TokenCake.Verification.KVCache.FreeQueue
import TokenCake.Verification.KVCache.Pool
import TokenCake.Verification.KVCache.Ledger
import TokenCake.Verification.KVCache.Groups
import TokenCake.Verification.KVCache.Tables
import TokenCake.Verification.KVCache.Managers
import TokenCake.Verification.KVCache.Hits
import TokenCake.Verification.KVCache.Longest
import TokenCake.Verification.KVCache.AttentionGroups
import TokenCake.Verification.KVCache.Hybrid
import TokenCake.Verification.KVCache.Agreement
import TokenCake.Verification.KVCache.Masking
import TokenCake.Verification.KVCache.MaskedSearch
import TokenCake.Model.Growth
import TokenCake.Verification.Growth.Tables
import TokenCake.Verification.Growth.Calls
import TokenCake.Verification.Growth.Peak
import TokenCake.Verification.Growth.Opening
import TokenCake.Verification.Growth.Held
import TokenCake.Verification.CachePolicy.Eviction
import TokenCake.Model.Capacity
import TokenCake.Verification.Capacity.Consumption
import TokenCake.Lib.Apportionment
import TokenCake.Verification.Capacity.Partition
import TokenCake.Verification.Schedule.Phases
import TokenCake.Verification.Schedule.Budgets
import TokenCake.Verification.Schedule.Visits
import TokenCake.Model.Preservation
import TokenCake.Verification.Preservation.Planning
import TokenCake.Verification.Preservation.Loadable
import TokenCake.Verification.Availability.Managers
import TokenCake.Verification.Availability.Jobs
import TokenCake.Verification.Availability.Completions
import TokenCake.Verification.Availability.Correctness
import TokenCake.Model.EncoderCache
import TokenCake.Model.EncoderSchedule
import TokenCake.Lib.Intervals
import TokenCake.Model.Execution
import TokenCake.Verification.Execution.Correctness
import TokenCake.Verification.Schedule.Candidates
import TokenCake.Verification.EncoderCache.Accounting
import TokenCake.Verification.EncoderCache.Attempts
import TokenCake.Verification.EncoderCache.Correctness
import TokenCake.Verification.EncoderCache.References
import TokenCake.Verification.EncoderCache.Refusals
import TokenCake.Verification.KVCache.HitLists
import TokenCake.Verification.KVCache.Representation
import TokenCake.Verification.KVCache.Prediction
import TokenCake.Verification.KVCache.Allocation
import TokenCake.Model.Controller
import TokenCake.Verification.Control.Occupied
import TokenCake.Verification.Control.Consistent
import TokenCake.Verification.Control.Charges
import TokenCake.Verification.Control.Available
import TokenCake.Verification.Control.Planning
import TokenCake.Verification.Control.Calls
import TokenCake.Verification.Control.Accounts
import TokenCake.Verification.Control.Ledger
import TokenCake.Verification.Control.Demand
import TokenCake.Verification.Control.Admission
import TokenCake.Verification.Control.Runs
import TokenCake.Verification.Control.Correctness
import TokenCake.Verification.Control.Outstanding
import TokenCake.Verification.Control.Reserve
