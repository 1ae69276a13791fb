import Mathlib.Algebra.Order.Floor.Div
import TokenCake.Lib.Ensures
import TokenCake.Model.OffloadSystem

/-! # The scheduler side of the offloading connector

`OffloadingConnectorScheduler` with its extension `TokenCakeOffloadingScheduler`: the transfer
jobs of ordinary requests, the detached stores of stalled lifecycles, and the fences that keep
a GPU block from being reused while a store still reads it. Sets are lists here. -/

namespace TokenCake.Offload

abbrev JobId := ℕ

abbrev BlockId := ℕ

/-- Failures of the connector: those of the registry and the CPU manager, a missing dictionary
key and an assertion. -/
inductive ConnectorError where
  | offload (failure : AssertionFailure)
  | missingKey
  | assertion
  deriving DecidableEq, Repr

/-! ## Data -/

structure GPULoadStoreSpec where
  blockIds : List BlockId
  groupSizes : List ℕ
  blockIndices : List ℕ
  deriving DecidableEq, Repr

/-- A transfer between GPU blocks and CPU blocks. -/
structure TransferJob where
  reqId : String
  gpu : GPULoadStoreSpec
  cpu : List ℕ
  deriving DecidableEq, Repr

structure TransferJobStatus (κ : Type) where
  reqId : String
  pendingCount : ℕ
  keys : List κ
  isStore : Bool
  nonSlidingWindowBlockIds : List BlockId := []
  slidingWindowBlockIds : List BlockId := []

structure DetachedStore where
  lifecycleId : String
  reqId : String
  sourceIds : List BlockId
  deriving DecidableEq, Repr

/-- A candidate of a store: one offloaded block of a snapshot with its GPU blocks. -/
structure SnapshotBlock (κ : Type) where
  group : ℕ
  index : ℕ
  key : κ
  blockIds : List BlockId
  blockIndex : ℕ

structure GroupOffloadConfig where
  gpuBlockSize : ℕ
  offloadedBlockSize : ℕ
  slidingWindowSizeInBlocks : Option ℕ := none

structure SchedulerOffloadConfig where
  kvGroupConfigs : List GroupOffloadConfig
  blockSizeFactor : ℕ
  numWorkers : ℕ

/-- What the connector remembers of a request. `finished` is the status of the request. -/
structure RequestOffloadState (κ : Type) where
  finished : Bool := false
  offloadKeys : List (List κ) := []
  numLocallyComputedTokens : ℕ := 0
  transferJobs : List JobId := []

structure OffloadingConnectorMetadata where
  loadJobs : OrdDict JobId TransferJob
  storeJobs : OrdDict JobId TransferJob
  jobsToFlush : List JobId

structure TokenCakeOffloadingScheduler (κ σ : Type) where
  config : SchedulerOffloadConfig
  /-- The lifecycle registry and the CPU manager. -/
  offload : OffloadState κ σ
  reqStatus : OrdDict String (RequestOffloadState κ) := .empty
  currentBatchLoadJobs : OrdDict JobId TransferJob := .empty
  currentBatchJobsToFlush : List JobId := []
  jobCounter : JobId := 0
  staleJobThreshold : JobId := 0
  jobs : OrdDict JobId (TransferJobStatus κ) := .empty
  blockIdToPendingJobs : OrdDict BlockId (List JobId) := .empty
  unpublished : OrdDict JobId TransferJob := .empty
  detached : OrdDict JobId DetachedStore := .empty

namespace TokenCakeOffloadingScheduler

variable {κ σ : Type} [DecidableEq κ]

/-! ## Jobs and fences -/

/-- The jobs that still read a block. -/
def pendingJobs (c : TokenCakeOffloadingScheduler κ σ) (bid : BlockId) : List JobId :=
  (c.blockIdToPendingJobs.get? bid).getD []

/-- `setdefault(bid, set()).add(job_id)`. -/
def watchBlock (job : JobId) (c : TokenCakeOffloadingScheduler κ σ) (bid : BlockId) :
    TokenCakeOffloadingScheduler κ σ :=
  let pending := c.pendingJobs bid
  let watched := if job ∈ pending then pending else pending ++ [job]
  { c with blockIdToPendingJobs := c.blockIdToPendingJobs.insert bid watched }

/-- A store reads the blocks until it completes. -/
def watch (c : TokenCakeOffloadingScheduler κ σ) (job : JobId) (blockIds : List BlockId) :
    TokenCakeOffloadingScheduler κ σ :=
  blockIds.foldl (watchBlock job) c

/-- `_remove_pending_job`. -/
def removePendingJob (c : TokenCakeOffloadingScheduler κ σ) (job : JobId)
    (blockIds : List BlockId) : Except ConnectorError (TokenCakeOffloadingScheduler κ σ) :=
  blockIds.foldlM (fun c bid =>
    match c.blockIdToPendingJobs.get? bid with
    | none => .error .missingKey
    | some pending =>
        if job ∈ pending then
          let rest := pending.filter (· ≠ job)
          .ok { c with blockIdToPendingJobs :=
            if rest.isEmpty then c.blockIdToPendingJobs.erase bid
            else c.blockIdToPendingJobs.insert bid rest }
        else .error .missingKey) c

/-- The jobs that read one of the blocks have to be flushed before the step. -/
def fence (c : TokenCakeOffloadingScheduler κ σ) (blockIds : List BlockId) :
    TokenCakeOffloadingScheduler κ σ :=
  { c with currentBatchJobsToFlush :=
      c.currentBatchJobsToFlush ++ blockIds.flatMap c.pendingJobs }

/-- Forward a call to the registry or to the CPU manager. -/
def call (c : TokenCakeOffloadingScheduler κ σ) (op : OffloadOp κ σ) :
    Except ConnectorError (TokenCakeOffloadingScheduler κ σ × Answer κ) :=
  match c.offload.step op with
  | .error failure => .error (.offload failure)
  | .ok (offload, answer) => .ok ({ c with offload := offload }, answer)

/-- A call whose answer is not used. -/
def run (c : TokenCakeOffloadingScheduler κ σ) (op : OffloadOp κ σ) :
    Except ConnectorError (TokenCakeOffloadingScheduler κ σ) :=
  (c.call op).map Prod.fst

def prepareStore (c : TokenCakeOffloadingScheduler κ σ) (keys : List κ) :
    Except ConnectorError (TokenCakeOffloadingScheduler κ σ × Option (PrepareStoreOutput κ)) := do
  let (c, answer) ← c.call (.prepareStore keys)
  match answer with
  | .prepared output => return (c, output)
  | _ => .error .assertion

def prepareLoad (c : TokenCakeOffloadingScheduler κ σ) (keys : List κ) :
    Except ConnectorError (TokenCakeOffloadingScheduler κ σ × List ℕ) := do
  let (c, answer) ← c.call (.prepareLoad keys)
  match answer with
  | .blocks ids => return (c, ids)
  | _ => .error .assertion

/-! ## Detached stores -/

inductive StoreReason where
  | selected
  | cpuCapacity
  | unprofitable
  deriving DecidableEq, Repr

/-- One call of `_register_store`: the lifecycle, the request of its snapshot, the candidates
and the clock reading of `retain_ready`. -/
structure Selection (κ : Type) where
  lifecycleId : String
  reqId : String
  candidates : List (SnapshotBlock κ)
  now : ℚ

/-- The candidates in the order of their groups. -/
def Selection.ordered (selection : Selection κ) : List (SnapshotBlock κ) :=
  selection.candidates.mergeSort fun a b =>
    decide (a.group < b.group ∨ (a.group = b.group ∧ a.index ≤ b.index))

/-- The GPU blocks of the candidates whose keys are to be stored, group by group. -/
def Selection.gpuSpec (selection : Selection κ) (numGroups : ℕ) (newKeys : List κ) :
    GPULoadStoreSpec :=
  let groups := (List.range numGroups).map fun group =>
    selection.ordered.filter fun c => decide (c.group = group) && decide (c.key ∈ newKeys)
  { blockIds := groups.flatMap fun selected => selected.flatMap (·.blockIds)
    groupSizes := groups.map fun selected => (selected.flatMap (·.blockIds)).length
    blockIndices := groups.map fun selected => (selected.head?.map (·.blockIndex)).getD 0 }

/-- The entries of a new detached job. -/
def insertDetached (c : TokenCakeOffloadingScheduler κ σ) (selection : Selection κ)
    (output : PrepareStoreOutput κ) (spec : GPULoadStoreSpec) :
    TokenCakeOffloadingScheduler κ σ :=
  { c with
    jobCounter := c.jobCounter + 1
    jobs := c.jobs.insert c.jobCounter
      { reqId := selection.reqId, pendingCount := c.config.numWorkers
        keys := output.keysToStore, isStore := true }
    detached := c.detached.insert c.jobCounter
      ⟨selection.lifecycleId, selection.reqId, spec.blockIds⟩
    unpublished := c.unpublished.insert c.jobCounter ⟨selection.reqId, spec, output.storeSpec⟩ }

/-- The last part of `_register_store`. -/
def addDetached (c : TokenCakeOffloadingScheduler κ σ) (selection : Selection κ)
    (output : PrepareStoreOutput κ) : TokenCakeOffloadingScheduler κ σ :=
  let spec := selection.gpuSpec c.config.kvGroupConfigs.length output.keysToStore
  (c.insertDetached selection output spec).watch c.jobCounter spec.blockIds

/-- The record of the lifecycle satisfies `p`. -/
def record (c : TokenCakeOffloadingScheduler κ σ) (identifier : String)
    (p : Lifecycle κ σ → Bool) : Bool :=
  (c.offload.registry.records.get? identifier).any p

/-- `_register_store`. -/
def registerStore (c : TokenCakeOffloadingScheduler κ σ) (selection : Selection κ) :
    Except ConnectorError (TokenCakeOffloadingScheduler κ σ × StoreReason) := do
  let keys := selection.ordered.map (·.key)
  let (c, prepared) ← c.prepareStore keys
  match prepared with
  | none => return (c, .cpuCapacity)
  | some output =>
      let c ← c.run (.retainReady selection.now selection.lifecycleId keys)
      if c.record selection.lifecycleId (·.ownsPreservation) then
        let c ← c.run (.addPending selection.lifecycleId keys)
        if output.keysToStore.isEmpty then
          return (c, if c.record selection.lifecycleId fun r =>
              !r.retained.isEmpty || !r.pendingRetention.isEmpty
            then .selected else .unprofitable)
        else return (c.addDetached selection output, .selected)
      else
        let c ← c.run (.completeStore output.keysToStore false)
        return (c, .unprofitable)

/-- The stores that `evaluate_pending` registers; its policy decides on the selections. -/
def evaluatePending (c : TokenCakeOffloadingScheduler κ σ) (selections : List (Selection κ)) :
    Except ConnectorError (TokenCakeOffloadingScheduler κ σ) :=
  selections.foldlM (fun c selection => (c.registerStore selection).map Prod.fst) c

def hasUnpublished (c : TokenCakeOffloadingScheduler κ σ) : Bool := !c.unpublished.keys.isEmpty

/-! ## Loads -/

/-- A GPU block as `update_state_after_alloc` sees it. -/
structure KVBlock where
  blockId : BlockId
  isNull : Bool := false
  hashed : Bool := false
  deriving DecidableEq, Repr

/-- The part of a load that concerns one group. -/
structure LoadGroup (κ : Type) where
  keys : List κ
  dstBlockIds : List BlockId
  numPendingGpuBlocks : ℕ
  numLocallyComputedGpuBlocks : ℕ

def loadGroup (factor numLocal numCached : ℕ) (g : GroupOffloadConfig) (keys : List κ)
    (blocks : List KVBlock) : Except ConnectorError (LoadGroup κ) :=
  let numGpuBlocks := numCached ⌈/⌉ g.gpuBlockSize
  -- Null placeholders count as locally computed.
  let numLocalBlocks := (blocks.take numGpuBlocks).findIdx fun b => !b.isNull && !b.hashed
  let numPending := numGpuBlocks - numLocalBlocks
  let numBlocks := numCached ⌈/⌉ g.offloadedBlockSize
  if blocks.length < numGpuBlocks ∨ numLocalBlocks * g.gpuBlockSize < numLocal
      ∨ g.slidingWindowSizeInBlocks.any (fun w => decide (w * factor < numPending)) = true
      ∨ keys.length < numBlocks then .error .assertion
  else .ok
    { keys := if numPending = 0 then []
        else (keys.take numBlocks).drop (numLocalBlocks / factor)
      dstBlockIds := ((blocks.take numGpuBlocks).drop numLocalBlocks).map (·.blockId)
      numPendingGpuBlocks := numPending
      numLocallyComputedGpuBlocks := numLocalBlocks }

/-- `get_num_new_matched_tokens`: the request is tracked from here on. The offload keys follow
from the block hashes of the request; the lookups of the manager are recorded in order. -/
def getNumNewMatchedTokens (c : TokenCakeOffloadingScheduler κ σ) (reqId : String)
    (offloadKeys : List (List κ)) (numComputedTokens : ℕ) (lookups touched : List κ) :
    Except ConnectorError (TokenCakeOffloadingScheduler κ σ) := do
  let status := (c.reqStatus.get? reqId).getD {}
  let status := { status with
    offloadKeys := offloadKeys
    numLocallyComputedTokens := numComputedTokens }
  let c := { c with reqStatus := c.reqStatus.insert reqId status }
  let c ← lookups.foldlM (fun c key => c.run (.lookup key)) c
  c.run (.touch touched)

/-- The load job of a request that waits for it. -/
def addLoad (c : TokenCakeOffloadingScheduler κ σ) (reqId : String)
    (status : RequestOffloadState κ) (keys : List κ) (job : TransferJob) :
    TokenCakeOffloadingScheduler κ σ :=
  { c with
    jobCounter := c.jobCounter + 1
    currentBatchLoadJobs := c.currentBatchLoadJobs.insert c.jobCounter job
    reqStatus := c.reqStatus.insert reqId
      { status with transferJobs := status.transferJobs ++ [c.jobCounter] }
    jobs := c.jobs.insert c.jobCounter
      { reqId := reqId, pendingCount := c.config.numWorkers, keys := keys, isStore := false } }

/-- `update_state_after_alloc`. -/
def updateStateAfterAlloc (c : TokenCakeOffloadingScheduler κ σ) (reqId : String)
    (blocks : List (List KVBlock)) (numExternalTokens : ℕ) :
    Except ConnectorError (TokenCakeOffloadingScheduler κ σ) :=
  if numExternalTokens = 0 then .ok c
  else
    match c.reqStatus.get? reqId with
    | none => .error .missingKey
    | some status => do
        let numCached := status.numLocallyComputedTokens + numExternalTokens
        let groups ← (c.config.kvGroupConfigs.zip (status.offloadKeys.zip blocks)).mapM
          fun (g, keys, blocks) => loadGroup c.config.blockSizeFactor
            status.numLocallyComputedTokens numCached g keys blocks
        let keys := groups.flatMap (·.keys)
        let dstBlockIds := groups.flatMap (·.dstBlockIds)
        let (c, src) ← (c.fence dstBlockIds).prepareLoad keys
        if status.transferJobs.isEmpty then
          return c.addLoad reqId status keys ⟨reqId,
            ⟨dstBlockIds, groups.map (·.numPendingGpuBlocks),
              groups.map (·.numLocallyComputedGpuBlocks)⟩, src⟩
        else .error .assertion

/-! ## Stores of ordinary requests -/

/-- The blocks that a store of an ordinary request reads. -/
structure StoreBlocks where
  gpu : GPULoadStoreSpec
  slidingWindow : List BlockId
  nonSlidingWindow : List BlockId

/-- What the bookkeeping of offload keys plans for a scheduled request: the keys that became
storable, the keys that are touched, and the blocks of those that have to be stored. -/
structure StorePlan (κ : Type) where
  newOffloadKeys : List κ
  touched : List κ
  blocks : List κ → StoreBlocks

/-- A scheduled request as `yield_req_data` presents it. `plan` is `none` for a request whose
stores are deferred to its stall. -/
structure ScheduledRequest (κ : Type) where
  reqId : String
  newBlockIdGroups : Option (List (List BlockId))
  plan : Option (StorePlan κ)

def ScheduledRequest.newBlocks (r : ScheduledRequest κ) : List BlockId :=
  (r.newBlockIdGroups.getD []).flatten

/-- The stores issued for a request before are stores indeed. -/
def pendingStores (c : TokenCakeOffloadingScheduler κ σ) (transferJobs : List JobId) :
    Except ConnectorError Unit :=
  match transferJobs.head? with
  | none => .ok ()
  | some job =>
      match c.jobs.get? job with
      | none => .error .missingKey
      | some status => if status.isStore then .ok () else .error .assertion

/-- The entries of a new store of a scheduled request. -/
def insertStore (c : TokenCakeOffloadingScheduler κ σ) (reqId : String)
    (status : RequestOffloadState κ) (keys : List κ) (blocks : StoreBlocks) :
    TokenCakeOffloadingScheduler κ σ :=
  { c with
    jobCounter := c.jobCounter + 1
    reqStatus := c.reqStatus.insert reqId
      { status with transferJobs := status.transferJobs ++ [c.jobCounter] }
    jobs := c.jobs.insert c.jobCounter
      { reqId := reqId, pendingCount := c.config.numWorkers, keys := keys, isStore := true
        nonSlidingWindowBlockIds := blocks.nonSlidingWindow
        slidingWindowBlockIds := blocks.slidingWindow } }

/-- The store job of a scheduled request. Its other blocks are watched once it finishes. -/
def addStore (c : TokenCakeOffloadingScheduler κ σ) (reqId : String)
    (status : RequestOffloadState κ) (keys : List κ) (blocks : StoreBlocks) :
    TokenCakeOffloadingScheduler κ σ :=
  (c.insertStore reqId status keys blocks).watch c.jobCounter blocks.slidingWindow

/-- The store part of one iteration of `_build_store_jobs`. -/
def storeRequest (c : TokenCakeOffloadingScheduler κ σ) (reqId : String)
    (status : RequestOffloadState κ) (plan : StorePlan κ) (stores : OrdDict JobId TransferJob) :
    Except ConnectorError (TokenCakeOffloadingScheduler κ σ × OrdDict JobId TransferJob) :=
  if plan.newOffloadKeys.isEmpty then .ok (c, stores)
  else do
    let (c, prepared) ← c.prepareStore plan.newOffloadKeys
    match prepared with
    | none => return (c, stores)
    | some output =>
        if output.keysToStore.isEmpty then return (c, stores)
        else
          let c ← c.run (.touch plan.touched)
          let blocks := plan.blocks output.keysToStore
          c.pendingStores status.transferJobs
          return (c.addStore reqId status output.keysToStore blocks,
            stores.insert c.jobCounter ⟨reqId, blocks.gpu, output.storeSpec⟩)

/-- One iteration of `_build_store_jobs`. -/
def buildStoreJob
    (acc : TokenCakeOffloadingScheduler κ σ × OrdDict JobId TransferJob)
    (r : ScheduledRequest κ) :
    Except ConnectorError (TokenCakeOffloadingScheduler κ σ × OrdDict JobId TransferJob) :=
  match acc.1.reqStatus.get? r.reqId with
  | none => .error .missingKey
  | some status =>
      match r.plan with
      | none => .ok (acc.1.fence r.newBlocks, acc.2)
      | some plan => (acc.1.fence r.newBlocks).storeRequest r.reqId status plan acc.2

def buildStoreJobs (c : TokenCakeOffloadingScheduler κ σ)
    (scheduled : List (ScheduledRequest κ)) :
    Except ConnectorError (TokenCakeOffloadingScheduler κ σ × OrdDict JobId TransferJob) :=
  scheduled.foldlM buildStoreJob (c, .empty)

/-! ## Publication -/

/-- What the connector reads of the output of `schedule`. -/
structure ConnectorInput (κ : Type) where
  scheduled : List (ScheduledRequest κ)
  preemptedReqIds : List String
  totalNumScheduledTokens : ℤ

/-- The stores of a preempted request are flushed. -/
def flushPreempted (c : TokenCakeOffloadingScheduler κ σ) (reqId : String) :
    Except ConnectorError (TokenCakeOffloadingScheduler κ σ) :=
  match c.reqStatus.get? reqId with
  | none => .ok c
  | some status => do
      c.pendingStores status.transferJobs
      return { c with currentBatchJobsToFlush :=
        c.currentBatchJobsToFlush ++ status.transferJobs }

/-- No later step may come to flush the jobs once every tracked request is finished. -/
def flushFinished (c : TokenCakeOffloadingScheduler κ σ) : TokenCakeOffloadingScheduler κ σ :=
  if !c.reqStatus.keys.isEmpty && c.reqStatus.values.all (·.finished) then
    { c with currentBatchJobsToFlush := c.currentBatchJobsToFlush ++ c.jobs.keys }
  else c

/-- `build_connector_meta` of the native connector. -/
def buildNativeMeta (c : TokenCakeOffloadingScheduler κ σ) (input : ConnectorInput κ) :
    Except ConnectorError
      (TokenCakeOffloadingScheduler κ σ × OffloadingConnectorMetadata) := do
  let c ← input.preemptedReqIds.foldlM flushPreempted c
  let (c, stores) ← c.flushFinished.buildStoreJobs input.scheduled
  return ({ c with currentBatchLoadJobs := .empty, currentBatchJobsToFlush := [] },
    ⟨c.currentBatchLoadJobs, stores, c.currentBatchJobsToFlush⟩)

/-- Add the entries of the second dictionary to the first one. -/
def update (d e : OrdDict JobId TransferJob) : OrdDict JobId TransferJob :=
  e.entries.foldl (fun d entry => d.insert entry.1 entry.2) d

/-- `build_connector_meta`. -/
def buildConnectorMeta (c : TokenCakeOffloadingScheduler κ σ) (input : ConnectorInput κ) :
    Except ConnectorError
      (TokenCakeOffloadingScheduler κ σ × OffloadingConnectorMetadata) :=
  let unpublished := c.unpublished
  if unpublished.keys ≠ [] ∧ input.totalNumScheduledTokens ≠ 0 then .error .assertion
  else do
    let (c, native) ← { c with unpublished := .empty }.buildNativeMeta input
    -- Newly published stores do not exist on the worker until the next step.
    let flush := native.jobsToFlush.filter (· ∉ unpublished.keys)
    return (c,
      { native with
        storeJobs := update native.storeJobs unpublished
        jobsToFlush :=
          if input.totalNumScheduledTokens = 0 ∧ unpublished.keys = []
          then flush ++ c.detached.keys else flush })

/-! ## Completions -/

/-- The completed jobs that belong to the native connector and the keys that became ready. -/
structure Completion (κ : Type) where
  ordinary : List (JobId × ℕ) := []
  keys : List κ := []

/-- One completed job of `update_connector_output`. -/
def completeDetached
    (acc : TokenCakeOffloadingScheduler κ σ × Completion κ) (completed : JobId × ℕ) :
    Except ConnectorError (TokenCakeOffloadingScheduler κ σ × Completion κ) :=
  let (c, done) := acc
  let (job, count) := completed
  match c.detached.get? job with
  | none =>
      let keys := match c.jobs.get? job with
        | some status => if status.isStore && decide (status.pendingCount = count)
            then status.keys else []
        | none => []
      .ok (c, ⟨done.ordinary ++ [(job, count)], done.keys ++ keys⟩)
  | some store =>
      match c.jobs.get? job with
      | none => .error .missingKey
      | some status =>
          if count = 0 ∨ status.pendingCount < count then .error .assertion
          else if status.pendingCount ≠ count then
            .ok ({ c with jobs := c.jobs.modify job fun status =>
              { status with pendingCount := status.pendingCount - count } }, done)
          else do
            let c ← c.run (.completeStore status.keys true)
            let c ← c.removePendingJob job store.sourceIds
            return ({ c with detached := c.detached.erase job, jobs := c.jobs.erase job },
              ⟨done.ordinary, done.keys ++ status.keys⟩)

/-- The fences of a completed native job. -/
def unwatch (c : TokenCakeOffloadingScheduler κ σ) (job : JobId) (finished : Bool)
    (status : TransferJobStatus κ) : Except ConnectorError (TokenCakeOffloadingScheduler κ σ) :=
  if c.blockIdToPendingJobs.keys.isEmpty then .ok c
  else do
    let c ← c.removePendingJob job status.slidingWindowBlockIds
    if finished then c.removePendingJob job status.nonSlidingWindowBlockIds else return c

/-- The request of a completed job; it is forgotten with its last job. -/
def dropTransferJob (c : TokenCakeOffloadingScheduler κ σ) (reqId : String)
    (request : RequestOffloadState κ) (job : JobId) :
    Except ConnectorError (TokenCakeOffloadingScheduler κ σ) :=
  if job ∈ request.transferJobs then
    let rest := request.transferJobs.filter (· ≠ job)
    .ok { c with
      jobs := c.jobs.erase job
      reqStatus := if rest.isEmpty && request.finished then c.reqStatus.erase reqId
        else c.reqStatus.insert reqId { request with transferJobs := rest } }
  else .error .missingKey

/-- One completed job of the native `update_connector_output`. -/
def completeNative (c : TokenCakeOffloadingScheduler κ σ) (completed : JobId × ℕ) :
    Except ConnectorError (TokenCakeOffloadingScheduler κ σ) :=
  let (job, count) := completed
  if count = 0 then .error .assertion
  else if job < c.staleJobThreshold then .ok c
  else
    match c.jobs.get? job with
    | none => .error .missingKey
    | some status =>
        if status.pendingCount < count then .error .assertion
        else if status.pendingCount ≠ count then
          .ok { c with jobs := c.jobs.modify job fun status =>
            { status with pendingCount := status.pendingCount - count } }
        else
          match c.reqStatus.get? status.reqId with
          | none => .error .missingKey
          | some request => do
              let c ← c.run (if status.isStore then .completeStore status.keys true
                else .completeLoad status.keys)
              let c ← c.unwatch job request.finished status
              c.dropTransferJob status.reqId request job

/-- Retain what a completed store made ready for a lifecycle. -/
def retainCompleted (retainedAt : String → ℚ) (keys : List κ) (c : TokenCakeOffloadingScheduler κ σ)
    (identifier : String) : Except ConnectorError (TokenCakeOffloadingScheduler κ σ) :=
  match c.offload.registry.records.get? identifier with
  | none => .ok c
  | some record => do
      let ready := record.pendingRetention.filter (· ∈ keys)
      if ready.isEmpty then return c
      else
        let c ← c.run (.retainReady (retainedAt identifier) identifier ready)
        c.run (.dropPending identifier ready)

/-- `update_connector_output`. `retainedAt` holds the clock readings of the calls of
`retain_ready`, one for each record. -/
def updateConnectorOutput (c : TokenCakeOffloadingScheduler κ σ) (now : ℚ)
    (retainedAt : String → ℚ) (completedJobs : List (JobId × ℕ)) :
    Except ConnectorError (TokenCakeOffloadingScheduler κ σ) := do
  let (c, done) ← completedJobs.foldlM completeDetached (c, {})
  let c ← done.ordinary.foldlM completeNative c
  let c ← c.run (.expire now)
  c.offload.registry.records.keys.foldlM (retainCompleted retainedAt done.keys) c

/-! ## Requests that finish, and resets -/

/-- `request_finished`: pending stores outlive the ownership of the blocks. -/
def requestFinished (c : TokenCakeOffloadingScheduler κ σ) (reqId : String) :
    Except ConnectorError (TokenCakeOffloadingScheduler κ σ) :=
  match c.reqStatus.get? reqId with
  | none => .ok c
  | some request =>
      if request.transferJobs.isEmpty then .ok { c with reqStatus := c.reqStatus.erase reqId }
      else
        request.transferJobs.foldlM (fun c job =>
          match c.jobs.get? job with
          | none => .error .missingKey
          | some status => .ok (c.watch job status.nonSlidingWindowBlockIds))
          { c with reqStatus := c.reqStatus.insert reqId { request with finished := true } }

/-- `reset_cache`: the jobs in flight are flushed by the next step and then forgotten. -/
def resetCache (c : TokenCakeOffloadingScheduler κ σ) (now : ℚ) :
    Except ConnectorError (TokenCakeOffloadingScheduler κ σ) :=
  if c.currentBatchLoadJobs.keys ≠ [] ∨ c.currentBatchJobsToFlush ≠ [] then .error .assertion
  else do
    let c ← c.run (.resetCache now)
    return { c with
      currentBatchJobsToFlush := c.jobs.keys.filter (· ∉ c.unpublished.keys)
      staleJobThreshold := c.jobCounter
      jobs := .empty
      blockIdToPendingJobs := .empty
      unpublished := .empty
      detached := .empty }

end TokenCakeOffloadingScheduler

/-! ## Runs of the connector -/

/-- The calls that reach the registry from outside the connector. The readings of
`evaluate_pending` are among them: it expires records, consumes their markers and estimates
the time of a load. -/
def OffloadOp.isEvent {κ σ : Type} : OffloadOp κ σ → Bool
  | .associate .. | .apply .. | .generationFinished .. | .expire _ | .setH2dEstimate ..
  | .consumeEvaluation _ | .invalidateSnapshots => true
  | _ => false

inductive ConnectorOp (κ σ : Type) where
  | event (op : { op : OffloadOp κ σ // op.isEvent = true })
  | evaluatePending (selections : List (TokenCakeOffloadingScheduler.Selection κ))
  | getNumNewMatchedTokens (reqId : String) (offloadKeys : List (List κ))
      (numComputedTokens : ℕ) (lookups touched : List κ)
  | updateStateAfterAlloc (reqId : String)
      (blocks : List (List TokenCakeOffloadingScheduler.KVBlock)) (numExternalTokens : ℕ)
  | buildConnectorMeta (input : TokenCakeOffloadingScheduler.ConnectorInput κ)
  | updateConnectorOutput (now : ℚ) (retainedAt : String → ℚ) (completed : OrdDict JobId ℕ)
  | requestFinished (reqId : String)
  | resetCache (now : ℚ)

namespace TokenCakeOffloadingScheduler

variable {κ σ : Type} [DecidableEq κ]

def operate (c : TokenCakeOffloadingScheduler κ σ) :
    ConnectorOp κ σ → Except ConnectorError (TokenCakeOffloadingScheduler κ σ)
  | .event op => c.run op
  | .evaluatePending selections => c.evaluatePending selections
  | .getNumNewMatchedTokens reqId offloadKeys numComputedTokens lookups touched =>
      c.getNumNewMatchedTokens reqId offloadKeys numComputedTokens lookups touched
  | .updateStateAfterAlloc reqId blocks numExternalTokens =>
      c.updateStateAfterAlloc reqId blocks numExternalTokens
  | .buildConnectorMeta input => (c.buildConnectorMeta input).map Prod.fst
  | .updateConnectorOutput now retainedAt completed =>
      c.updateConnectorOutput now retainedAt completed.entries
  | .requestFinished reqId => c.requestFinished reqId
  | .resetCache now => c.resetCache now

/-- One operation of the connector that returns. -/
def Operates (c : TokenCakeOffloadingScheduler κ σ) (op : ConnectorOp κ σ)
    (c' : TokenCakeOffloadingScheduler κ σ) : Prop :=
  c.operate op = .ok c'

def new (config : SchedulerOffloadConfig) (settings : OffloadConfig)
    (manager : CPUOffloadingManager κ) : TokenCakeOffloadingScheduler κ σ where
  config := config
  offload := .initial settings (some manager)

end TokenCakeOffloadingScheduler

end TokenCake.Offload
