import TokenCake.Model.Controller
import TokenCake.Model.Engine

/-! # The collaborators of a scheduler

The scheduling step takes its collaborators as they come. Here they are the cache manager and the
controller themselves, for a scheduler without a connector, encoder inputs, mamba layers and
speculative tokens. -/

namespace TokenCake.Control

open KV Sched

/-- The state behind the scheduler. `newComputedBlocks` is the variable of the loop over the waiting
requests; a call that raises leaves its error in `failure`. -/
structure Backend (η : Type) where
  manager : KVCacheManager η
  controller : SchedulingController
  newComputedBlocks : List (List BlockId)
  failure : Option ControllerError := none

/-- What a step reads besides the state: the clock and the history, the hashes of the blocks of a
request, and the settings that the controller model leaves to the scheduler. -/
structure StepSettings (η : Type) where
  inputs : StepInputs
  blockHashes : Sched.Request → List η
  skipReadingPrefixCache : Sched.Request → Bool := fun _ => false
  decodePrefillTokenBudget : ℤ := 0
  cacheAffinityScoreBand : ℤ := 0
  schedulerReserveFullIsl : Bool := false

namespace StepSettings

variable {η : Type} (d : StepSettings η)

/-- What the cache manager and the controller read of a request. -/
def growthRequest (r : Sched.Request) : GrowthRequest η where
  requestId := r.requestId
  numTokens := r.allTokenIds.length
  numComputedTokens := r.numComputedTokens.toNat
  blockHashes := d.blockHashes r
  skipReadingPrefixCache := d.skipReadingPrefixCache r
  numPromptTokens := r.promptTokenIds.length
  maxTokens := r.maxTokens

/-- The requests behind the identifiers of a queue. -/
def growthRequests (s : Scheduler (Backend η)) (ids : List String) : List (GrowthRequest η) :=
  (ids.filterMap s.requests.get?).map d.growthRequest

/-- What the scheduler reads of the controller during a step. -/
def agents (c : SchedulingController) : Agents where
  metadata := c.metadata.keys
  scores := c.scores
  agentScores := c.agentScores
  decodePrefillTokenBudget := d.decodePrefillTokenBudget
  cacheAffinityScoreBand := d.cacheAffinityScoreBand

end StepSettings

namespace Backend

variable {η : Type} [DecidableEq η] (d : StepSettings η)

omit [DecidableEq η] in
/-- The result of a call, or the error that it raises. -/
def record {α : Type} (b : Backend η) (default : α) :
    Except ControllerError (α × Backend η) → α × Backend η
  | .ok result => result
  | .error e => (default, { b with failure := b.failure <|> some e })

omit [DecidableEq η] in
/-- The lists of blocks of a request without hits. -/
def emptyBlocks (m : KVCacheManager η) : List (List BlockId) := m.singleTypeManagers.map fun _ => []

def beginStep (s : Scheduler (Backend η)) : Option Agents × Backend η :=
  let b := s.backend
  b.record none do
    let (controller, active) ← b.controller.beginStep b.manager d.inputs
      (d.growthRequests s (s.skippedWaiting ++ s.waiting)) (d.growthRequests s s.running)
    let agents := if active then some (d.agents controller) else none
    return (agents, { b with controller := controller })

/-- `prepare_running` and `can_grow`. -/
def canGrow (s : Scheduler (Backend η)) (r : Sched.Request) (numNewTokens : ℤ) :
    Bool × Backend η :=
  let request := d.growthRequest r
  let (manager, controller) := s.backend.controller.prepareRunning s.backend.manager request
  let b := { s.backend with manager := manager, controller := controller }
  b.record false ((controller.canGrow manager request numNewTokens.toNat).map fun mayGrow =>
    (mayGrow, b))

/-- `allocate_slots`, and `commit` of what it returns while there is annotated work. -/
def allocate (b : Backend η) (request : GrowthRequest η) (args : KVCacheManager.SlotArgs)
    (running borrowReserved : Bool) : Except ControllerError (Bool × Backend η) := do
  let (manager, newBlocks) ← (b.manager.allocateSlots request.toRequest args).mapError .cache
  match newBlocks with
  | none => return (false, { b with manager := manager })
  | some blocks =>
      if b.controller.accountingActive then
        let controller ← b.controller.commit manager request
          (if running then some blocks else none) borrowReserved
        return (true, { b with manager := manager, controller := controller })
      else return (true, { b with manager := manager })

def allocateRunning (s : Scheduler (Backend η)) (r : Sched.Request) (numNewTokens : ℤ) :
    Bool × Backend η :=
  let b := s.backend
  b.record false (b.allocate (d.growthRequest r)
    { numNewTokens := numNewTokens.toNat, newComputedBlocks := emptyBlocks b.manager } true false)

omit [DecidableEq η] in
/-- What `victim` needs and what each candidate would release. -/
def victimView (s : Scheduler (Backend η)) (r : Sched.Request) (numNewTokens : ℤ) :
    VictimView × Backend η :=
  let m := s.backend.manager
  let controller := s.backend.controller.reclaimFor m r.requestId
  let b := { s.backend with controller := controller }
  -- ordinary requests leave the choice to the native policy before anything is computed
  if controller.metadata.contains r.requestId = false then (⟨0, fun _ => 0, fun _ => 0⟩, b)
  else
    let computed := r.numComputedTokens.toNat
    b.record ⟨0, fun _ => 0, fun _ => 0⟩ do
      let demand ← (m.getNumBlocksToAllocate r.requestId
        (min (computed + numNewTokens.toNat) m.maxModelLen) (emptyBlocks m) computed
        false).mapError .cache
      let needed := (demand : ℤ) - m.blockPool.numFreeBlocks
      return ({
        needed := if controller.reclaimReservation then
          max needed (-controller.uncommittedBlocks m) else needed
        released := fun id =>
          ((m.blockIds id).filter fun b => (m.blockPool.blocks b).refCnt = 1).card
        recomputeTokens := fun id =>
          ((s.requests.get? id).map (·.numComputedTokens)).getD 0 }, b)

/-- `_preempt_request` behind the scheduler. -/
def freePreempted (s : Scheduler (Backend η)) (r : Sched.Request) : Backend η :=
  let manager := s.backend.manager.free (d.growthRequest r).toRequest
  { s.backend with
    manager := manager
    controller := s.backend.controller.preempt manager r.requestId true }

def getComputedBlocks (s : Scheduler (Backend η)) (r : Sched.Request) : ℤ × Backend η :=
  let b := s.backend
  b.record 0 do
    let (blocks, computed) ←
      (b.manager.getComputedBlocks (d.growthRequest r).toRequest).mapError .cache
    return ((computed : ℤ), { b with newComputedBlocks := blocks })

/-- The arguments of `can_allocate` and `allocate_slots` for a waiting request. -/
def slotArgs (b : Backend η) (r : Sched.Request) (admission : Admission) :
    KVCacheManager.SlotArgs where
  numNewTokens := admission.numNewTokens.toNat
  numNewComputedTokens := admission.numLocalComputedTokens.toNat
  newComputedBlocks :=
    if r.numComputedTokens = 0 then b.newComputedBlocks else emptyBlocks b.manager
  numExternalComputedTokens := admission.numExternalComputedTokens.toNat
  delayCacheBlocks := admission.loadKvAsync
  fullSequenceMustFit := d.schedulerReserveFullIsl

def canAllocate (s : Scheduler (Backend η)) (r : Sched.Request) (admission : Admission) :
    (Bool × Bool) × Backend η :=
  let b := s.backend
  b.record (false, false) do
    let (allowed, manager, controller) ← (b.controller.canAllocate b.manager (d.growthRequest r)
      (slotArgs d b r admission) admission.borrowReserved).mapError .cache
    return ((allowed, decide (r.requestId ∈ controller.reservationDeferred)),
      { b with manager := manager, controller := controller })

def allocateSlots (s : Scheduler (Backend η)) (r : Sched.Request) (admission : Admission) :
    Bool × Backend η :=
  let b := s.backend
  b.record false
    (b.allocate (d.growthRequest r) (slotArgs d b r admission) false admission.borrowReserved)

/-- `_active_prefix_affinity`; nothing is preferred where a lookup fails. -/
def activePrefixAffinity (s : Scheduler (Backend η)) (r : Sched.Request) : ℚ × ℤ :=
  let m := s.backend.manager
  let request := d.growthRequest r
  if r.numComputedTokens ≠ 0 then (0, 0)
  else
    match m.getComputedBlocks request.toRequest with
    | .error _ => (0, 0)
    | .ok (blocks, computed) =>
        let shared := (blocks.flatten.dedup.filter fun b =>
          decide (b ≠ nullBlock ∧ 0 < (m.blockPool.blocks b).refCnt)).length
        match s.backend.controller.admissionDemand m request computed blocks with
        | .error _ => (0, 0)
        | .ok demand =>
            if shared = 0 ∨ shared < demand then (0, 0)
            else ((shared : ℚ) / max 1 (shared + demand), shared)

omit [DecidableEq η] in
/-- The test of `order_candidates` before it looks at prefixes. -/
def affinityApplies (s : Scheduler (Backend η)) : Bool :=
  let m := s.backend.manager
  let c := s.backend.controller
  m.enableCaching && decide ((c.uncommittedBlocks m : ℚ) ≤
    (m.blockPool.numGpuBlocks - 1) * (1 - c.settings.gpuUsageHigh))

/-- The cache manager and the controller as collaborators of `schedule`. -/
def collaborators : Collaborators (Backend η) where
  beginStep := beginStep d
  hasUnpublished s := (false, s.backend)
  tryScheduleEncoderInputs s _ _ tokens budget := (⟨[], tokens, budget, []⟩, s.backend)
  numEncoderEmbeds _ _ := 0
  mambaBlockAlignedSplit _ _ tokens := tokens
  canGrow := canGrow d
  allocateRunning := allocateRunning d
  victimView := victimView
  freePreempted := freePreempted d
  finishedRecving _ _ := false
  updateWaitingForRemoteKv s r := (r.numComputedTokens, s.backend)
  grammarReady _ _ := false
  getComputedBlocks := getComputedBlocks d
  deferCacheLookup s _ _ := (false, s.backend)
  getNumNewMatchedTokens s _ _ := ((some 0, false), s.backend)
  canAllocate := canAllocate d
  allocateSlots := allocateSlots d
  activePrefixAffinity := activePrefixAffinity d
  affinityApplies := affinityApplies

omit [DecidableEq η] in
/-- `associate`, when an annotated request arrives. -/
def associate (b : Backend η) (requestId : String) (metadata : AgentMetadata) : Backend η :=
  { b with controller := b.controller.associate requestId metadata }

omit [DecidableEq η] in
/-- `_free_request` behind the scheduler: `finish`, and `_free_blocks` with its `release`. -/
def freeRequest (b : Backend η) (request : KV.Request η) : Backend η :=
  let manager := b.manager.free request
  { b with
    manager := manager
    controller := (b.controller.finish request.requestId).release manager }

omit [DecidableEq η] in
/-- The state of a new scheduler. -/
def start (settings : SchedulingConfig) (m : KVCacheManager η) : Backend η where
  manager := m
  controller := .new settings m 0
  newComputedBlocks := emptyBlocks m

end Backend

end TokenCake.Control
