import Mathlib.Data.List.Sort
import TokenCake.Model.Capacity
import TokenCake.Model.Growth

/-! # The scheduling controller

`SchedulingController` charges every occupied block to an agent type or to the shared capacity,
commits blocks to the growth of the requests that it admits, and admits a request only within both.
Its calls change the controller and the cache manager, which the two share. Metrics and the history
of the agent types are not part of it: what a step reads of the history and of the clock is its
input. -/

namespace TokenCake.Control

open Capacity KV

inductive ControllerError where
  | cache (e : KVError)
  | keyError
  | valueError
  | zeroDivision
  /-- "Native allocation exceeded admitted capacity". -/
  | exceededCapacity
  deriving DecidableEq, Repr

inductive GenerationReserveMode where
  | all
  | progress
  | reclaim
  deriving DecidableEq, Repr

/-- The settings that the controller reads here, within the bounds of their fields and of
`validate_bounds`. -/
structure SchedulingConfig where
  reserveGenerationTokens : Bool := true
  generationReserveMode : GenerationReserveMode := .all
  inheritJoinPriority : Bool := true
  priorityBorrowScoreMargin : ℕ := 500
  criticalRatio : ℚ := 3 / 4
  reserveRatioMin : ℚ := 1 / 20
  reserveRatioMax : ℚ := 3 / 10
  gpuUsageLow : ℚ := 2 / 5
  gpuUsageHigh : ℚ := 3 / 4
  reserveAdjustmentStep : ℚ := 1 / 20
  reserveRatioMin_nonneg : 0 ≤ reserveRatioMin
  reserveRatioMax_le : reserveRatioMax ≤ 1
  reserveRatio_le : reserveRatioMin ≤ reserveRatioMax

/-- The defaults are within the bounds. -/
def SchedulingConfig.defaults : SchedulingConfig where
  reserveRatioMin_nonneg := by norm_num
  reserveRatioMax_le := by norm_num
  reserveRatio_le := by norm_num

/-- `_ADJUSTMENT_WINDOW`. -/
def adjustmentWindow : ℕ := 500

/-- What the controller reads of the metadata of an annotated request. -/
structure AgentMetadata extends TokenCakeMetadata where
  importance : ℚ
  joinGroup : String
  applicationStartedAt : ℚ

structure SchedulingController where
  settings : SchedulingConfig
  numLookaheadTokens : ℕ
  cacheCapacityPrecheck : Bool
  metadata : OrdDict String AgentMetadata := .empty
  scores : OrdDict String ℤ := .empty
  agentScores : OrdDict String ℤ := .empty
  charges : OrdDict BlockId Owner := .empty
  used : Owner → ℤ := fun _ => 0
  plan : CapacityPlan := {}
  reserveRatio : ℚ
  step : ℕ := 0
  waitingCritical : List String := []
  waitingScores : OrdDict String ℤ := .empty
  sharedAvailable : ℤ := 0
  reservedAvailable : OrdDict String ℤ := .empty
  accountingActive : Bool := false
  admitted : OrdDict String ℕ := .empty
  growthCommitments : OrdDict String ℕ := .empty
  prefillLimits : OrdDict String ℕ := .empty
  prefillGrowth : OrdDict String ℕ := .empty
  reclaimBeneficiaries : List String := []
  retryCapacity : OrdDict String (ℤ × ℕ) := .empty
  completionEpoch : ℕ := 0
  reservationDeferred : List String := []
  planned : ∀ k ∈ plan.reserved.keys, k ∈ plan.scores.keys
  scored : ∀ k ∈ reservedAvailable.keys, k ∈ plan.scores.keys

/-- What a step reads of the clock and of the history: the score of a request, and the importance
and the score of an agent type, which is at least one. -/
structure StepInputs where
  requestScore : String → ℤ
  historyImportance : OrdDict String ℚ
  typeScore : String → ℚ → ℚ
  typeScore_ge : ∀ k importance, 1 ≤ typeScore k importance

/-- No history: all requests and all types have the same score. -/
def StepInputs.uniform : StepInputs where
  requestScore _ := 1
  historyImportance := .empty
  typeScore _ _ := 1
  typeScore_ge _ _ := le_rfl

namespace SchedulingController

variable {η : Type}

def new (settings : SchedulingConfig) (m : KVCacheManager η) (numLookaheadTokens : ℕ) :
    SchedulingController where
  settings := settings
  numLookaheadTokens := if settings.reserveGenerationTokens then numLookaheadTokens else 0
  cacheCapacityPrecheck := decide (numLookaheadTokens = 0) &&
    m.singleTypeManagers.all (·.spec.isFullAttention)
  reserveRatio := settings.reserveRatioMin
  planned k hk := by simp [OrdDict.keys, OrdDict.empty] at hk
  scored k hk := by simp [OrdDict.keys, OrdDict.empty] at hk

variable (c : SchedulingController) (m : KVCacheManager η)

def growthSettings : GrowthSettings := ⟨c.settings.reserveGenerationTokens, c.numLookaheadTokens⟩

/-- What `_consumption` reads. -/
def capacity : CapacityState where
  priorityBorrowScoreMargin := c.settings.priorityBorrowScoreMargin
  metadata := c.metadata.mapValues fun _ metadata => metadata.toTokenCakeMetadata
  scores := c.scores
  plan := c.plan
  waitingCritical := c.waitingCritical
  waitingScores := c.waitingScores
  sharedAvailable := c.sharedAvailable
  reservedAvailable := c.reservedAvailable
  scored := c.scored

def progressReservation : Bool :=
  c.settings.reserveGenerationTokens && c.cacheCapacityPrecheck &&
    decide (c.settings.generationReserveMode = .progress)

def reclaimReservation : Bool :=
  c.settings.reserveGenerationTokens && c.cacheCapacityPrecheck &&
    decide (c.settings.generationReserveMode = .reclaim)

/-! ## Commitments -/

/-- What a request may generate after its input. -/
def generationGrowth (requestId : String) : ℕ :=
  (c.growthCommitments.get? requestId).getD 0 - (c.prefillGrowth.get? requestId).getD 0

/-- `_generation_headroom`. -/
def generationHeadroom : ℕ := ((c.growthCommitments.keys.map c.generationGrowth).min?).getD 0

def committedBlocks : ℕ :=
  if c.progressReservation then c.prefillGrowth.sum (fun _ n => n) + c.generationHeadroom
  else if c.reclaimReservation then
    c.prefillGrowth.sum (fun _ n => n) +
      ((c.reclaimBeneficiaries.filter c.growthCommitments.contains).map c.generationGrowth).sum
  else c.growthCommitments.sum fun _ n => n

/-- `uncommitted_blocks`. -/
def uncommittedBlocks : ℤ := m.blockPool.numFreeBlocks - c.committedBlocks

/-- The tokens of the input that `_remaining_growth` counts with `input_only`. -/
def inputTokens (request : GrowthRequest η) : ℕ :=
  min ((c.prefillLimits.get? request.requestId).getD request.numTokens) m.maxModelLen

/-- `admission_demand`. -/
def admissionDemand (request : GrowthRequest η) (computed : ℕ) (blocks : List (List BlockId)) :
    Except KVError ℕ := do
  let required (tokens : ℕ) := m.getNumBlocksToAllocate request.requestId
    (min (tokens + c.numLookaheadTokens) m.maxModelLen) blocks computed true
  let input := min request.numTokens m.maxModelLen
  if c.reclaimReservation then required input
  else
    let full ← required (m.admissionTokens c.growthSettings request)
    if c.progressReservation then
      let inputs ← required input
      if c.growthCommitments.keys = [] then return inputs + (full - inputs)
      else return inputs + min c.generationHeadroom (full - inputs) - c.generationHeadroom
    else return full

/-! ## Charges -/

/-- Take what exceeds the uncommitted blocks from the reservations, one after the other. -/
def reduceReserved : List String → ℤ → OrdDict String ℤ → OrdDict String ℤ
  | [], _, reserved => reserved
  | k :: ks, excess, reserved =>
      let reduction := min excess ((reserved.get? k).getD 0)
      reduceReserved ks (excess - reduction) (reserved.modify k (· - reduction))

theorem keys_reduceReserved (ks : List String) (excess : ℤ) (reserved : OrdDict String ℤ) :
    (reduceReserved ks excess reserved).keys = reserved.keys := by
  induction ks generalizing excess reserved with
  | nil => rfl
  | cons k ks ih =>
      rw [reduceReserved, ih]
      simp [OrdDict.modify, OrdDict.mapValues, OrdDict.keys]

/-- What the plan reserves and no block is charged for. -/
def unusedReserved : OrdDict String ℤ :=
  c.plan.reserved.mapValues fun k count => max 0 ((count : ℤ) - c.used (some k))

def unusedShared : ℤ := max 0 ((c.plan.shared : ℤ) - c.used none)

/-- The types with a reservation, the lowest score first. -/
def reservedByScore : List String :=
  c.unusedReserved.keys.insertionSort fun a b =>
    (c.plan.scores.get? a).getD 0 ≤ (c.plan.scores.get? b).getD 0

/-- `_update_available`. -/
def updateAvailable : SchedulingController :=
  let excess := max 0 (c.unusedShared + c.unusedReserved.sum (fun _ n => n) -
    max 0 (c.uncommittedBlocks m))
  let reduction := min excess c.unusedShared
  { c with
    sharedAvailable := c.unusedShared - reduction
    reservedAvailable := reduceReserved c.reservedByScore (excess - reduction) c.unusedReserved
    scored := by
      rw [keys_reduceReserved]
      intro k hk
      refine c.planned k ?_
      simpa [unusedReserved, OrdDict.mapValues, OrdDict.keys] using hk }

/-- `release`: only referenced blocks stay charged. -/
def release : SchedulingController :=
  if c.accountingActive then
    let charges := c.charges.filter fun b _ => decide (0 < (m.blockPool.blocks b).refCnt)
    let charged : SchedulingController :=
      { c with charges := charges, used := fun owner => charges.values.count owner }
    charged.updateAvailable m
  else c

/-- Charge blocks for the capacity that `_consumption` found. -/
def charge : List (Owner × ℤ) → List BlockId → SchedulingController →
    Except ControllerError SchedulingController
  | [], _, c => .ok c
  | (owner, count) :: usage, blockIds, c =>
      let charged : SchedulingController := { c with
        charges := (blockIds.take count.toNat).foldl (fun charges b => charges.insert b owner)
          c.charges
        used := Function.update c.used owner (c.used owner + count) }
      match owner with
      | none => charge usage (blockIds.drop count.toNat) { charged with
          sharedAvailable := max 0 (c.sharedAvailable - count) }
      | some k =>
          if k ∈ c.reservedAvailable.keys then
            charge usage (blockIds.drop count.toNat) { charged with
              reservedAvailable := c.reservedAvailable.modify k (· - count)
              scored := fun k' hk' => c.scored k' (OrdDict.mem_keys_modify.mp hk') }
          else .error .keyError

/-- The blocks of `commit` that are not charged yet, in ascending order. -/
def chargeable (blocks : List BlockId) : List BlockId :=
  (blocks.dedup.filter fun b => decide (b ≠ nullBlock) && !c.charges.contains b).insertionSort
    (· ≤ ·)

/-- `_remaining_growth` of the admitted request, and of its input in the selective modes. -/
def recordGrowth (request : GrowthRequest η) : Except ControllerError SchedulingController := do
  let growth ← (m.remainingGrowth c.growthSettings request).mapError .cache
  let prefillGrowth ←
    if c.progressReservation || c.reclaimReservation then
      ((m.growthTo c.growthSettings request (c.inputTokens m request)).mapError .cache).map
        (c.prefillGrowth.insert request.requestId)
    else .ok c.prefillGrowth
  return { c with
    growthCommitments := c.growthCommitments.insert request.requestId growth
    prefillGrowth := prefillGrowth }

/-- The bookkeeping of `commit` for an admitted request. -/
def recordAdmission (request : GrowthRequest η) : SchedulingController :=
  { c with
    admitted := c.admitted.insert request.requestId
      (max ((c.admitted.get? request.requestId).getD 0) 0)
    prefillLimits :=
      if c.prefillLimits.contains request.requestId then c.prefillLimits
      else c.prefillLimits.insert request.requestId request.numTokens }

/-- The blocks that `commit` looks at: those that a running request has got, or all blocks of the
request. -/
def committedIds (requestId : String) : Option (List (List BlockId)) → List BlockId
  | some newBlocks => newBlocks.flatten
  | none => m.singleTypeManagers.flatMap (·.table requestId)

/-- The capacity that `commit` charges. -/
def usageOf (requestId : String) (running borrowReserved : Bool) (count : ℕ) :
    Except ControllerError (List (Owner × ℤ)) :=
  match c.capacity.consumption requestId borrowReserved count with
  | some usage => .ok usage
  | none =>
      -- Accepted work may grow past a revised partition.
      if running || c.admitted.contains requestId then .ok [(none, (count : ℤ))]
      else .error .exceededCapacity

/-- `commit`, of new blocks for a running request. -/
def commit (request : GrowthRequest η) (newBlocks : Option (List (List BlockId)))
    (borrowReserved : Bool) : Except ControllerError SchedulingController := do
  let blockIds := c.chargeable (committedIds m request.requestId newBlocks)
  let usage ← c.usageOf request.requestId newBlocks.isSome borrowReserved blockIds.length
  let charged ← charge usage blockIds c
  let recorded ← (charged.recordAdmission request).recordGrowth m request
  let cleared : SchedulingController := { recorded with
    retryCapacity := recorded.retryCapacity.erase request.requestId
    reservationDeferred := recorded.reservationDeferred.filter (· ≠ request.requestId) }
  return cleared.updateAvailable m

/-! ## Admission -/

/-- `prepare_running`. -/
def prepareRunning (request : GrowthRequest η) : KVCacheManager η × SchedulingController :=
  let next := m.removeSkippedBlocks request.requestId request.numComputedTokens
  (next, if m.blockPool.numFreeBlocks ≠ next.blockPool.numFreeBlocks then c.release next else c)

/-- `defer_cache_lookup`, for requests without encoder inputs. -/
def deferCacheLookup (request : GrowthRequest η) (computed : ℕ) (blocks : List (List BlockId)) :
    Except KVError Bool :=
  if c.cacheCapacityPrecheck = false ∨ c.metadata.contains request.requestId = false ∨
      c.admitted.contains request.requestId = true then .ok false
  else
    (c.admissionDemand m request computed blocks).map fun demand =>
      decide (c.uncommittedBlocks m < demand)

/-- A request that was preempted for its blocks waits for more than it was preempted at. -/
def mustWait (requestId : String) (available : ℤ) : Bool :=
  match c.retryCapacity.get? requestId with
  | none => false
  | some (capacity, epoch) =>
      decide (c.admitted.keys ≠ [] ∧ epoch = c.completionEpoch ∧ available ≤ capacity)

/-- The checks of `can_allocate` after the windows have slid. -/
def admits (request : GrowthRequest η) (args : KVCacheManager.SlotArgs) (borrowReserved : Bool) :
    Except KVError (Bool × SchedulingController) := do
  let computed := KVCacheManager.numLocalComputedTokens request.toRequest args +
    args.numExternalComputedTokens
  let mainTokens := min computed m.maxModelLen + args.numNewTokens
  let demand ← m.getNumBlocksToAllocate request.requestId
    (min (mainTokens + args.numLookaheadTokens) m.maxModelLen) args.newComputedBlocks computed false
  let fullDemand ← c.admissionDemand m request computed args.newComputedBlocks
  let demand := max demand fullDemand
  let available := c.uncommittedBlocks m
  if available < demand then return (false, c)
  else if c.mustWait request.requestId available then return (false, c)
  else
    match c.capacity.consumption request.requestId borrowReserved demand with
    | some _ => return (true, c)
    | none =>
        if c.metadata.contains request.requestId then
          return (false, { c with
            reservationDeferred := request.requestId :: c.reservationDeferred })
        else return (false, c)

/-- `can_allocate`. -/
def canAllocate (request : GrowthRequest η) (args : KVCacheManager.SlotArgs)
    (borrowReserved : Bool) :
    Except KVError (Bool × KVCacheManager η × SchedulingController) :=
  if c.admitted.contains request.requestId then .ok (true, m, c)
  else
    let computed := KVCacheManager.numLocalComputedTokens request.toRequest args +
      args.numExternalComputedTokens
    let next := m.removeSkippedBlocks request.requestId computed
    let released :=
      if m.blockPool.numFreeBlocks ≠ next.blockPool.numFreeBlocks then c.release next else c
    (released.admits next request args borrowReserved).map fun result => (result.1, next, result.2)

/-! ## Growth of running requests -/

/-- The order of `beneficiary`. -/
def finishesBefore (a b : String) : Bool :=
  let key (requestId : String) := toLex ((c.growthCommitments.get? requestId).getD 0,
    toLex (-(c.scores.get? requestId).getD 0, requestId))
  decide (key a < key b)

/-- The request that may grow when more blocks are committed than free: the least of the admitted
ones. -/
def beneficiary : Option String :=
  (c.growthCommitments.keys.mergeSort fun a b => !c.finishesBefore b a).head?

/-- What a request may generate after its input, when `requestId` has taken `demand` blocks. -/
def growthAfter (requestId : String) (demand : ℕ) (key : String) : ℤ :=
  let taken := if key = requestId then demand else 0
  (((c.growthCommitments.get? key).getD 0 - taken : ℕ) : ℤ) -
    (((c.prefillGrowth.get? key).getD 0 - taken : ℕ) : ℤ)

/-- `can_grow`. -/
def canGrow (request : GrowthRequest η) (numNewTokens : ℕ) : Except ControllerError Bool := do
  if c.progressReservation = false then return true
  else
    let mainTokens := request.numComputedTokens + numNewTokens
    let demand ← (m.getNumBlocksToAllocate request.requestId mainTokens
      (m.singleTypeManagers.map fun _ => []) request.numComputedTokens false).mapError .cache
    if demand = 0 then return true
    else
      let available := c.uncommittedBlocks m
      if available < 0 then
        match c.beneficiary with
        | none => .error .valueError
        | some beneficiary => return decide (request.requestId = beneficiary)
      else
        let inputs := (c.prefillGrowth.get? request.requestId).getD 0
        match (c.growthCommitments.keys.map (c.growthAfter request.requestId demand)).min? with
        | none => .error .valueError
        | some remaining =>
            let released := (min demand inputs : ℕ) + (c.generationHeadroom : ℤ) - remaining
            return decide ((demand : ℤ) ≤ available + released)

/-! ## Leaving -/

/-- What `preempt` and `finish` remove. -/
def withdraw (requestId : String) : SchedulingController :=
  { c with
    admitted := c.admitted.erase requestId
    growthCommitments := c.growthCommitments.erase requestId
    prefillLimits := c.prefillLimits.erase requestId
    prefillGrowth := c.prefillGrowth.erase requestId
    reclaimBeneficiaries := c.reclaimBeneficiaries.filter (· ≠ requestId) }

/-- `preempt`. -/
def preempt (requestId : String) (physical : Bool) : SchedulingController :=
  let released := (c.withdraw requestId).release m
  if physical then
    { released with
      retryCapacity := released.retryCapacity.insert requestId
        (released.uncommittedBlocks m, released.completionEpoch) }
  else released

/-- `finish`. -/
def finish (requestId : String) : SchedulingController :=
  { c.withdraw requestId with
    retryCapacity := c.retryCapacity.erase requestId
    completionEpoch :=
      if c.admitted.contains requestId then c.completionEpoch + 1 else c.completionEpoch
    metadata := c.metadata.erase requestId
    scores := c.scores.erase requestId
    agentScores := c.agentScores.erase requestId }

/-- The part of `victim` that makes a request a beneficiary. -/
def reclaimFor (requestId : String) : SchedulingController :=
  if c.reclaimReservation ∧ requestId ∉ c.reclaimBeneficiaries then
    let claimed : SchedulingController :=
      { c with reclaimBeneficiaries := requestId :: c.reclaimBeneficiaries }
    claimed.updateAvailable m
  else c

/-- `associate`. -/
def associate (requestId : String) (metadata : AgentMetadata) : SchedulingController :=
  { c with metadata := c.metadata.insert requestId metadata }

/-! ## A step -/

/-- What `begin_step` clears while no request is annotated. -/
def clear : SchedulingController :=
  { c with
    charges := .empty
    used := fun _ => 0
    scores := .empty
    agentScores := .empty
    admitted := .empty
    growthCommitments := .empty
    prefillLimits := .empty
    prefillGrowth := .empty
    reclaimBeneficiaries := []
    retryCapacity := .empty
    accountingActive := false }

/-- Running requests count as admitted. -/
def admitRunning (running : List (GrowthRequest η)) : SchedulingController :=
  running.foldl (fun c request => { c with
    admitted :=
      if c.admitted.contains request.requestId then c.admitted
      else c.admitted.insert request.requestId 0
    prefillLimits :=
      if c.prefillLimits.contains request.requestId then c.prefillLimits
      else c.prefillLimits.insert request.requestId request.numTokens }) c

/-- A comprehension of `_remaining_growth` over the admitted requests. -/
def growths (fullTokens : GrowthRequest η → ℕ) (requests : List (GrowthRequest η)) :
    Except KVError (OrdDict String ℕ) :=
  (requests.filter fun request => c.admitted.contains request.requestId).foldlM
    (fun growths request => (m.growthTo c.growthSettings request (fullTokens request)).map
      (growths.insert request.requestId)) .empty

/-- The commitments of a step. -/
def recommit (requests : List (GrowthRequest η)) : Except KVError SchedulingController := do
  let growthCommitments ← c.growths m (m.admissionTokens c.growthSettings) requests
  let prefillGrowth ←
    if c.progressReservation || c.reclaimReservation then
      c.growths m (c.inputTokens m) requests
    else .ok c.prefillGrowth
  return { c with growthCommitments := growthCommitments, prefillGrowth := prefillGrowth }

/-- The group whose members share a score. -/
def joinGroupOf (requestId : String) : Option (ℚ × String) :=
  (c.metadata.get? requestId).bind fun member =>
    if 0 < member.applicationStartedAt ∧ member.joinGroup ≠ "" then
      some (member.applicationStartedAt, member.joinGroup)
    else none

/-- The highest score of every group. -/
def highestScores : OrdDict (ℚ × String) ℤ :=
  c.agentScores.entries.foldl (fun highest e =>
    match c.joinGroupOf e.1 with
    | none => highest
    | some group => highest.insert group (max ((highest.get? group).getD e.2) e.2)) .empty

/-- The scores of a step. -/
def scoreRequests (inputs : StepInputs) (requests : List (GrowthRequest η)) :
    SchedulingController :=
  let annotated := (requests.map (·.requestId)).filter fun r => c.metadata.contains r
  let scored : SchedulingController :=
    { c with agentScores := .ofList (annotated.map fun r => (r, inputs.requestScore r)) }
  { scored with
    scores :=
      if c.settings.inheritJoinPriority then
        scored.agentScores.mapValues fun r score =>
          ((scored.joinGroupOf r).bind scored.highestScores.get?).getD score
      else scored.agentScores }

/-- Adopt the blocks that were allocated before the accounts became active. -/
def adopt (requests : List (GrowthRequest η)) : SchedulingController :=
  if c.accountingActive then c
  else
    let held := requests.flatMap fun request =>
      (m.singleTypeManagers.flatMap (·.table request.requestId)).filter (· ≠ nullBlock)
    { c with
      charges := held.foldl (fun charges b =>
        if charges.contains b then charges else charges.insert b none) c.charges
      accountingActive := true }

/-- The best scores of the types of the waiting requests. -/
def collectWaiting (waiting : List (GrowthRequest η)) : SchedulingController :=
  { c with
    waitingScores := collectWaitingScores c.capacity.metadata
      (fun r => (c.scores.get? r).getD 0) (waiting.map (·.requestId)) }

/-- The agent types of the waiting requests. -/
def waitingTypes (waiting : List (GrowthRequest η)) : List String :=
  waiting.filterMap fun request =>
    (c.metadata.get? request.requestId).bind fun metadata =>
      if metadata.agentType = "" then none else some metadata.agentType

/-- The importance of every agent type, and the blocks that its requests hold. -/
def typeStatistics (inputs : StepInputs) (requests : List (GrowthRequest η)) :
    OrdDict String ℚ × OrdDict String ℕ :=
  requests.foldl (fun (importance, used) request =>
    match c.metadata.get? request.requestId with
    | none => (importance, used)
    | some metadata =>
        if metadata.agentType = "" then (importance, used)
        else
          let key := metadata.agentType
          (importance.insert key (max ((importance.get? key).getD 0) metadata.importance),
            used.insert key ((used.get? key).getD 0 + (m.blockIds request.requestId).card)))
    (inputs.historyImportance, .empty)

/-- `usage` of the cache manager. -/
def usage (m : KVCacheManager η) : ℚ :=
  if m.blockPool.numGpuBlocks = 1 then 0
  else 1 - m.blockPool.numFreeBlocks / ((m.blockPool.numGpuBlocks : ℚ) - 1)

/-- The reserved ratio of the next plan. -/
def adjustedRatio : ℚ :=
  let ratio :=
    if c.settings.gpuUsageHigh ≤ usage m then
      c.reserveRatio + c.settings.reserveAdjustmentStep
    else if usage m ≤ c.settings.gpuUsageLow then
      c.reserveRatio - c.settings.reserveAdjustmentStep
    else c.reserveRatio
  min c.settings.reserveRatioMax (max c.settings.reserveRatioMin ratio)

/-- The new plan of a step. What is available is not read before `release` computes it again. -/
def replan (inputs : StepInputs) (requests : List (GrowthRequest η)) :
    Except ControllerError SchedulingController :=
  let statistics := c.typeStatistics m inputs requests
  let scores := statistics.1.mapValues inputs.typeScore
  match partitionCapacity scores statistics.1 statistics.2 (m.blockPool.numGpuBlocks - 1)
    (c.adjustedRatio m) c.settings.criticalRatio with
  | none => .error .zeroDivision
  | some plan =>
      if hplanned : ∀ k ∈ plan.reserved.keys, k ∈ plan.scores.keys then
        .ok { c with
          plan := plan
          reserveRatio := c.adjustedRatio m
          reservedAvailable := .empty
          planned := hplanned
          scored := fun k hk => absurd hk (by simp [OrdDict.keys, OrdDict.empty]) }
      else .error .keyError

/-- A plan is made in the first step and at the end of every window. -/
def planStep (inputs : StepInputs) (requests : List (GrowthRequest η)) :
    Except ControllerError SchedulingController :=
  if c.plan.scores.keys = [] ∨ c.step % adjustmentWindow = 0 then c.replan m inputs requests
  else .ok c

def awaitCritical (waiting : List (GrowthRequest η)) : SchedulingController :=
  { c with waitingCritical := c.plan.critical.filter (· ∈ c.waitingTypes waiting) }

def startStep : SchedulingController :=
  { c with reservationDeferred := [], waitingScores := .empty }

def countStep : SchedulingController := { c with step := c.step + 1 }

/-- `begin_step`, and whether there is annotated work. -/
def beginStep (inputs : StepInputs) (waiting running : List (GrowthRequest η)) :
    Except ControllerError (SchedulingController × Bool) := do
  if c.metadata.keys = [] then return (c.startStep.clear, false)
  else
    let requests := waiting ++ running
    let committed ← ((c.startStep.admitRunning running).recommit m requests).mapError .cache
    let adopted := (committed.scoreRequests inputs requests).countStep.adopt m requests
    let planned ← (adopted.collectWaiting waiting).planStep m inputs requests
    return ((planned.awaitCritical waiting).release m, true)

end SchedulingController

end TokenCake.Control
