import Mathlib.Data.Prod.Lex
import Mathlib.Data.List.MinMax
import Mathlib.Algebra.GCDMonoid.Nat
import TokenCake.Model.Connector

/-! # Planning what to preserve

How `TokenCakeOffloadingScheduler` chooses the blocks of a stalled lifecycle that are stored on
the CPU: the candidates of its snapshot, the batch that is cut from them, and the benefit that
decides whether the batch is stored. Times are exact rationals. -/

namespace TokenCake.Offload

/-! ## Snapshots -/

/-- One offloaded block of a snapshot: its key, its GPU blocks and their hashes. -/
structure SnapshotEntry (κ η : Type) where
  key : κ
  blockIds : List BlockId
  gpuHashes : List (Option η)

abbrev SnapshotGroup (κ η : Type) := List (SnapshotEntry κ η)

/-- What the planner reads of a GPU block. -/
structure GpuBlock (η : Type) where
  blockHash : Option η := none
  refCnt : ℕ := 0

/-- The collaborators of `_snapshot_candidates` and what it reads of the record. -/
structure SnapshotView (κ η : Type) where
  config : SchedulerOffloadConfig
  /-- Groups whose spec is exactly `FullAttentionSpec`. -/
  shareableGroups : List ℕ
  blocks : BlockId → GpuBlock η
  /-- `manager._policy.get(key) is not None`. -/
  onCpu : κ → Bool
  retained : List κ := []
  pendingRetention : List κ := []

namespace SnapshotView

variable {κ η : Type} [DecidableEq κ] [DecidableEq η]

/-- The leading null blocks of a windowed group are not stored. -/
def offset (windowed : Bool) (entry : SnapshotEntry κ η) : ℕ :=
  if windowed then (entry.blockIds.takeWhile (· = 0)).length else 0

def sourceIds (windowed : Bool) (entry : SnapshotEntry κ η) : List BlockId :=
  entry.blockIds.drop (offset windowed entry)

/-- The GPU blocks still hold what the snapshot captured. -/
def isIntact (v : SnapshotView κ η) (windowed : Bool) (entry : SnapshotEntry κ η) : Bool :=
  let sources := sourceIds windowed entry
  !sources.isEmpty && decide (entry.blockIds.length = v.config.blockSizeFactor) &&
    (sources.zip (entry.gpuHashes.drop (offset windowed entry))).all fun (bid, expected) =>
      decide (bid ≠ 0) && expected.isSome && decide ((v.blocks bid).blockHash = expected)

/-- The block is neither on the CPU nor captured on the GPU any more. -/
def isStale (v : SnapshotView κ η) (windowed : Bool) (entry : SnapshotEntry κ η) : Bool :=
  !v.onCpu entry.key && !v.isIntact windowed entry

def isRetained (v : SnapshotView κ η) (entry : SnapshotEntry κ η) : Bool :=
  decide (entry.key ∈ v.retained) || decide (entry.key ∈ v.pendingRetention)

/-- Completed full-attention prefix blocks are immutable while shared; blocks of other groups
are left out while some request holds them. -/
def isShared (v : SnapshotView κ η) (group : ℕ) (windowed : Bool) (entry : SnapshotEntry κ η) :
    Bool :=
  !v.onCpu entry.key && decide (group ∉ v.shareableGroups) &&
    (sourceIds windowed entry).any fun bid => decide ((v.blocks bid).refCnt ≠ 0)

/-- The loop over the entries of one group, from the entry number `index` on. -/
def groupCandidates (v : SnapshotView κ η) (group : ℕ) (windowed : Bool) :
    ℕ → List (SnapshotEntry κ η) → List (SnapshotBlock κ)
  | _, [] => []
  | index, entry :: rest =>
      if v.isStale windowed entry then []
      else if v.isRetained entry || v.isShared group windowed entry then
        v.groupCandidates group windowed (index + 1) rest
      else
        { group := group, index := index, key := entry.key
          blockIds := sourceIds windowed entry
          blockIndex := index * v.config.blockSizeFactor + offset windowed entry } ::
          v.groupCandidates group windowed (index + 1) rest

end SnapshotView

namespace SchedulerOffloadConfig

/-- The size of the offloaded blocks of a group. -/
def sizeOf (config : SchedulerOffloadConfig) (group : ℕ) : ℕ :=
  (config.kvGroupConfigs[group]?.map (·.offloadedBlockSize)).getD 0

/-- The token at which a candidate ends. -/
def endOf {κ : Type} (config : SchedulerOffloadConfig) (c : SnapshotBlock κ) : ℕ :=
  (c.index + 1) * config.sizeOf c.group

/-- The order of the candidates: by their end, then by their group. -/
def candidateLe {κ : Type} (config : SchedulerOffloadConfig) (a b : SnapshotBlock κ) : Bool :=
  decide (toLex (config.endOf a, a.group) ≤ toLex (config.endOf b, b.group))

end SchedulerOffloadConfig

open SchedulerOffloadConfig

variable {κ η : Type} [DecidableEq κ] [DecidableEq η]

/-- The candidates of the group at position `group`. -/
def SnapshotView.candidatesOf (v : SnapshotView κ η) (group : ℕ) (config : GroupOffloadConfig)
    (entries : SnapshotGroup κ η) : List (SnapshotBlock κ) :=
  match config.slidingWindowSizeInBlocks with
  | none => v.groupCandidates group false 0 entries
  | some window =>
      v.groupCandidates group true (entries.length - window)
        (entries.drop (entries.length - window))

/-- `_snapshot_candidates`. -/
def SnapshotView.snapshotCandidates (v : SnapshotView κ η) (groups : List (SnapshotGroup κ η)) :
    List (SnapshotBlock κ) :=
  (((groups.zip v.config.kvGroupConfigs).zipIdx.flatMap fun ((entries, config), group) =>
    v.candidatesOf group config entries)).mergeSort v.config.candidateLe

/-! ## Cutting a batch -/

namespace SchedulerOffloadConfig

/-- The indices of a group among the candidates. -/
def indicesOf (group : ℕ) (candidates : List (SnapshotBlock κ)) : List ℕ :=
  (candidates.filter fun c => decide (c.group = group)).map (·.index)

/-- `lcm` of the offloaded block sizes. -/
def alignment (config : SchedulerOffloadConfig) : ℕ :=
  (config.kvGroupConfigs.map (·.offloadedBlockSize)).foldl Nat.lcm 1

/-- The token up to which every group has candidates, rounded down to the alignment. -/
def commonEnd (config : SchedulerOffloadConfig) (candidates : List (SnapshotBlock κ)) : ℕ :=
  let ends := config.kvGroupConfigs.zipIdx.map fun (g, group) =>
    ((indicesOf group candidates).max?.getD 0 + 1) * g.offloadedBlockSize
  ends.min?.getD 0 / config.alignment * config.alignment

/-- The windows before the token `stop` are complete. -/
def windowsCovered (config : SchedulerOffloadConfig) (candidates : List (SnapshotBlock κ))
    (stop : ℕ) : Bool :=
  config.kvGroupConfigs.zipIdx.all fun (g, group) =>
    match g.slidingWindowSizeInBlocks with
    | none => true
    | some window =>
        let count := stop / g.offloadedBlockSize
        (List.range' (count - window) (count - (count - window))).all fun i =>
          decide (i ∈ indicesOf group candidates)

/-- A single group without a window needs no common boundary. -/
def isSingleFull (config : SchedulerOffloadConfig) : Bool :=
  match config.kvGroupConfigs with
  | [g] => g.slidingWindowSizeInBlocks.isNone
  | _ => false

/-- `_bound_candidates`. A limit is a number of GPU blocks and never negative. -/
def boundCandidates (config : SchedulerOffloadConfig) (candidates : List (SnapshotBlock κ))
    (limit : ℕ) : List (SnapshotBlock κ) :=
  let candidates := candidates.take (limit / config.blockSizeFactor)
  if candidates.isEmpty || config.isSingleFull then candidates
  else if (List.range config.kvGroupConfigs.length).any fun group =>
      (indicesOf group candidates).isEmpty then []
  else
    -- Native hits end at a common aligned token boundary.
    let stop := config.commonEnd candidates
    if config.windowsCovered candidates stop then
      candidates.filter fun c => decide (config.endOf c ≤ stop)
    else []

end SchedulerOffloadConfig

/-! ## Estimates -/

inductive Direction where
  | d2h
  | h2d
  deriving DecidableEq, Repr

/-- `TransferConfig` with the bandwidths observed so far; bandwidths are bytes per second. -/
structure TransferModel where
  bandwidth : Direction → ℚ
  observed : Direction → Option ℚ := fun _ => none
  baseTime : Direction → ℚ
  submissionTimePerRun : ℚ
  bytesPerBlock : ℕ

/-- `estimate_transfer`. -/
def TransferModel.estimateTransfer (t : TransferModel) (blocks : ℕ) (direction : Direction) : ℚ :=
  t.baseTime direction +
    blocks * t.bytesPerBlock / (t.observed direction).getD (t.bandwidth direction) +
    blocks * t.submissionTimePerRun

/-- The time to store the new blocks and to load all of them again. -/
def TransferModel.roundTrip (t : TransferModel) (newCount count : ℕ) : ℚ :=
  t.estimateTransfer newCount .d2h + t.estimateTransfer count .h2d

/-- The candidates that have to be stored. -/
def newCount (onCpu : κ → Bool) (candidates : List (SnapshotBlock κ)) : ℕ :=
  candidates.countP fun c => !onCpu c.key

/-- The loop of `_preservation_limit` after `count` candidates, `new` of them new, with the
limit found so far. -/
def limitLoop (t : TransferModel) (factor : ℕ) (onCpu : κ → Bool) (available : ℕ)
    (remaining : ℚ) : ℕ → ℕ → ℕ → List (SnapshotBlock κ) → ℕ
  | _, _, limit, [] => limit
  | count, new, limit, c :: rest =>
      let count := count + 1
      let new := if onCpu c.key then new else new + 1
      let transfer := t.roundTrip new count
      -- Leave room for transfer uncertainty and a subsequent restore.
      if available < new ∨ remaining - transfer < max (1 / 20) (2 * transfer) then limit
      else limitLoop t factor onCpu available remaining count new (count * factor) rest

/-- `_preservation_limit`. -/
def preservationLimit (t : TransferModel) (factor : ℕ) (onCpu : κ → Bool)
    (candidates : List (SnapshotBlock κ)) (available : ℕ) (remaining : ℚ) : ℕ :=
  limitLoop t factor onCpu available remaining 0 0 0 candidates

/-! ## The benefit -/

inductive Metric where
  | selected
  | notEligible
  | empty
  | noWaitingDemand
  | cpuCapacity
  | unprofitable
  | lowPressure
  deriving DecidableEq, Repr

/-- The fields of the metadata that the benefit reads. -/
structure BenefitMetadata where
  importance : ℚ
  nearCompletion : Bool
  applicationMaxDepth : ℤ
  remainingDepth : ℤ
  offloadEligible : Bool
  reusablePrefix : Bool

structure Pressure where
  usage : ℚ
  free : ℤ
  waitingCount : ℤ
  waitingDemand : ℤ
  criticalDemand : ℤ
  sharedAvailable : ℤ
  fitDemand : ℤ

structure BenefitSettings where
  minGpuUsage : ℚ
  highPressureGpuUsage : ℚ
  scoreThreshold : ℚ
  maxReliefBlocks : ℕ

/-- The arguments of `evaluate_benefit` that describe the batch. -/
structure BatchCost where
  blocks : ℕ
  cpuAvailable : ℕ
  cpuNeeded : ℕ
  duration : ℚ
  transferTime : ℚ
  agentScore : ℚ
  churnPenalty : ℚ

namespace BatchCost

variable (settings : BenefitSettings) (metadata : BenefitMetadata) (pressure : Pressure)
variable (b : BatchCost)

def importance : ℚ := min 10 (max metadata.importance (min 10 (b.agentScore / 2)))

def nearCompletion : Bool :=
  metadata.nearCompletion ||
    decide (0 < metadata.applicationMaxDepth ∧ metadata.remainingDepth ≤ 1)

def margin : ℚ := b.duration - b.transferTime

def uploadSafety : ℚ := if 2 * b.transferTime ≤ b.duration then 1 else -1

def score : ℚ :=
  let pressureScore := max 0 ((pressure.usage - settings.minGpuUsage) * 6) +
    min 2 ((pressure.waitingDemand : ℚ) / (max 1 (b.blocks + 1) : ℕ))
  let fitScore := min 2 ((pressure.fitDemand : ℚ) / (max 1 b.blocks : ℕ))
  let stallScore := min 6 (b.margin / max (1 / 4) b.transferTime)
  let cpuScore : ℚ := if b.cpuNeeded ≤ b.cpuAvailable then 1 else -4
  stallScore + pressureScore + fitScore + b.uploadSafety + cpuScore
    - 7 / 20 * b.importance metadata
    - (if nearCompletion metadata then 2 else 0) - b.churnPenalty

def emergency : Bool :=
  decide (settings.highPressureGpuUsage ≤ pressure.usage ∧
    max (4 * b.transferTime) 5 ≤ b.margin ∧ 0 < pressure.waitingCount)

/-- The test of the duration and the margin. -/
def tooShort : Bool :=
  decide (b.duration ≤ b.transferTime) ||
    (decide (b.margin < max (1 / 20) (2 * b.transferTime)) && !b.emergency settings pressure)

def lowPressure : Bool :=
  decide (pressure.usage < settings.minGpuUsage) &&
    ((decide (pressure.waitingDemand ≤ pressure.free) &&
      decide (pressure.criticalDemand ≤ pressure.sharedAvailable)) ||
      decide (pressure.fitDemand < b.blocks) || decide (pressure.waitingCount = 0))

/-- The test of the importance and the score. -/
def poorScore : Bool :=
  (decide (8 ≤ b.importance metadata) && !b.emergency settings pressure &&
    (nearCompletion metadata || decide (b.margin < max (1 / 2) (8 * b.transferTime)) ||
      decide (b.uploadSafety < 0))) ||
  (decide (b.score settings metadata pressure < settings.scoreThreshold) &&
    !b.emergency settings pressure)

/-- `evaluate_benefit`: the reason for storing the batch or not. -/
def evaluateBenefit : Metric :=
  if !metadata.offloadEligible || !metadata.reusablePrefix then .notEligible
  else if b.blocks = 0 then .empty
  else if pressure.fitDemand ≤ 0 then .noWaitingDemand
  else if b.cpuAvailable < b.cpuNeeded then .cpuCapacity
  else if b.tooShort settings pressure then .unprofitable
  else if b.lowPressure settings pressure then .lowPressure
  else if b.poorScore settings metadata pressure then .unprofitable
  else .selected

end BatchCost

namespace TokenCakeOffloadingScheduler

variable {σ : Type}

/-- The keys that `_cpu_available` protects: those of transfer jobs and those that records
retain. -/
def protectedKeys (c : TokenCakeOffloadingScheduler κ σ) : List κ :=
  (c.jobs.values.flatMap (·.keys) ++
    c.offload.registry.records.values.flatMap (·.retained)).dedup

/-- `_cpu_available`. -/
def cpuAvailable (c : TokenCakeOffloadingScheduler κ σ) (numCpuBlocks : ℕ) : ℕ :=
  numCpuBlocks - c.protectedKeys.length

end TokenCakeOffloadingScheduler

/-- One iteration of `evaluate_pending` from its limit to its decision. -/
structure Evaluation (κ : Type) where
  config : SchedulerOffloadConfig
  transfer : TransferModel
  settings : BenefitSettings
  metadata : BenefitMetadata
  pressure : Pressure
  onCpu : κ → Bool
  available : ℕ
  remaining : ℚ
  agentScore : ℚ
  churnPenalty : ℚ

namespace Evaluation

variable (e : Evaluation κ) (candidates : List (SnapshotBlock κ))

def limit : ℕ :=
  if e.settings.maxReliefBlocks ≠ 0
  then min e.pressure.fitDemand.toNat e.settings.maxReliefBlocks
  else preservationLimit e.transfer e.config.blockSizeFactor e.onCpu candidates e.available
    e.remaining

def batch : List (SnapshotBlock κ) := e.config.boundCandidates candidates (e.limit candidates)

def cost (batch : List (SnapshotBlock κ)) : BatchCost where
  blocks := batch.length * e.config.blockSizeFactor
  cpuAvailable := e.available
  cpuNeeded := newCount e.onCpu batch
  duration := e.remaining
  transferTime := e.transfer.roundTrip (newCount e.onCpu batch) batch.length
  agentScore := e.agentScore
  churnPenalty := e.churnPenalty

def decision : Metric :=
  if e.pressure.fitDemand = 0 then .noWaitingDemand
  else (e.cost (e.batch candidates)).evaluateBenefit e.settings e.metadata e.pressure

end Evaluation

end TokenCake.Offload
