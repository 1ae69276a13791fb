import Mathlib.Data.Prod.Lex
import Mathlib.Algebra.Order.Ring.Rat
import TokenCake.Model.Request

/-! # The scheduling step

`Scheduler.schedule` with its running loop, its preemptions and its waiting loop. The KV cache
manager, the connector, the encoder cache and the scheduling controller are collaborators: each
of their calls is a function of the whole scheduler state, and everything below holds for
whatever they answer. -/

namespace TokenCake.Sched

/-! ## State -/

inductive ScheduleError where
  | emptyQueue
  | notInQueue
  | emptyAgentOrder
  | missingKey
  | invalidStatus
  | assertion
  | outOfFuel
  deriving DecidableEq, Repr

inductive PauseState where
  | unpaused
  | pausedNew
  | pausedAll
  deriving DecidableEq, Repr

structure SchedulerConfig where
  policy : SchedulingPolicy
  maxNumRunningReqs : ℕ
  maxNumScheduledTokens : ℤ
  maxNumEncoderInputTokens : ℤ
  maxModelLen : ℤ
  longPrefillTokenThreshold : ℤ := 0
  enableChunkedPrefill : Bool := true
  /-- `none` without a LoRA configuration. -/
  maxLoras : Option ℕ := none
  needMambaBlockAlignedSplit : Bool := false
  asyncScheduling : Bool := false
  numSpecTokens : ℕ := 0
  recomputeKvLoadFailures : Bool := true
  /-- A KV connector is configured, and it is the TokenCake connector. -/
  hasConnector : Bool := false
  hasTokenCakeConnector : Bool := false

/-- The scheduler. `backend` is the state of everything behind the collaborators. -/
structure Scheduler (ω : Type) where
  requests : OrdDict String Request
  running : List String
  waiting : RequestQueue
  skippedWaiting : RequestQueue
  pauseState : PauseState
  backend : ω

/-- What the scheduling controller freezes for one step. -/
structure Agents where
  metadata : List String
  scores : OrdDict String ℤ
  agentScores : OrdDict String ℤ
  decodePrefillTokenBudget : ℤ
  cacheAffinityScoreBand : ℤ

structure EncoderPlan where
  inputs : List ℕ
  numNewTokens : ℤ
  computeBudget : ℤ
  externalLoad : List ℕ

/-- The arguments of an admission that the controller and the cache manager see. -/
structure Admission where
  numNewTokens : ℤ
  numLocalComputedTokens : ℤ
  numExternalComputedTokens : ℤ
  loadKvAsync : Bool
  borrowReserved : Bool

/-- The readings that the choice of a victim rests on. -/
structure VictimView where
  needed : ℤ
  released : String → ℤ
  recomputeTokens : String → ℤ

structure Collaborators (ω : Type) where
  /-- `begin_step`; `none` while no annotated request is live. -/
  beginStep : Scheduler ω → Option Agents × ω
  /-- `evaluate_pending` and whether stores wait for their publication. -/
  hasUnpublished : Scheduler ω → Bool × ω
  tryScheduleEncoderInputs : Scheduler ω → Request → ℤ → ℤ → ℤ → EncoderPlan × ω
  numEncoderEmbeds : Request → ℕ → ℤ
  mambaBlockAlignedSplit : Scheduler ω → Request → ℤ → ℤ
  /-- `prepare_running` and `can_grow`. -/
  canGrow : Scheduler ω → Request → ℤ → Bool × ω
  /-- `allocate_slots` of a running request, with its `commit` when it succeeds. -/
  allocateRunning : Scheduler ω → Request → ℤ → Bool × ω
  victimView : Scheduler ω → Request → ℤ → VictimView × ω
  /-- Freeing what a preempted request holds. -/
  freePreempted : Scheduler ω → Request → ω
  finishedRecving : Scheduler ω → Request → Bool
  /-- `_update_waiting_for_remote_kv`: the computed tokens after the transfer. -/
  updateWaitingForRemoteKv : Scheduler ω → Request → ℤ × ω
  grammarReady : Scheduler ω → Request → Bool
  getComputedBlocks : Scheduler ω → Request → ℤ × ω
  deferCacheLookup : Scheduler ω → Request → ℤ → Bool × ω
  getNumNewMatchedTokens : Scheduler ω → Request → ℤ → (Option ℤ × Bool) × ω
  /-- `can_allocate`, and whether the refusal is due to reserved capacity. -/
  canAllocate : Scheduler ω → Request → Admission → (Bool × Bool) × ω
  /-- `allocate_slots` of a waiting request, with `commit` and the connector's update. -/
  allocateSlots : Scheduler ω → Request → Admission → Bool × ω
  /-- `_active_prefix_affinity`, and whether affinity reorders at all in this state. -/
  activePrefixAffinity : Scheduler ω → Request → ℚ × ℤ
  affinityApplies : Scheduler ω → Bool

inductive QueueName where
  | waiting
  | skipped
  deriving DecidableEq, Repr

/-- The local variables of `schedule`. `visits` is not in the source: it records which requests
the waiting loop takes up, and whether that happened after reserved capacity was opened. -/
structure Step (ω : Type) where
  sched : Scheduler ω
  reqIndex : ℕ := 0
  tokenBudget : ℤ
  prefillBudget : ℤ
  encoderComputeBudget : ℤ
  scheduledNewReqs : List String := []
  scheduledResumedReqs : List String := []
  scheduledRunningReqs : List String := []
  preemptedReqs : List String := []
  reqToNewBlocks : List String := []
  numScheduledTokens : OrdDict String ℤ := .empty
  scheduledPrefillTokens : OrdDict String ℤ := .empty
  scheduledSpecDecodeTokens : OrdDict String (List ℕ) := .empty
  scheduledEncoderInputs : OrdDict String (List ℕ) := .empty
  scheduledLoras : List ℕ := []
  stepSkippedWaiting : RequestQueue := []
  reservationDeferred : List String := []
  borrowReserved : Bool := false
  agentOrder : Option (List (String × QueueName)) := none
  visits : List (String × Bool) := []

variable {ω : Type}

namespace Scheduler

def lookup (s : Scheduler ω) (id : String) : Except ScheduleError Request :=
  match s.requests.get? id with
  | some request => .ok request
  | none => .error .missingKey

def setRequest (s : Scheduler ω) (id : String) (f : Request → Request) : Scheduler ω :=
  { s with requests := s.requests.modify id f }

/-- `Request.__lt__` of the requests behind two identifiers. -/
def before (s : Scheduler ω) (a b : String) : Bool :=
  match s.requests.get? a, s.requests.get? b with
  | some ra, some rb => ra.lt rb
  | _, _ => false

def queue (s : Scheduler ω) : QueueName → RequestQueue
  | .waiting => s.waiting
  | .skipped => s.skippedWaiting

def setQueue (s : Scheduler ω) (name : QueueName) (queue : RequestQueue) : Scheduler ω :=
  match name with
  | .waiting => { s with waiting := queue }
  | .skipped => { s with skippedWaiting := queue }

/-- `remove_request` raises when the queue does not contain the request. -/
def removeRequest (s : Scheduler ω) (name : QueueName) (id : String) :
    Except ScheduleError (Scheduler ω) :=
  if id ∈ s.queue name then .ok (s.setQueue name ((s.queue name).erase id))
  else .error .notInQueue

def popRequest (s : Scheduler ω) (name : QueueName) : Except ScheduleError (Scheduler ω) :=
  match s.queue name with
  | [] => .error .emptyQueue
  | _ :: rest => .ok (s.setQueue name rest)

def selectWaitingQueue (s : Scheduler ω) (policy : SchedulingPolicy) : Option QueueName :=
  match policy, s.waiting, s.skippedWaiting with
  | _, [], [] => none
  | _, [], _ :: _ => some .skipped
  | _, _ :: _, [] => some .waiting
  | .fcfs, _ :: _, _ :: _ => some .skipped
  | .priority, w :: _, k :: _ => if s.before w k then some .waiting else some .skipped

/-- Put a preempted request back to the waiting queue; its blocks are freed by the caller. -/
def preempt (s : Scheduler ω) (policy : SchedulingPolicy) (id : String) :
    Except ScheduleError (Scheduler ω) := do
  let request ← s.lookup id
  if request.status = .running then
    let s := s.setRequest id fun r =>
      { r with
        status := .preempted
        numComputedTokens := 0
        specTokenIds := []
        numPreemptions := r.numPreemptions + 1 }
    return { s with waiting := RequestQueue.prependRequest policy s.before s.waiting id }
  else .error .assertion

end Scheduler

namespace Step

def withBackend (st : Step ω) (backend : ω) : Step ω :=
  { st with sched := { st.sched with backend := backend } }

end Step

/-- The first element that no other one is better than. -/
def firstBest {α : Type*} (better : α → α → Bool) : List α → Option α
  | [] => none
  | x :: xs => some (xs.foldl (fun best y => if better y best then y else best) x)

/-! ## The controller's orders -/

namespace Agents

def annotated (agents : Agents) (id : String) : Bool := decide (id ∈ agents.metadata)

def score (agents : Agents) (id : String) : ℤ := (agents.scores.get? id).getD 0

/-- `prefill_budget`: bounded while some running request decodes. -/
def prefillBudget (agents : Agents) (running : List Request) (nativeBudget : ℤ) : ℤ :=
  if agents.decodePrefillTokenBudget ≠ 0 &&
      running.any fun r => decide (r.numPromptTokens ≤ r.numComputedTokens)
  then min nativeBudget agents.decodePrefillTokenBudget
  else nativeBudget

def capPrefill (tokens budget : ℤ) : ℤ := if budget < tokens then budget else tokens

/-- `order_key(a) < order_key(b)`. -/
def orderBefore (agents : Agents) (a b : Request) : Bool :=
  let key (r : Request) := toLex (-agents.score r.requestId,
    toLex (-(agents.agentScores.get? r.requestId).getD (agents.score r.requestId),
      toLex (r.priority, toLex (r.arrivalTime, r.requestId))))
  decide (key a < key b)

/-- Split a list sorted by score into maximal runs within `band` of their first score. -/
def scoreBands (agents : Agents) (band : ℤ) :
    ℕ → List (Request × QueueName) → List (List (Request × QueueName))
  | 0, _ => []
  | _ + 1, [] => []
  | n + 1, first :: rest =>
      let near (item : Request × QueueName) : Bool :=
        decide (agents.score first.1.requestId - band ≤ agents.score item.1.requestId)
      (first :: rest.takeWhile near) :: scoreBands agents band n (rest.dropWhile near)

/-- `order_candidates`: by score, and inside a band of scores by the shared prefix. -/
def orderCandidates (agents : Agents) (applies : Bool) (affinity : Request → ℚ × ℤ)
    (candidates : List (Request × QueueName)) : List (Request × QueueName) :=
  let ordered := candidates.mergeSort fun a b => !agents.orderBefore b.1 a.1
  if agents.cacheAffinityScoreBand = 0 || !applies then ordered
  else
    let preferred (group : List (Request × QueueName)) := group.mergeSort fun a b =>
      decide (toLex (affinity b.1) ≤ toLex (affinity a.1))
    ((agents.scoreBands agents.cacheAffinityScoreBand ordered.length ordered).map
      preferred).flatten

/-- The requests of a band that the cache moves before their place in the order of the scores. -/
def promoted (group preferred : List (Request × QueueName)) : List String :=
  let positions := OrdDict.ofList (group.zipIdx.map fun (item, i) => (item.1.requestId, i))
  (preferred.zipIdx.filter fun (item, i) =>
    decide (i < (positions.get? item.1.requestId).getD 0)).map fun (item, _) => item.1.requestId

/-- The requests that `order_candidates` adds to `_cache_preferred`. -/
def cachePreferred (agents : Agents) (applies : Bool) (affinity : Request → ℚ × ℤ)
    (candidates : List (Request × QueueName)) : List String :=
  let ordered := candidates.mergeSort fun a b => !agents.orderBefore b.1 a.1
  if agents.cacheAffinityScoreBand = 0 || !applies then []
  else
    let preferred (group : List (Request × QueueName)) := group.mergeSort fun a b =>
      decide (toLex (affinity b.1) ≤ toLex (affinity a.1))
    (agents.scoreBands agents.cacheAffinityScoreBand ordered.length ordered).flatMap fun group =>
      promoted group (preferred group)

/-- Both queues in the order of the policy. -/
def mergedQueues (policy : SchedulingPolicy) (s : Scheduler ω) : List (String × QueueName) :=
  let skipped := s.skippedWaiting.map fun id => (id, QueueName.skipped)
  let waiting := s.waiting.map fun id => (id, QueueName.waiting)
  match policy with
  | .fcfs => skipped ++ waiting
  | .priority => List.merge skipped waiting fun a b => !s.before b.1 a.1

/-- `annotated_prefix`: the annotated requests ahead of the first ordinary one. -/
def annotatedPrefix (agents : Agents) (policy : SchedulingPolicy) (s : Scheduler ω) :
    List (String × QueueName) :=
  (mergedQueues policy s).takeWhile fun item => agents.annotated item.1

/-- Scores within this band of the lowest one compete for preemption. -/
def preemptionScoreBand : ℤ := 3000

/-- `cost(a) < cost(b)` of two victims. -/
def cheaper (agents : Agents) (view : VictimView) (a b : Request) : Bool :=
  let cost (r : Request) :=
    let released := view.released r.requestId
    let computed := view.recomputeTokens r.requestId
    toLex (decide ((9 / 10 : ℚ) * r.maxTokens ≤ r.numOutputTokens),
      toLex ((computed : ℚ) / (max 1 released : ℤ), toLex (computed, toLex (-released,
        toLex (agents.score r.requestId, toLex (-r.priority,
          toLex (-r.arrivalTime, r.requestId)))))))
  decide (cost a < cost b)

/-- The running requests among which the victim is chosen. -/
def victimCandidates (agents : Agents) (view : VictimView) (request : Request)
    (running : List Request) : List Request :=
  let scored := running.filter fun r => agents.scores.contains r.requestId
  let lowest := (scored.map fun r => agents.score r.requestId).min?.getD 0
  let low := scored.filter fun r =>
    decide (agents.score r.requestId ≤ lowest + preemptionScoreBand)
  let sufficient := low.filter fun r =>
    decide (r.requestId ≠ request.requestId ∧ view.needed ≤ view.released r.requestId)
  let positive := low.filter fun r => decide (0 < view.released r.requestId)
  if !sufficient.isEmpty then sufficient else if !positive.isEmpty then positive else low

/-- `victim`: ordinary requests leave the choice to the native policy. -/
def victim (agents : Agents) (view : VictimView) (request : Request) (running : List Request) :
    Except ScheduleError (Option String) :=
  if agents.annotated request.requestId then
    match firstBest (agents.cheaper view) (agents.victimCandidates view request running) with
    | some r => .ok (some r.requestId)
    | none => .error .assertion
  else .ok none

end Agents

/-! ## The running loop -/

section Running

variable (env : Collaborators ω) (cfg : SchedulerConfig) (agents : Option Agents)

def isAnnotated (id : String) : Bool := agents.any (·.annotated id)

/-- `_preempt_request` of a victim of the running loop. -/
def preemptRequest (st : Step ω) (id : String) : Except ScheduleError (Step ω) := do
  let request ← st.sched.lookup id
  let s ← Scheduler.preempt { st.sched with backend := env.freePreempted st.sched request }
    cfg.policy id
  return { st with sched := s }

def runningRequests (st : Step ω) : Except ScheduleError (List Request) :=
  st.sched.running.mapM st.sched.lookup

/-- `running.remove`, with the bookkeeping of a request that was already scheduled. Such a
request stands before `reqIndex`, which is therefore positive. -/
def unschedule (st : Step ω) (plan : EncoderPlan) (id : String) (byAgent : Bool) :
    Except ScheduleError (Step ω × EncoderPlan) :=
  if id ∈ st.sched.running then
    let victimIndex := st.sched.running.idxOf id
    let st := { st with sched := { st.sched with running := st.sched.running.erase id } }
    if id ∈ st.scheduledRunningReqs then
      match st.numScheduledTokens.get? id, st.sched.requests.get? id with
      | some tokens, some request =>
          let restored := match st.scheduledEncoderInputs.get? id with
            | some inputs => (inputs.map (env.numEncoderEmbeds request)).sum
            | none => 0
          .ok ({ st with
            scheduledRunningReqs := st.scheduledRunningReqs.erase id
            tokenBudget := st.tokenBudget + tokens
            numScheduledTokens := st.numScheduledTokens.erase id
            prefillBudget := st.prefillBudget + (st.scheduledPrefillTokens.get? id).getD 0
            scheduledPrefillTokens := st.scheduledPrefillTokens.erase id
            reqToNewBlocks := st.reqToNewBlocks.erase id
            scheduledSpecDecodeTokens := st.scheduledSpecDecodeTokens.erase id
            scheduledEncoderInputs := st.scheduledEncoderInputs.erase id
            encoderComputeBudget := st.encoderComputeBudget + restored
            reqIndex := st.reqIndex - 1 },
            if byAgent then { plan with computeBudget := plan.computeBudget + restored }
            else plan)
      | _, _ => .error .missingKey
    else if byAgent && decide (victimIndex < st.reqIndex) then
      .ok ({ st with reqIndex := st.reqIndex - 1 }, plan)
    else .ok (st, plan)
  else .error .notInQueue

/-- The victim the controller names, if it is active. -/
def agentVictim (st : Step ω) (request : Request) (numNewTokens : ℤ) (running : List Request) :
    Except ScheduleError (Option String × Step ω) :=
  match agents with
  | none => .ok (none, st)
  | some a =>
      let (view, backend) := env.victimView st.sched request numNewTokens
      (a.victim view request running).map fun choice => (choice, st.withBackend backend)

/-- Choose a victim and take it out of the running list. -/
def removeVictim (st : Step ω) (plan : EncoderPlan) (request : Request) (numNewTokens : ℤ) :
    Except ScheduleError (String × Step ω × EncoderPlan) := do
  let running ← runningRequests st
  let (choice, st) ← agentVictim env agents st request numNewTokens running
  match choice, cfg.policy with
  | some id, _ =>
      let (st, plan) ← unschedule env st plan id true
      return (id, st, plan)
  | none, .priority =>
      let later (a b : Request) : Bool :=
        decide (toLex (b.priority, b.arrivalTime) < toLex (a.priority, a.arrivalTime))
      match firstBest later running with
      | none => .error .emptyQueue
      | some r =>
          let (st, plan) ← unschedule env st plan r.requestId false
          return (r.requestId, st, plan)
  | none, .fcfs =>
      match st.sched.running.getLast? with
      | none => .error .emptyQueue
      | some id =>
          return (id, { st with sched := { st.sched with
            running := st.sched.running.dropLast } }, plan)

/-- Allocate for a running request, preempting until it fits or is itself preempted. -/
def allocateLoop (request : Request) (numNewTokens : ℤ) :
    ℕ → Step ω → EncoderPlan → Except ScheduleError (Bool × Step ω × EncoderPlan)
  | 0, _, _ => .error .outOfFuel
  | fuel + 1, st, plan => do
      let (fits, backend) := env.allocateRunning st.sched request numNewTokens
      let st := st.withBackend backend
      if fits then return (true, st, plan)
      else
        let (id, st, plan) ← removeVictim env cfg agents st plan request numNewTokens
        let st ← preemptRequest env cfg st id
        let st := { st with preemptedReqs := st.preemptedReqs ++ [id] }
        if id = request.requestId then return (false, st, plan)
        else allocateLoop request numNewTokens fuel st plan

/-- Async scheduling: the previous step has surely reached `max_tokens`. -/
def reachedMaxTokens (r : Request) : Bool :=
  decide (0 < r.numOutputPlaceholders ∧
    r.numPromptTokens + r.maxTokens ≤ r.numComputedTokens + 2 - r.numOutputPlaceholders)

def limitThreshold (tokens : ℤ) : ℤ :=
  if 0 < cfg.longPrefillTokenThreshold ∧ cfg.longPrefillTokenThreshold < tokens
  then cfg.longPrefillTokenThreshold else tokens

/-- The tokens a running request asks for, and whether they count as prefill. -/
def runningTokens (st : Step ω) (r : Request) : ℤ × Bool :=
  let tokens := limitThreshold cfg
    (r.numTokensWithSpec + r.numOutputPlaceholders - r.numComputedTokens)
  let tokens := min tokens st.tokenBudget
  let limitedPrefill := isAnnotated agents r.requestId
    && decide (r.numComputedTokens < r.numPromptTokens) && decide (1 < tokens)
    && cfg.enableChunkedPrefill && !r.hasEncoderInputs && !cfg.needMambaBlockAlignedSplit
  let tokens := if limitedPrefill then Agents.capPrefill tokens st.prefillBudget else tokens
  (min tokens (cfg.maxModelLen - 1 - r.numComputedTokens), limitedPrefill)

/-- Encoder inputs and mamba alignment may shorten the chunk further. -/
def planEncoder (st : Step ω) (r : Request) (computed tokens : ℤ) : EncoderPlan × Step ω :=
  if r.hasEncoderInputs then
    let (plan, backend) :=
      env.tryScheduleEncoderInputs st.sched r computed tokens st.encoderComputeBudget
    (plan, st.withBackend backend)
  else (⟨[], tokens, st.encoderComputeBudget, []⟩, st)

def alignMamba (st : Step ω) (r : Request) (tokens : ℤ) : ℤ :=
  if cfg.needMambaBlockAlignedSplit then env.mambaBlockAlignedSplit st.sched r tokens
  else tokens

/-- Record a running request that got its blocks. -/
def scheduleRunning (st : Step ω) (r : Request) (tokens : ℤ) (limitedPrefill : Bool)
    (plan : EncoderPlan) : Step ω :=
  let numSpecTokens := tokens + r.numComputedTokens - r.numTokens - r.numOutputPlaceholders
  { st with
    sched := st.sched.setRequest r.requestId fun r => { r with specTokenIds := [] }
    scheduledRunningReqs := st.scheduledRunningReqs ++ [r.requestId]
    reqToNewBlocks := st.reqToNewBlocks ++ [r.requestId]
    numScheduledTokens := st.numScheduledTokens.insert r.requestId tokens
    tokenBudget := st.tokenBudget - tokens
    scheduledPrefillTokens := if limitedPrefill
      then st.scheduledPrefillTokens.insert r.requestId tokens else st.scheduledPrefillTokens
    prefillBudget := if limitedPrefill then st.prefillBudget - tokens else st.prefillBudget
    reqIndex := st.reqIndex + 1
    scheduledSpecDecodeTokens := if !r.specTokenIds.isEmpty && decide (0 < numSpecTokens)
      then st.scheduledSpecDecodeTokens.insert r.requestId
        (r.specTokenIds.take numSpecTokens.toNat)
      else st.scheduledSpecDecodeTokens
    scheduledEncoderInputs := if plan.inputs.isEmpty then st.scheduledEncoderInputs
      else st.scheduledEncoderInputs.insert r.requestId plan.inputs
    encoderComputeBudget := if plan.inputs.isEmpty then st.encoderComputeBudget
      else plan.computeBudget }

/-- The controller may refuse the growth of a running request. -/
def growth (st : Step ω) (r : Request) (tokens : ℤ) : Bool × Step ω :=
  match agents with
  | none => (true, st)
  | some _ =>
      let (mayGrow, backend) := env.canGrow st.sched r tokens
      (mayGrow, st.withBackend backend)

def skipRunning (st : Step ω) : Step ω := { st with reqIndex := st.reqIndex + 1 }

/-- One iteration of the running loop; `false` is its `break`. -/
def runningStep (st : Step ω) (id : String) : Except ScheduleError (Bool × Step ω) := do
  let r ← st.sched.lookup id
  if reachedMaxTokens r then return (true, skipRunning st)
  else
    let (tokens, limitedPrefill) := runningTokens cfg agents st r
    let (plan, st) := planEncoder env st r r.numComputedTokens tokens
    let tokens := alignMamba env cfg st r plan.numNewTokens
    if tokens = 0 then return (true, skipRunning st)
    else
      let (mayGrow, st) := growth env agents st r tokens
      if mayGrow then
        let (allocated, st, plan) ←
          allocateLoop env cfg agents r tokens (st.sched.running.length + 1) st plan
        if allocated then return (true, scheduleRunning st r tokens limitedPrefill plan)
        else return (false, st)
      else return (true, skipRunning st)

def runningLoop : ℕ → Step ω → Except ScheduleError (Step ω)
  | 0, _ => .error .outOfFuel
  | fuel + 1, st =>
      match st.sched.running[st.reqIndex]? with
      | none => .ok st
      | some id =>
          if 0 < st.tokenBudget then do
            let (again, st) ← runningStep env cfg agents st id
            if again then runningLoop fuel st else return st
          else .ok st

end Running

/-! ## The waiting loop -/

section Waiting

variable (env : Collaborators ω) (cfg : SchedulerConfig) (agents : Option Agents)

/-- Promote a blocked request if what it waits for has arrived. -/
def tryPromote (st : Step ω) (id : String) : Except ScheduleError (Bool × Step ω) := do
  let r ← st.sched.lookup id
  match r.status with
  | .waitingForRemoteKvs =>
      if env.finishedRecving st.sched r then
        let (computed, backend) := env.updateWaitingForRemoteKv st.sched r
        let st := st.withBackend backend
        return (true, { st with sched := st.sched.setRequest id fun r =>
          { r with
            numComputedTokens := computed
            status := if r.numPreemptions ≠ 0 then .preempted else .waiting } })
      else return (false, st)
  | .waitingForStructuredOutputGrammar =>
      if env.grammarReady st.sched r then
        return (true, { st with sched := st.sched.setRequest id fun r =>
          { r with status := .waiting } })
      else return (false, st)
  | .waitingForStreamingReq =>
      if (r.streamingQueue.getD []).isEmpty then return (false, st) else .error .assertion
  | _ => .error .assertion

/-- A request that is not blocked, or no longer. -/
def unblock (st : Step ω) (id : String) : Except ScheduleError (Bool × Step ω) := do
  let r ← st.sched.lookup id
  if r.status.isBlockedWaiting then tryPromote env st id else return (true, st)

/-- Scheduling the request would exceed `max_loras`. -/
def exceedsLoras (st : Step ω) (r : Request) : Bool :=
  match cfg.maxLoras, r.loraIntId with
  | some limit, some lora =>
      decide (st.scheduledLoras.length = limit) && decide (lora ∉ st.scheduledLoras)
  | _, _ => false

def skip (st : Step ω) (id : String) : Step ω :=
  { st with stepSkippedWaiting :=
      RequestQueue.prependRequest cfg.policy st.sched.before st.stepSkippedWaiting id }

/-- Take a request out of its queue and skip it for this step. -/
def removeAndSkip (st : Step ω) (name : QueueName) (id : String) :
    Except ScheduleError (Step ω) := do
  let s ← st.sched.removeRequest name id
  return skip cfg { st with sched := s } id

def popAndSkip (st : Step ω) (name : QueueName) (id : String) :
    Except ScheduleError (Step ω) := do
  let s ← st.sched.popRequest name
  return skip cfg { st with sched := s } id

def visit (st : Step ω) (id : String) : Step ω :=
  { st with visits := st.visits ++ [(id, st.borrowReserved)] }

/-- Whether a candidate may run in this step; the peeked request has been checked already. -/
def checkEligible (st : Step ω) (candidate best : String) :
    Except ScheduleError (Bool × Step ω) :=
  if candidate = best then .ok (true, st)
  else do
    let (unblocked, st) ← unblock env st candidate
    let r ← st.sched.lookup candidate
    return (unblocked && !exceedsLoras cfg st r, st)

/-- The eligibility pass over the annotated prefix: requests that cannot run in this step are
skipped; the others compete for their turn or are collected. -/
def screenCandidates (a : Agents) (cacheAgentOrder : Bool) :
    List (String × QueueName) → Step ω → String × QueueName → List (Request × QueueName) →
      Except ScheduleError (Step ω × (String × QueueName) × List (Request × QueueName))
  | [], st, best, eligible => .ok (st, best, eligible)
  | (candidate, name) :: rest, st, best, eligible => do
      let (eligibleNow, st) ← checkEligible env cfg st candidate best.1
      if eligibleNow then
        let r ← st.sched.lookup candidate
        if cacheAgentOrder then
          screenCandidates a cacheAgentOrder rest st best (eligible ++ [(r, name)])
        else
          let current ← st.sched.lookup best.1
          screenCandidates a cacheAgentOrder rest st
            (if a.orderBefore r current then (candidate, name) else best) eligible
      else
        let st ← removeAndSkip cfg (visit st candidate) name candidate
        screenCandidates a cacheAgentOrder rest st best eligible

/-- Screen the candidates unless a frozen order is in use. -/
def screen (a : Agents) (cacheAgentOrder : Bool) (st : Step ω) (peeked : String × QueueName) :
    Except ScheduleError (Step ω × (String × QueueName)) :=
  match st.agentOrder with
  | some _ => .ok (st, peeked)
  | none => do
      let (st, best, eligible) ← screenCandidates env cfg a cacheAgentOrder
        (a.annotatedPrefix cfg.policy st.sched) st peeked []
      if cacheAgentOrder then
        let ordered := a.orderCandidates (env.affinityApplies st.sched)
          (env.activePrefixAffinity st.sched) eligible
        return ({ st with agentOrder := some (ordered.map fun c => (c.1.requestId, c.2)) }, best)
      else return (st, best)

/-- The annotated request whose turn it is. -/
def nextAgent (a : Agents) (cacheAgentOrder : Bool) (st : Step ω)
    (peeked : String × QueueName) : Except ScheduleError (Step ω × (String × QueueName)) := do
  let (st, best) ← screen env cfg a cacheAgentOrder st peeked
  match st.agentOrder with
  | none => return (st, best)
  | some [] => .error .emptyAgentOrder
  | some (first :: rest) => return ({ st with agentOrder := some rest }, first)

inductive CacheLookup where
  | deferred
  | undetermined
  | found (local_ external : ℤ) (loadKvAsync : Bool)

/-- Locally and externally cached tokens of a request without computed tokens. -/
def lookupCache (st : Step ω) (r : Request) : CacheLookup × Step ω :=
  let (localTokens, backend) := env.getComputedBlocks st.sched r
  let st := st.withBackend backend
  if cfg.hasConnector then
    let (deferred, st) := if agents.isSome && cfg.hasTokenCakeConnector then
        let (deferred, backend) := env.deferCacheLookup st.sched r localTokens
        (deferred, st.withBackend backend)
      else (false, st)
    if deferred then (.deferred, st)
    else
      let ((matched, loadKvAsync), backend) :=
        env.getNumNewMatchedTokens st.sched r localTokens
      match matched with
      | none => (.undetermined, st.withBackend backend)
      | some external => (.found localTokens external loadKvAsync, st.withBackend backend)
  else (.found localTokens 0 false, st)

inductive ChunkPlan where
  | stop
  | skip
  | run (tokens : ℤ) (limitedPrefill : Bool) (plan : EncoderPlan)

/-- The share of the prefill budget a waiting request may use, and whether it is bounded. -/
def limitPrefill (st : Step ω) (r : Request) (tokens : ℤ) : ℤ × Bool :=
  let limitedPrefill := isAnnotated agents r.requestId && decide (1 < tokens)
    && cfg.enableChunkedPrefill && !r.hasEncoderInputs && !cfg.needMambaBlockAlignedSplit
  (if limitedPrefill then Agents.capPrefill tokens st.prefillBudget else tokens, limitedPrefill)

/-- The chunk a waiting request may compute in this step. -/
def planChunk (st : Step ω) (r : Request) (computed : ℤ) (loadKvAsync : Bool) :
    Except ScheduleError (ChunkPlan × Step ω) :=
  if loadKvAsync then
    let tokens := alignMamba env cfg st r 0
    if cfg.needMambaBlockAlignedSplit && decide (tokens = 0) then .ok (.stop, st)
    else .ok (.run tokens false ⟨[], tokens, st.encoderComputeBudget, []⟩, st)
  else
    let tokens := limitThreshold cfg (r.numTokens - computed)
    if !cfg.enableChunkedPrefill && decide (st.tokenBudget < tokens) then .ok (.stop, st)
    else
      let tokens := min tokens st.tokenBudget
      if tokens ≤ 0 then .error .assertion
      else
        let (tokens, limitedPrefill) := limitPrefill cfg agents st r tokens
        if limitedPrefill && decide (tokens = 0) then .ok (.skip, st)
        else
          let (plan, st) := planEncoder env st r computed tokens
          if r.hasEncoderInputs && decide (plan.numNewTokens = 0) then .ok (.stop, st)
          else
            let tokens := alignMamba env cfg st r plan.numNewTokens
            if cfg.needMambaBlockAlignedSplit && decide (tokens = 0) then .ok (.stop, st)
            else .ok (.run tokens limitedPrefill plan, st)

/-- Take an admitted request out of its queue. -/
def dequeue (st : Step ω) (name : QueueName) (id : String) : Except ScheduleError (Step ω) :=
  (if agents.isSome then st.sched.removeRequest name id else st.sched.popRequest name).map
    fun s => { st with sched := s }

/-- A request enters the running list as a new or as a resumed one. -/
def enterRunning (st : Step ω) (r : Request) : Except ScheduleError (Step ω) :=
  let st := { st with sched := { st.sched with running := st.sched.running ++ [r.requestId] } }
  match r.status with
  | .waiting => .ok { st with scheduledNewReqs := st.scheduledNewReqs ++ [r.requestId] }
  | .preempted => .ok { st with scheduledResumedReqs := st.scheduledResumedReqs ++ [r.requestId] }
  | _ => .error .invalidStatus

/-- The request got its blocks and starts to run. -/
def startRunning (st : Step ω) (r : Request) (computed tokens : ℤ) (limitedPrefill : Bool)
    (plan : EncoderPlan) : Except ScheduleError (Step ω) := do
  let st ← enterRunning st r
  return { st with
    sched := st.sched.setRequest r.requestId fun r =>
      { r with status := .running, numComputedTokens := computed }
    scheduledLoras := match cfg.maxLoras, r.loraIntId with
      | some _, some lora =>
          if lora ∈ st.scheduledLoras then st.scheduledLoras else st.scheduledLoras ++ [lora]
      | _, _ => st.scheduledLoras
    reqToNewBlocks := st.reqToNewBlocks ++ [r.requestId]
    numScheduledTokens := st.numScheduledTokens.insert r.requestId tokens
    tokenBudget := st.tokenBudget - tokens
    prefillBudget := if limitedPrefill then st.prefillBudget - tokens else st.prefillBudget
    scheduledEncoderInputs := if plan.inputs.isEmpty then st.scheduledEncoderInputs
      else st.scheduledEncoderInputs.insert r.requestId plan.inputs
    encoderComputeBudget := if plan.inputs.isEmpty then st.encoderComputeBudget
      else plan.computeBudget }

/-- The controller's answer to an admission, and whether reserved capacity is the obstacle. -/
def permission (st : Step ω) (r : Request) (admission : Admission) : Bool × Bool × Step ω :=
  match agents with
  | none => (true, false, st)
  | some _ =>
      let ((allowed, reserved), backend) := env.canAllocate st.sched r admission
      (allowed, reserved, st.withBackend backend)

/-- A refused request; it is deferred if reserved capacity is the obstacle. -/
def refuse (st : Step ω) (name : QueueName) (id : String) (reserved : Bool) :
    Except ScheduleError (Step ω) :=
  removeAndSkip cfg (if !st.borrowReserved && reserved
    then { st with reservationDeferred := st.reservationDeferred ++ [id] } else st) name id

/-- An admitted request waits for its asynchronous load or starts to run. -/
def accept (st : Step ω) (name : QueueName) (r : Request) (admission : Admission)
    (limitedPrefill : Bool) (plan : EncoderPlan) : Except ScheduleError (Step ω) := do
  let st ← dequeue agents st name r.requestId
  let computed := if r.numComputedTokens = 0
    then admission.numLocalComputedTokens + admission.numExternalComputedTokens
    else r.numComputedTokens
  if admission.loadKvAsync then
    return skip cfg { st with sched := st.sched.setRequest r.requestId fun r =>
      { r with status := .waitingForRemoteKvs, numComputedTokens := computed } } r.requestId
  else startRunning cfg st r computed admission.numNewTokens limitedPrefill plan

/-- Ask the controller and the cache manager for the blocks of the request. -/
def admitRequest (st : Step ω) (name : QueueName) (r : Request) (admission : Admission)
    (limitedPrefill : Bool) (plan : EncoderPlan) : Except ScheduleError (Bool × Step ω) :=
  let (allowed, reserved, st) := permission env agents st r admission
  if allowed then
    let (fits, backend) := env.allocateSlots st.sched r admission
    let st := st.withBackend backend
    if fits then
      (accept cfg agents st name r admission limitedPrefill plan).map fun st => (true, st)
    else .ok (false, st)
  else (refuse cfg st name r.requestId reserved).map fun st => (true, st)

/-- Take the chosen request out of its queue and skip it. -/
def leaveAndSkip (st : Step ω) (name : QueueName) (id : String) :
    Except ScheduleError (Step ω) :=
  if agents.isSome then removeAndSkip cfg st name id else popAndSkip cfg st name id

/-- Examine the chosen request; `false` is the `break` of the waiting loop. -/
def considerRequest (st : Step ω) (chosen : String × QueueName) :
    Except ScheduleError (Bool × Step ω) := do
  let (id, name) := chosen
  let st := visit st id
  let r ← st.sched.lookup id
  let (found, st) := if r.numComputedTokens = 0 then lookupCache env cfg agents st r
    else (.found 0 0 false, st)
  match found with
  | .deferred =>
      let st ← removeAndSkip cfg st name id
      return (true, st)
  | .undetermined =>
      let st ← leaveAndSkip cfg agents st name id
      return (true, st)
  | .found localTokens external loadKvAsync =>
      let computed := if r.numComputedTokens = 0 then localTokens + external
        else r.numComputedTokens
      if (r.numComputedTokens = 0 ∧ r.numTokens < computed) ∨ (loadKvAsync ∧ external ≤ 0) then
        .error .assertion
      else
        let (chunk, st) ← planChunk env cfg agents st r computed loadKvAsync
        match chunk with
        | .stop => return (false, st)
        | .skip =>
            let st ← removeAndSkip cfg st name id
            return (true, st)
        | .run tokens limitedPrefill plan =>
            admitRequest env cfg agents st name r
              ⟨tokens, localTokens, external, loadKvAsync, st.borrowReserved⟩ limitedPrefill plan

/-- Open the reserved capacity to the requests that were deferred for it. -/
def borrowPass (st : Step ω) : Except ScheduleError (Step ω) := do
  let st ← st.reservationDeferred.foldlM (fun st candidate =>
    if candidate ∈ st.stepSkippedWaiting then
      .ok { st with
        stepSkippedWaiting := st.stepSkippedWaiting.erase candidate
        sched := { st.sched with waiting :=
          RequestQueue.addRequest cfg.policy st.sched.before st.sched.waiting candidate } }
    else .error .notInQueue) st
  return { st with reservationDeferred := [], borrowReserved := true, agentOrder := none }

/-- Every eligible request has had its turn: the deferred ones get a second one. -/
def refill (st : Step ω) : Except ScheduleError (Step ω) :=
  if st.sched.waiting.isEmpty && st.sched.skippedWaiting.isEmpty then borrowPass cfg st
  else .ok st

/-- The request to examine: the peeked one, unless the controller orders annotated ones. -/
def chooseRequest (cacheAgentOrder : Bool) (st : Step ω) (peeked : String × QueueName) :
    Except ScheduleError (Step ω × (String × QueueName)) :=
  match agents with
  | none => .ok (st, peeked)
  | some a =>
      if a.annotated peeked.1 then nextAgent env cfg a cacheAgentOrder st peeked
      else .ok (st, peeked)

/-- One iteration of the waiting loop; `false` is its `break`. -/
def waitingStep (cacheAgentOrder : Bool) (st : Step ω) :
    Except ScheduleError (Bool × Step ω) := do
  let st ← refill cfg st
  match st.sched.selectWaitingQueue cfg.policy with
  | none => .error .assertion
  | some name =>
      match st.sched.queue name with
      | [] => .error .emptyQueue
      | id :: _ => do
          let (unblocked, st) ← unblock env st id
          if unblocked then
            let r ← st.sched.lookup id
            if exceedsLoras cfg st r then
              let st ← popAndSkip cfg (visit st id) name id
              return (true, st)
            else
              let (st, chosen) ← chooseRequest env cfg agents cacheAgentOrder st (id, name)
              considerRequest env cfg agents st chosen
          else
            let st ← popAndSkip cfg (visit st id) name id
            return (true, { st with agentOrder := none })

def waitingLoop (cacheAgentOrder : Bool) : ℕ → Step ω → Except ScheduleError (Step ω)
  | 0, _ => .error .outOfFuel
  | fuel + 1, st =>
      if (st.sched.waiting.isEmpty && st.sched.skippedWaiting.isEmpty
          && st.reservationDeferred.isEmpty) || decide (st.tokenBudget ≤ 0)
          || decide (st.sched.running.length = cfg.maxNumRunningReqs) then .ok st
      else do
        let (again, st) ← waitingStep env cfg agents cacheAgentOrder st
        if again then waitingLoop cacheAgentOrder fuel st else return st

/-- Requests skipped in this pass go ahead of older skipped ones. -/
def requeueSkipped (st : Step ω) : Step ω :=
  let skipped := RequestQueue.prependRequests cfg.policy st.sched.before
    st.sched.skippedWaiting st.stepSkippedWaiting
  { st with sched := { st.sched with skippedWaiting := skipped }, stepSkippedWaiting := [] }

/-- The waiting part of `schedule`; nothing is admitted in a step that preempts. -/
def scheduleWaiting (st : Step ω) : Except ScheduleError (Step ω) :=
  if st.preemptedReqs.isEmpty && decide (st.sched.pauseState = .unpaused) then
    let queued := st.sched.waiting ++ st.sched.skippedWaiting
    let cacheAgentOrder := agents.any fun a => cfg.maxLoras.isNone && queued.all a.annotated
    (waitingLoop env cfg agents cacheAgentOrder (2 * queued.length + 1) st).map
      (requeueSkipped cfg)
  else .ok st

end Waiting

/-! ## The whole step -/

/-- The checks of `schedule` before it builds its output. -/
def Step.consistent (cfg : SchedulerConfig) (st : Step ω) : Bool :=
  decide ((st.numScheduledTokens.sum fun _ n => n) ≤ cfg.maxNumScheduledTokens)
    && decide (0 ≤ st.tokenBudget)
    && decide (st.sched.running.length ≤ cfg.maxNumRunningReqs)
    && decide (st.scheduledNewReqs.length + st.scheduledResumedReqs.length
      + st.scheduledRunningReqs.length ≤ st.sched.running.length)

/-- LoRA adapters of the running requests scheduled so far. -/
def collectLoras (cfg : SchedulerConfig) (st : Step ω) : Except ScheduleError (Step ω) :=
  match cfg.maxLoras with
  | none => .ok st
  | some limit => do
      let scheduled ← st.scheduledRunningReqs.mapM st.sched.lookup
      let loras := (scheduled.filterMap fun r => r.loraIntId.filter (0 < ·)).dedup
      if loras.length ≤ limit then return { st with scheduledLoras := loras }
      else .error .assertion

/-- The state of the step before the running loop, and the controller if it is active. -/
def startStep (env : Collaborators ω) (cfg : SchedulerConfig) (s : Scheduler ω) :
    Except ScheduleError (Option Agents × Step ω) := do
  let tokenBudget := if s.pauseState = .pausedAll then 0 else cfg.maxNumScheduledTokens
  let (agents, backend) := env.beginStep s
  let s := { s with backend := backend }
  let running ← s.running.mapM s.lookup
  let prefillBudget := match agents with
    | some a => a.prefillBudget running tokenBudget
    | none => tokenBudget
  let (hasUnpublished, backend) := env.hasUnpublished s
  return (agents,
    { sched := { s with backend := backend }
      -- The native worker submits unpublished stores at the start of the next step.
      tokenBudget := if hasUnpublished then 0 else tokenBudget
      prefillBudget := prefillBudget
      encoderComputeBudget := cfg.maxNumEncoderInputTokens })

/-- `Scheduler.schedule`, up to the construction of its output. -/
def schedule (env : Collaborators ω) (cfg : SchedulerConfig) (s : Scheduler ω) :
    Except ScheduleError (Step ω) := do
  let (agents, st) ← startStep env cfg s
  let st ← runningLoop env cfg agents (st.sched.running.length + 1) st
  let st ← collectLoras cfg st
  let st ← scheduleWaiting env cfg agents st
  if st.consistent cfg then return st else .error .assertion

end TokenCake.Sched
