import TokenCake.Lib.Run
import TokenCake.Model.Schedule

/-! # Outputs in flight

`update_from_output`, `add_request`, `finish_requests` and `reset_prefix_cache`, and the engine
that issues `schedule` calls ahead of the outputs of earlier ones. -/

namespace TokenCake.Sched

variable {ω : Type}

/-! ## Requests that arrive and finish -/

namespace Scheduler

def enqueueWaitingRequest (s : Scheduler ω) (policy : SchedulingPolicy) (id : String)
    (status : RequestStatus) : Scheduler ω :=
  let name := if status.isBlockedWaiting then QueueName.skipped else .waiting
  s.setQueue name (RequestQueue.addRequest policy s.before (s.queue name) id)

/-- `_free_request`: the entry stays while the connector still needs the blocks. -/
def freeRequest (s : Scheduler ω) (id : String) (delayFree : Bool) : Scheduler ω :=
  if delayFree then s else { s with requests := s.requests.erase id }

/-- Set the final status and free the request. -/
def finishRequest (s : Scheduler ω) (status : RequestStatus) (delayFree : String → Bool)
    (id : String) : Scheduler ω :=
  (s.setRequest id fun r => { r with status := status }).freeRequest id (delayFree id)

/-- An unfinished request for which `p` holds. -/
def live (s : Scheduler ω) (p : Request → Bool) (id : String) : Bool :=
  (s.requests.get? id).any fun r => !r.isFinished && p r

/-- `finish_requests`: a running request leaves the running list, any other one both queues. -/
def finishRequests (s : Scheduler ω) (ids : List String) (status : RequestStatus)
    (delayFree : String → Bool) : Scheduler ω :=
  let valid := ids.dedup.filter (s.live fun _ => true)
  let fromRunning := valid.filter (s.live fun r => decide (r.status = .running))
  let fromWaiting := valid.filter (s.live fun r => decide (r.status ≠ .running))
  valid.foldl (fun s id => s.finishRequest status delayFree id)
    { s with
      running := s.running.filter (· ∉ fromRunning)
      waiting := RequestQueue.removeRequests s.waiting fromWaiting
      skippedWaiting := RequestQueue.removeRequests s.skippedWaiting fromWaiting }

/-- `StreamingUpdate.from_request`. -/
def streamingUpdate (r : Request) : Option StreamingUpdate :=
  if r.resumable then some ⟨r.promptTokenIds, r.arrivalTime, r.samplingParams⟩ else none

/-- `add_request`; a known identifier continues its streaming session. -/
def addRequest (s : Scheduler ω) (policy : SchedulingPolicy) (request : Request)
    (delayFree : String → Bool) : Except ScheduleError (Scheduler ω) :=
  let id := request.requestId
  match s.requests.get? id with
  | some existing =>
      if existing.status ≠ .waitingForStreamingReq then
        match existing.streamingQueue with
        | none => .error .assertion
        | some queue => .ok (s.setRequest id fun r =>
            { r with streamingQueue := some (queue ++ [streamingUpdate request]) })
      else
        match streamingUpdate request with
        | some update => .ok (s.setRequest id fun r => updateRequestAsSession r update)
        | none => .ok (s.finishRequests [id] .finishedAborted delayFree)
  | none =>
      let request := if request.resumable then { request with streamingQueue := some [] }
        else request
      let s := { s with requests := s.requests.insert id request }
      .ok (s.enqueueWaitingRequest policy id request.status)

/-- `reset_prefix_cache` with `reset_running_requests`: everything running is preempted, the
last one first. -/
def resetRunning (s : Scheduler ω) (policy : SchedulingPolicy) :
    Except ScheduleError (Scheduler ω) :=
  s.running.reverse.foldlM (fun s id => do
    let s ← preempt { s with running := s.running.dropLast } policy id
    -- Output frames in flight are stale now.
    return s.setRequest id fun r =>
      { r with asyncTokensToDiscard := r.numOutputPlaceholders, numOutputPlaceholders := 0 }) s

end Scheduler

/-! ## The output of a step -/

/-- What `update_from_output` needs of a scheduled step. -/
structure SchedulerOutput where
  numScheduledTokens : OrdDict String ℤ
  scheduledSpecDecodeTokens : OrdDict String (List ℕ)

/-- The output of the model runner for one step, with the answers of the grammar, the connector
and the block tables that `update_from_output` asks for, and their state afterwards. -/
structure ModelRunnerOutput (ω : Type) where
  sampledTokenIds : String → List ℕ
  hasPoolerOutput : String → Bool
  /-- `should_advance`, and `accept_tokens` refuses the new tokens. -/
  grammarRejects : String → Bool
  /-- The computed tokens left to a request by the invalid blocks it holds. -/
  truncated : String → Option ℤ
  finishedRecving : List String
  finishedSending : List String
  delayFree : String → Bool
  backend : ω

section Update

variable (cfg : SchedulerConfig)

/-- Rejected draft tokens are not computed. -/
def rejectDrafts (r : Request) (drafts generated : List ℕ) : Request :=
  if drafts.isEmpty || generated.isEmpty then r
  else
    let numRejected : ℤ := drafts.length - (generated.length - 1)
    { r with
      numComputedTokens := if 0 < r.numComputedTokens then r.numComputedTokens - numRejected
        else r.numComputedTokens
      numOutputPlaceholders := if 0 < r.numOutputPlaceholders
        then r.numOutputPlaceholders - numRejected else r.numOutputPlaceholders }

/-- `_update_request_with_output` of both schedulers: the request, whether it stopped, and
whether tokens were added. -/
def applyTokens (r : Request) (tokens : List ℕ) : Except ScheduleError (Request × Bool × Bool) :=
  if cfg.asyncScheduling && decide (0 < r.asyncTokensToDiscard) then
    .ok ({ r with asyncTokensToDiscard := r.asyncTokensToDiscard - 1 }, false, false)
  else
    let (r', stopped) := updateRequestWithOutput cfg.maxModelLen r tokens
    if cfg.asyncScheduling then
      let placeholders := r'.numOutputPlaceholders - (r'.numOutputTokens - r.numOutputTokens)
      if placeholders < 0 then .error .assertion
      else .ok ({ r' with numOutputPlaceholders := placeholders }, stopped, true)
    else .ok (r', stopped, true)

/-- New tokens may stop a request; a pooling request stops as soon as there is output. -/
def checkForStop (r : Request) (out : ModelRunnerOutput ω) :
    Except ScheduleError (Request × Bool × Bool) :=
  let tokens := out.sampledTokenIds r.requestId
  if !tokens.isEmpty then applyTokens cfg r tokens
  else if r.pooling && out.hasPoolerOutput r.requestId then
    .ok ({ r with status := .finishedStopped }, true, false)
  else .ok (r, false, false)

/-- The request after its output, and whether it stopped. -/
def applyOutput (r : Request) (drafts : List ℕ) (out : ModelRunnerOutput ω) :
    Except ScheduleError (Request × Bool) :=
  (checkForStop cfg (rejectDrafts r drafts (out.sampledTokenIds r.requestId)) out).map
    fun (r, stopped, added) =>
      if added && out.grammarRejects r.requestId then
        ({ r with status := .finishedError, resumable := false }, true)
      else (r, stopped)

/-- `_handle_stopped_request` on the request itself: whether it is finished, and the request. -/
def handleStoppedRequest (r : Request) : Bool × Request :=
  if r.resumable then
    match r.streamingQueue.getD [] with
    | [] => (false, { r with status := .waitingForStreamingReq })
    | none :: rest => (true, { r with streamingQueue := some rest })
    | some update :: rest =>
        (false, updateRequestAsSession { r with streamingQueue := some rest } update)
  else (true, r)

/-- The scheduler inside the loop of `update_from_output`, with the stopped requests. -/
structure Update (ω : Type) where
  sched : Scheduler ω
  stoppedRunning : List String := []
  stoppedPreempted : List String := []

/-- A request that is finished is freed, any other one goes back to a queue. -/
def placeStopped (out : ModelRunnerOutput ω) (s : Scheduler ω) (id : String)
    (moved : Bool × Request) : Scheduler ω :=
  let s := s.setRequest id fun _ => moved.2
  if moved.1 then s.freeRequest id (out.delayFree id)
  else s.enqueueWaitingRequest cfg.policy id moved.2.status

/-- What becomes of a request that stopped, and whether it was running before. -/
def stopRequest (out : ModelRunnerOutput ω) (u : Update ω) (id : String) (wasRunning : Bool)
    (r : Request) : Update ω where
  sched := placeStopped cfg out u.sched id (handleStoppedRequest r)
  stoppedRunning := u.stoppedRunning ++ if wasRunning then [id] else []
  stoppedPreempted := u.stoppedPreempted ++ if wasRunning then [] else [id]

/-- One request of the step's output. -/
def updateRequest (out : ModelRunnerOutput ω) (drafts : OrdDict String (List ℕ))
    (failed : List String) (u : Update ω) (entry : String × ℤ) :
    Except ScheduleError (Update ω) :=
  let id := entry.1
  if entry.2 ≤ 0 then .error .assertion
  else if id ∈ failed then .ok u
  else
    match u.sched.requests.get? id with
    | none => .ok u
    | some request =>
        if request.isFinished then .ok u
        else do
          let (r, stopped) ← applyOutput cfg request ((drafts.get? id).getD []) out
          if stopped then
            return stopRequest cfg out u id (decide (request.status = .running)) r
          else return { u with sched := u.sched.setRequest id fun _ => r }

/-- Requests that load asynchronously and hold invalid blocks. -/
def asyncFailedLoads (out : ModelRunnerOutput ω) (s : Scheduler ω) : List String :=
  s.skippedWaiting.filter fun id => (out.truncated id).isSome &&
    (s.requests.get? id).any fun r => decide (r.status = .waitingForRemoteKvs)

def syncFailedLoads (out : ModelRunnerOutput ω) (s : Scheduler ω) : List String :=
  s.running.filter fun id => (out.truncated id).isSome

/-- The failed loads that the loop of `update_from_output` passes over. -/
def failedLoads (out : ModelRunnerOutput ω) (s : Scheduler ω) : List String :=
  if cfg.recomputeKvLoadFailures then syncFailedLoads out s
  else asyncFailedLoads out s ++ syncFailedLoads out s

/-- Truncate a request to its valid tokens. -/
def truncateRequest (out : ModelRunnerOutput ω) (s : Scheduler ω) (id : String) : Scheduler ω :=
  s.setRequest id fun r =>
    { r with numComputedTokens := (out.truncated id).getD r.numComputedTokens }

/-- `_handle_invalid_blocks` on the requests whose loads failed. -/
def handleInvalidBlocks (out : ModelRunnerOutput ω) (s : Scheduler ω) : Scheduler ω :=
  (asyncFailedLoads out s ++ syncFailedLoads out s).foldl (truncateRequest out) s

/-- `_free_blocks` of a request whose transfer is over. -/
def freeBlocks (s : Scheduler ω) (id : String) : Except ScheduleError (Scheduler ω) :=
  match s.requests.get? id with
  | none => .error .assertion
  | some r => if r.isFinished then .ok { s with requests := s.requests.erase id }
      else .error .assertion

/-- `_update_from_kv_xfer_finished`. -/
def updateFromKvXferFinished (out : ModelRunnerOutput ω) (s : Scheduler ω) :
    Except ScheduleError (Scheduler ω) := do
  let s ← out.finishedRecving.foldlM (fun s id =>
    if (s.requests.get? id).any fun r => decide (r.status = .waitingForRemoteKvs) then .ok s
    else freeBlocks s id) s
  out.finishedSending.foldlM freeBlocks s

/-- `Scheduler.update_from_output`. -/
def updateFromOutput (s : Scheduler ω) (step : SchedulerOutput) (out : ModelRunnerOutput ω) :
    Except ScheduleError (Scheduler ω) := do
  let failed := failedLoads cfg out s
  let s := handleInvalidBlocks out s
  let u ← step.numScheduledTokens.entries.foldlM
    (updateRequest cfg out step.scheduledSpecDecodeTokens failed) { sched := s }
  let s := { u.sched with
    running := u.sched.running.filter (· ∉ u.stoppedRunning)
    waiting := RequestQueue.removeRequests u.sched.waiting u.stoppedPreempted }
  let s := if cfg.recomputeKvLoadFailures then s
    else s.finishRequests failed .finishedError out.delayFree
  let s ← updateFromKvXferFinished out s
  return { s with backend := out.backend }

/-- `_update_after_schedule`: the scheduled tokens count as computed. -/
def updateAfterSchedule (st : Step ω) : Scheduler ω :=
  st.numScheduledTokens.entries.foldl (fun s entry => s.setRequest entry.1 fun r =>
    let r := { r with numComputedTokens := r.numComputedTokens + entry.2 }
    let isPrefillChunk := decide (r.numComputedTokens < r.numTokens + r.numOutputPlaceholders)
    if cfg.asyncScheduling && !isPrefillChunk then
      let drafts := (st.scheduledSpecDecodeTokens.get? entry.1).getD []
      { r with
        numOutputPlaceholders := r.numOutputPlaceholders + 1 + drafts.length
        -- only the number of the placeholders is ever read
        specTokenIds := List.replicate cfg.numSpecTokens 0 }
    else r) st.sched

end Update

/-! ## The engine -/

/-- A scheduler with the outputs that have not been processed, the oldest first. -/
structure Engine (ω : Type) where
  sched : Scheduler ω
  inFlight : List SchedulerOutput := []

inductive EngineOp (ω : Type) where
  | add (request : Request) (structured : Bool) (delayFree : String → Bool) (backend : ω)
  | finish (ids : Option (List String)) (status : RequestStatus) (delayFree : String → Bool)
      (backend : ω)
  | schedule (env : Collaborators ω)
  | update (out : ModelRunnerOutput ω)
  | reset (backend : ω)
  | pause (state : PauseState)

namespace Engine

/-- A new request waits, for its grammar if its output is structured. -/
def arrive (request : Request) (structured : Bool) : Request :=
  { request with
    status := if structured then .waitingForStructuredOutputGrammar else .waiting
    streamingQueue := none }

/-- One call into the scheduler. -/
def step (cfg : SchedulerConfig) (e : Engine ω) : EngineOp ω → Except ScheduleError (Engine ω)
  | .add request structured delayFree backend =>
      (e.sched.addRequest cfg.policy (arrive request structured) delayFree).map
        fun s => { e with sched := { s with backend := backend } }
  | .finish ids status delayFree backend =>
      if status.isFinished then
        let s := e.sched.finishRequests (ids.getD e.sched.requests.keys) status delayFree
        .ok { e with sched := { s with backend := backend } }
      else .error .assertion
  | .schedule env => do
      let st ← Sched.schedule env cfg e.sched
      return ⟨updateAfterSchedule cfg st,
        e.inFlight ++ [⟨st.numScheduledTokens, st.scheduledSpecDecodeTokens⟩]⟩
  | .update out =>
      match e.inFlight with
      | [] => .error .assertion
      | output :: rest =>
          (updateFromOutput cfg e.sched output out).map fun s => ⟨s, rest⟩
  | .reset backend =>
      (e.sched.resetRunning cfg.policy).map fun s =>
        { e with sched := { s with backend := backend } }
  | .pause state => .ok { e with sched := { e.sched with pauseState := state } }

def Next (cfg : SchedulerConfig) (e : Engine ω) (op : EngineOp ω) (e' : Engine ω) : Prop :=
  e.step cfg op = .ok e'

/-- The engine before the first request. -/
def initial (backend : ω) : Engine ω where
  sched :=
    { requests := .empty, running := [], waiting := [], skippedWaiting := []
      pauseState := .unpaused, backend := backend }

def execute (cfg : SchedulerConfig) (e : Engine ω) (ops : List (EngineOp ω)) :
    Except ScheduleError (Engine ω) :=
  ops.foldlM (fun e op => e.step cfg op) e

theorem run_of_execute {cfg : SchedulerConfig} {e e' : Engine ω} {ops : List (EngineOp ω)}
    (h : e.execute cfg ops = .ok e') : Run (Next cfg) e ops e' := by
  induction ops generalizing e with
  | nil =>
      obtain rfl := Except.ok.inj h
      exact .nil e
  | cons op ops ih =>
      simp only [execute, List.foldlM_cons] at h
      cases hstep : e.step cfg op with
      | error err => simp [hstep, bind, Except.bind] at h
      | ok e₁ =>
          rw [hstep] at h
          exact .cons hstep (ih h)

end Engine

end TokenCake.Sched
