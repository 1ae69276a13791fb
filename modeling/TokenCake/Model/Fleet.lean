import TokenCake.Model.Connector
import TokenCake.Model.Schedule

/-! # The scheduler and its workers

The offloading scheduler sends one message to every worker for each step; the workers execute
the steps in order, transfer asynchronously and report what they completed. Stalls, steps,
completions and resets interleave in any order. -/

namespace TokenCake.Offload

open Sched TokenCakeOffloadingScheduler

/-! ## Messages and workers -/

/-- A step as the workers receive it. `index` counts the steps and `newBlocks` are the new
block ids of the scheduled requests. -/
structure StepMessage where
  index : ℕ
  metadata : OffloadingConnectorMetadata
  newBlocks : List BlockId

/-- The GPU blocks that a step hands out: the new blocks of its scheduled requests and the
destinations of its loads. -/
def StepMessage.handedOut (m : StepMessage) : List BlockId :=
  m.newBlocks ++ m.metadata.loadJobs.values.flatMap (·.gpu.blockIds)

/-- `OffloadingConnectorWorker` with the steps it has not executed and the reports that the
scheduler has not processed. -/
structure Worker where
  inbox : List StepMessage := []
  unsubmittedStoreJobs : List JobId := []
  /-- Transfers in progress. -/
  inFlight : List JobId := []
  /-- Finished transfers that `get_finished` has not returned. -/
  finished : List JobId := []
  /-- One report of completed jobs for each executed step. -/
  outbox : List (List JobId) := []

namespace Worker

/-- Hand the deferred stores to the transfer engine. -/
def submit (w : Worker) : Worker :=
  { w with unsubmittedStoreJobs := [], inFlight := w.inFlight ++ w.unsubmittedStoreJobs }

/-- `handle_preemptions`: submit the deferred stores and wait for the jobs to flush. -/
def handlePreemptions (w : Worker) (jobsToFlush : List JobId) : Worker × List JobId :=
  let w := w.submit
  let waited := w.inFlight.filter (· ∈ jobsToFlush)
  ({ w with
      inFlight := w.inFlight.filter (· ∉ jobsToFlush)
      finished := w.finished ++ waited }, waited)

/-- `start_kv_transfers`. -/
def startKvTransfers (w : Worker) (metadata : OffloadingConnectorMetadata) : Worker :=
  let w := w.submit
  { w with inFlight := w.inFlight ++ metadata.loadJobs.keys }

/-- `prepare_store_kv`: the stores of a step start with the next one. -/
def prepareStoreKv (w : Worker) (metadata : OffloadingConnectorMetadata) : Worker :=
  { w with unsubmittedStoreJobs := w.unsubmittedStoreJobs ++ metadata.storeJobs.keys }

/-- `get_finished` and `build_connector_worker_meta`. -/
def getFinished (w : Worker) : Worker :=
  { w with finished := [], outbox := w.outbox ++ [w.finished.dedup] }

/-- Execute a step; the model overwrites the blocks of the step after the wait. -/
def execute (w : Worker) (m : StepMessage) : Worker × List JobId :=
  let (w, waited) := w.handlePreemptions m.metadata.jobsToFlush
  (((w.startKvTransfers m.metadata).prepareStoreKv m.metadata).getFinished, waited)

/-- A transfer in progress ends. -/
def transferred (w : Worker) (job : JobId) : Worker :=
  { w with inFlight := w.inFlight.filter (· ≠ job), finished := w.finished ++ [job] }

end Worker

/-! ## A step of the scheduler -/

/-- What `schedule` works on: the connector, the blocks allocated to the requests of the step,
and everything else. -/
structure Backend (κ σ ρ : Type) where
  connector : Except ConnectorError (TokenCakeOffloadingScheduler κ σ)
  /-- `req_to_new_blocks`. -/
  reqToNewBlocks : OrdDict String (List (List BlockId)) := .empty
  /-- The blocks that `allocate_slots` handed out in this step. -/
  allocated : List BlockId := []
  rest : ρ

/-- Keep the part that only the connector and the allocation change. -/
def Backend.keep {κ σ ρ : Type} (b b' : Backend κ σ ρ) : Backend κ σ ρ :=
  { b with rest := b'.rest }

/-- The answers that the connector and the allocation rest on. -/
structure Inputs (κ σ ρ : Type) where
  selections : Scheduler (Backend κ σ ρ) → List (Selection κ)
  offloadKeys : Scheduler (Backend κ σ ρ) → Request → List (List κ)
  lookups : Scheduler (Backend κ σ ρ) → Request → List κ
  touched : Scheduler (Backend κ σ ρ) → Request → List κ
  /-- The new blocks of a running request. -/
  newBlocks : Scheduler (Backend κ σ ρ) → Request → ℤ → List (List BlockId)
  /-- All blocks of a request that was just admitted. -/
  blocks : Scheduler (Backend κ σ ρ) → Request → Admission →
    List (List KVBlock)
  plan : String → Option (StorePlan κ)

section Step

variable {κ σ ρ : Type} [DecidableEq κ]

/-- The collaborators of `schedule`. The connector and the allocation follow their models; all
others answer as `env` does and leave these two alone. -/
def collaborators (env : Collaborators (Backend κ σ ρ)) (inputs : Inputs κ σ ρ) :
    Collaborators (Backend κ σ ρ) where
  beginStep s := (env.beginStep s).map id s.backend.keep
  hasUnpublished s :=
    let connector := s.backend.connector >>= fun c => c.evaluatePending (inputs.selections s)
    (connector.toOption.any (·.hasUnpublished), { s.backend with connector := connector })
  tryScheduleEncoderInputs s r computed tokens budget :=
    (env.tryScheduleEncoderInputs s r computed tokens budget).map id s.backend.keep
  numEncoderEmbeds := env.numEncoderEmbeds
  mambaBlockAlignedSplit := env.mambaBlockAlignedSplit
  canGrow s r tokens := (env.canGrow s r tokens).map id s.backend.keep
  allocateRunning s r tokens :=
    let (fits, b) := env.allocateRunning s r tokens
    let blocks := inputs.newBlocks s r tokens
    (fits, if fits then
        { s.backend.keep b with
          reqToNewBlocks := s.backend.reqToNewBlocks.insert r.requestId blocks
          allocated := s.backend.allocated ++ blocks.flatten }
      else s.backend.keep b)
  victimView s r tokens := (env.victimView s r tokens).map id s.backend.keep
  freePreempted s r := s.backend.keep (env.freePreempted s r)
  finishedRecving := env.finishedRecving
  updateWaitingForRemoteKv s r :=
    (env.updateWaitingForRemoteKv s r).map id s.backend.keep
  grammarReady := env.grammarReady
  getComputedBlocks s r := (env.getComputedBlocks s r).map id s.backend.keep
  deferCacheLookup s r tokens := (env.deferCacheLookup s r tokens).map id s.backend.keep
  getNumNewMatchedTokens s r tokens :=
    let (found, b) := env.getNumNewMatchedTokens s r tokens
    let connector := s.backend.connector >>= fun c => c.getNumNewMatchedTokens r.requestId
      (inputs.offloadKeys s r) tokens.toNat (inputs.lookups s r) (inputs.touched s r)
    (found, { s.backend.keep b with connector := connector })
  canAllocate s r admission := (env.canAllocate s r admission).map id s.backend.keep
  allocateSlots s r admission :=
    let (fits, b) := env.allocateSlots s r admission
    let blocks := inputs.blocks s r admission
    let ids := blocks.map fun group => group.map (·.blockId)
    let connector := s.backend.connector >>= fun c => c.updateStateAfterAlloc r.requestId blocks
      admission.numExternalComputedTokens.toNat
    (fits, if fits then
        { s.backend.keep b with
          connector := connector
          reqToNewBlocks := s.backend.reqToNewBlocks.insert r.requestId ids
          allocated := s.backend.allocated ++ ids.flatten }
      else s.backend.keep b)
  activePrefixAffinity := env.activePrefixAffinity
  affinityApplies := env.affinityApplies

/-- The arguments of one call of `schedule`: any scheduler and any collaborators. -/
structure ScheduleCall (κ σ ρ : Type) where
  env : Collaborators (Backend κ σ ρ)
  inputs : Inputs κ σ ρ
  cfg : SchedulerConfig
  sched : Scheduler ρ

inductive FleetError where
  | schedule (error : ScheduleError)
  | connector (error : ConnectorError)
  | disabled
  deriving DecidableEq, Repr

/-- What the connector reads of the finished step. -/
def connectorInput (inputs : Inputs κ σ ρ) (st : Step (Backend κ σ ρ)) : ConnectorInput κ :=
  { scheduled := (st.scheduledNewReqs ++ st.scheduledRunningReqs ++ st.scheduledResumedReqs).map
      fun id => ⟨id, st.sched.backend.reqToNewBlocks.get? id, inputs.plan id⟩
    preemptedReqIds := st.preemptedReqs
    totalNumScheduledTokens := st.numScheduledTokens.sum fun _ n => n }

/-- What a step leaves behind: its output and the blocks that were allocated for it. -/
structure StepResult (κ σ : Type) where
  connector : TokenCakeOffloadingScheduler κ σ
  metadata : OffloadingConnectorMetadata
  newBlocks : List BlockId
  allocated : List BlockId
  totalNumScheduledTokens : ℤ

/-- `schedule` started on the connector. -/
def ScheduleCall.start (call : ScheduleCall κ σ ρ) (c : TokenCakeOffloadingScheduler κ σ) :
    Scheduler (Backend κ σ ρ) :=
  { requests := call.sched.requests
    running := call.sched.running
    waiting := call.sched.waiting
    skippedWaiting := call.sched.skippedWaiting
    pauseState := call.sched.pauseState
    backend := { connector := .ok c, rest := call.sched.backend } }

/-- The output of `schedule` for the workers. -/
def finishStep (inputs : Inputs κ σ ρ) (st : Step (Backend κ σ ρ)) :
    Except ConnectorError (StepResult κ σ) := do
  let c ← st.sched.backend.connector
  let input := connectorInput inputs st
  let (c, metadata) ← c.buildConnectorMeta input
  return ⟨c, metadata, input.scheduled.flatMap (·.newBlocks), st.sched.backend.allocated,
    input.totalNumScheduledTokens⟩

/-- `schedule` with the publication of its output. -/
def ScheduleCall.perform (call : ScheduleCall κ σ ρ) (c : TokenCakeOffloadingScheduler κ σ) :
    Except FleetError (StepResult κ σ) :=
  match Sched.schedule (collaborators call.env call.inputs) call.cfg (call.start c) with
  | .error e => .error (.schedule e)
  | .ok st =>
      match finishStep call.inputs st with
      | .error e => .error (.connector e)
      | .ok result => .ok result

end Step

/-! ## The system -/

structure Fleet (κ σ : Type) where
  scheduler : TokenCakeOffloadingScheduler κ σ
  workers : List Worker
  /-- The number of steps sent to the workers. -/
  steps : ℕ := 0

inductive FleetOp (κ σ ρ : Type) where
  | lifecycle (op : OffloadOp κ σ)
  | evaluate (selections : List (Selection κ))
  | schedule (call : ScheduleCall κ σ ρ)
  | requestFinished (reqId : String)
  /-- `update_connector_output` with the next reports of the listed workers. -/
  | update (now : ℚ) (retainedAt : String → ℚ) (reporters : List ℕ)
  | reset (now : ℚ)
  | work (worker : ℕ)
  | transferred (worker : ℕ) (job : JobId)

/-- What an observer of the system sees of an operation. Detached stores are listed with the
blocks they read. -/
inductive Observation where
  | silent
  | registered (stores : List (JobId × List BlockId))
  | step (stores : List (JobId × List BlockId)) (tokens : ℤ) (allocated : List BlockId)
      (message : StepMessage)
  | reported (completed : List (ℕ × JobId))
  | reset
  | executed (worker : ℕ) (message : StepMessage) (waited : List JobId)
  | transferred (worker : ℕ) (job : JobId)

/-- Take the next report of each listed worker. -/
def takeReports (workers : List Worker) :
    List ℕ → Option (List Worker × List (ℕ × List JobId))
  | [] => some (workers, [])
  | w :: rest =>
      match workers[w]? with
      | none => none
      | some worker =>
          match worker.outbox with
          | [] => none
          | report :: outbox =>
              (takeReports (workers.set w { worker with outbox := outbox }) rest).map
                fun (workers, reports) => (workers, (w, report) :: reports)

/-- `OffloadingWorkerMetadata.aggregate`: how many workers completed each job. -/
def aggregate (reports : List (List JobId)) : OrdDict JobId ℕ :=
  reports.flatten.foldl (fun d job => d.insert job ((d.get? job).getD 0 + 1)) .empty

/-- The completions of a list of reports, one by one. -/
def reportedJobs (reports : List (ℕ × List JobId)) : List (ℕ × JobId) :=
  reports.flatMap fun r => r.2.map fun job => (r.1, job)

/-- The detached stores that an operation registered. -/
def newStores {κ σ : Type} (c c' : TokenCakeOffloadingScheduler κ σ) :
    List (JobId × List BlockId) :=
  (c'.detached.entries.filter fun e => decide (c.jobCounter ≤ e.1)).map
    fun e => (e.1, e.2.sourceIds)

namespace Fleet

variable {κ σ ρ : Type} [DecidableEq κ]

/-- An operation of the connector alone. -/
def connect (s : Fleet κ σ) (result : Except ConnectorError (TokenCakeOffloadingScheduler κ σ))
    (observe : TokenCakeOffloadingScheduler κ σ → Observation) :
    Except FleetError (Fleet κ σ × Observation) :=
  match result with
  | .error e => .error (.connector e)
  | .ok c => .ok ({ s with scheduler := c }, observe c)

def step (s : Fleet κ σ) : FleetOp κ σ ρ → Except FleetError (Fleet κ σ × Observation)
  | .lifecycle op => s.connect (s.scheduler.run op) fun _ => .silent
  | .evaluate selections => s.connect (s.scheduler.evaluatePending selections)
      fun c => .registered (newStores s.scheduler c)
  | .schedule call => do
      let result ← call.perform s.scheduler
      let message : StepMessage := ⟨s.steps, result.metadata, result.newBlocks⟩
      return ({ scheduler := result.connector
                workers := s.workers.map fun w => { w with inbox := w.inbox ++ [message] }
                steps := s.steps + 1 },
        .step (newStores s.scheduler result.connector) result.totalNumScheduledTokens
          result.allocated message)
  | .requestFinished reqId => s.connect (s.scheduler.requestFinished reqId) fun _ => .silent
  | .update now retainedAt reporters =>
      match takeReports s.workers reporters with
      | none => .error .disabled
      | some (workers, reports) =>
          { s with workers := workers }.connect
            (s.scheduler.updateConnectorOutput now retainedAt
              (aggregate (reports.map Prod.snd)).entries)
            fun _ => .reported (reportedJobs reports)
  | .reset now => s.connect (s.scheduler.resetCache now) fun _ => .reset
  | .work w =>
      match s.workers[w]? with
      | none => .error .disabled
      | some worker =>
          match worker.inbox with
          | [] => .error .disabled
          | m :: inbox =>
              let (worker, waited) := { worker with inbox := inbox }.execute m
              .ok ({ s with workers := s.workers.set w worker }, .executed w m waited)
  | .transferred w job =>
      match s.workers[w]? with
      | none => .error .disabled
      | some worker =>
          if job ∈ worker.inFlight then
            .ok ({ s with workers := s.workers.set w (worker.transferred job) },
              .transferred w job)
          else .error .disabled

/-- One operation of the system, whichever it is. -/
def Next (s : Fleet κ σ) (o : Observation) (s' : Fleet κ σ) : Prop :=
  ∃ (ρ : Type) (op : FleetOp κ σ ρ), s.step op = .ok (s', o)

def initial (config : SchedulerOffloadConfig) (offload : OffloadState κ σ) : Fleet κ σ where
  scheduler := { config := config, offload := offload }
  workers := List.replicate config.numWorkers {}

/-- Perform the operations of a list one after the other; `none` if one fails. -/
def execute (s : Fleet κ σ) : List (FleetOp κ σ ρ) → Option (List Observation × Fleet κ σ)
  | [] => some ([], s)
  | op :: ops =>
      match s.step op with
      | .error _ => none
      | .ok (s', o) => (s'.execute ops).map fun (os, s'') => (o :: os, s'')

theorem run_of_execute {s s' : Fleet κ σ} {ops : List (FleetOp κ σ ρ)}
    {observed : List Observation} (h : s.execute ops = some (observed, s')) :
    Run Next s observed s' := by
  induction ops generalizing s observed with
  | nil =>
      obtain ⟨rfl, rfl⟩ := Prod.mk.inj (Option.some.inj h)
      exact .nil s
  | cons op ops ih =>
      simp only [execute] at h
      split at h
      · cases h
      · rename_i s₁ o hstep
        obtain ⟨⟨os, s''⟩, hrest, heq⟩ := Option.map_eq_some_iff.mp h
        obtain ⟨rfl, rfl⟩ := Prod.mk.inj heq
        exact .cons ⟨ρ, op, hstep⟩ (ih hrest)

end Fleet

end TokenCake.Offload
