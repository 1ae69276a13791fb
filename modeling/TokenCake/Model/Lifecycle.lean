import TokenCake.Model.CPUManager
import Mathlib.Order.WithBot

/-! # The lifecycle registry

`LifecycleRegistry` follows every annotated generation from its association over its stall
to its tombstone, and owns the CPU references that preserve its prefix. Clock readings are
explicit rational arguments, one for each call of the clock in the source. -/

namespace TokenCake.Offload

/-! ## Records and events -/

structure TokenCakeMetadata where
  lifecycleId : String
  agentType : String := ""
  agentName : String := ""
  deriving DecidableEq, Repr

inductive EventName where
  | stallStarted
  | stallFinished
  deriving DecidableEq, Repr

structure LifecycleEvent where
  event : EventName
  lifecycleId : String
  kind : String := "stall"
  estimatedDurationS : Option ℚ := none
  deriving DecidableEq, Repr

inductive Disposition where
  | applied
  | duplicate
  | lateFinish
  | unknown
  | conflict
  deriving DecidableEq, Repr

inductive GenerationCause where
  | completed
  | aborted
  | error
  deriving DecidableEq, Repr

inductive TerminalCause where
  | completed
  | finished
  | aborted
  | error
  | expired
  | reset
  deriving DecidableEq, Repr

def GenerationCause.toTerminal : GenerationCause → TerminalCause
  | completed => .completed
  | aborted => .aborted
  | error => .error

inductive RecordState where
  | terminal (cause : TerminalCause)
  | released
  | active
  | generating
  | awaitingStart
  | unknown
  deriving DecidableEq, Repr

structure LifecycleEventResult where
  lifecycleId : String
  event : EventName
  state : RecordState
  disposition : Disposition
  statusCode : ℕ := 200
  deriving DecidableEq, Repr

/-- One lifecycle. `σ` is the type of prefix snapshots, which the registry only stores and
clears. -/
structure Lifecycle (κ σ : Type*) where
  metadata : TokenCakeMetadata
  completedAt : Option ℚ := none
  snapshot : Option σ := none
  start : Option LifecycleEvent := none
  startedAt : Option ℚ := none
  predictedDuration : ℚ := 0
  safetyDeadline : WithTop ℚ := ⊤
  releaseDeadline : WithTop ℚ := ⊤
  ownershipReleased : Bool := false
  retained : List κ := []
  pendingRetention : List κ := []
  pendingEvaluation : Bool := false
  nextEvaluationStep : ℕ := 0
  backoffSignature : Option (List ℕ) := none
  lastStoreStep : ℤ := -5
  terminalCause : Option TerminalCause := none
  terminalAt : Option ℚ := none
  finishAccepted : Bool := false
  anonymousSample : Option ℚ := none

namespace Lifecycle

variable {κ σ : Type*}

def state (record : Lifecycle κ σ) : RecordState :=
  match record.terminalCause with
  | some cause => .terminal cause
  | none =>
      if record.start.isSome then if record.ownershipReleased then .released else .active
      else if record.completedAt.isNone then .generating else .awaitingStart

def ownsPreservation (record : Lifecycle κ σ) : Bool :=
  record.start.isSome && record.terminalAt.isNone && !record.ownershipReleased

end Lifecycle

/-! ## The registry -/

/-- The settings of `OffloadConfig` that the registry reads. -/
structure OffloadConfig where
  enabled : Bool
  defaultStallS : ℚ
  releaseLeadS : ℚ
  ewmaAlpha : ℚ

inductive HistoryScope where
  | type
  | name
  deriving DecidableEq, Repr

/-- Durations are remembered for each agent type (or name) and kind of stall. -/
structure HistoryKey where
  scope : HistoryScope
  agent : String
  kind : String
  deriving DecidableEq, Repr

def attachSeconds : ℚ := 60

def tombstoneSeconds : ℚ := 60

def historyLimit : ℕ := 4096

structure LifecycleRegistry (κ σ : Type*) where
  settings : OffloadConfig
  manager : Option (CPUOffloadingManager κ)
  records : OrdDict String (Lifecycle κ σ)
  generations : OrdDict String String
  history : OrdDict HistoryKey ℚ

inductive AssociateOutcome where
  | associated
  | duplicateLifecycleError
  deriving DecidableEq, Repr

namespace LifecycleRegistry

variable {κ σ : Type*} [DecidableEq κ]

def new (settings : OffloadConfig) (manager : Option (CPUOffloadingManager κ)) :
    LifecycleRegistry κ σ := ⟨settings, manager, .empty, .empty, .empty⟩

/-- Assignment to fields of the record under `identifier`. -/
def modifyRecord (r : LifecycleRegistry κ σ) (identifier : String)
    (f : Lifecycle κ σ → Lifecycle κ σ) : LifecycleRegistry κ σ :=
  { r with records := r.records.modify identifier f }

/-! ### Releasing and terminating -/

/-- The fields that `release` assigns. -/
def clearOwnership (record : Lifecycle κ σ) : Lifecycle κ σ :=
  { record with retained := [], pendingRetention := [], ownershipReleased := true }

def releaseKeys (r : LifecycleRegistry κ σ) (keys : List κ) :
    Except AssertionFailure (LifecycleRegistry κ σ) :=
  if keys.isEmpty then .ok r
  else
    match r.manager with
    | none => .error .managerMissing
    | some m => (m.release keys).map fun m' => { r with manager := some m' }

def release (r : LifecycleRegistry κ σ) (identifier : String) :
    Except AssertionFailure (LifecycleRegistry κ σ) :=
  match r.records.get? identifier with
  | none => .ok r
  | some record => (r.modifyRecord identifier clearOwnership).releaseKeys record.retained

/-- The fields that `_terminalize` assigns after releasing the record. -/
def markTerminal (cause : TerminalCause) (now : ℚ) (record : Lifecycle κ σ) : Lifecycle κ σ :=
  { record with
    snapshot := none
    pendingEvaluation := false
    nextEvaluationStep := 0
    backoffSignature := none
    terminalCause := some cause
    terminalAt := some now }

def terminalize (r : LifecycleRegistry κ σ) (identifier : String) (cause : TerminalCause)
    (now : ℚ) : Except AssertionFailure (LifecycleRegistry κ σ) :=
  match r.records.get? identifier with
  | none => .ok r
  | some record =>
      if record.terminalAt.isSome then .ok r
      else (r.release identifier).map fun r' =>
        r'.modifyRecord identifier (markTerminal cause now)

/-- One record of the loop of `expire`. -/
def expireRecord (now : ℚ) (r : LifecycleRegistry κ σ) (entry : String × Lifecycle κ σ) :
    Except AssertionFailure (LifecycleRegistry κ σ) :=
  let (identifier, record) := entry
  match record.terminalAt, record.startedAt, record.completedAt with
  | some terminalAt, _, _ =>
      if terminalAt + tombstoneSeconds ≤ now then
        .ok { r with records := r.records.erase identifier }
      else .ok r
  | none, some _, _ =>
      if record.safetyDeadline ≤ now then r.terminalize identifier .expired now
      else if record.releaseDeadline ≤ now then r.release identifier
      else .ok r
  | none, none, some completedAt =>
      if completedAt + attachSeconds ≤ now then r.terminalize identifier .expired now
      else .ok r
  | none, none, none => .ok r

def expire (r : LifecycleRegistry κ σ) (now : ℚ) :
    Except AssertionFailure (LifecycleRegistry κ σ) :=
  r.records.entries.foldlM (expireRecord now) r

/-! ### Generations -/

def associate (r : LifecycleRegistry κ σ) (now : ℚ) (requestId : String)
    (metadata : TokenCakeMetadata) :
    Except AssertionFailure (LifecycleRegistry κ σ × AssociateOutcome) := do
  let r ← r.expire now
  let identifier := metadata.lifecycleId
  if r.records.contains identifier || r.generations.contains identifier then
    return (r, .duplicateLifecycleError)
  else
    return ({ r with
      generations := r.generations.insert identifier requestId
      records := r.records.insert identifier { metadata := metadata } }, .associated)

/-- `expiredAt` and `now` are the two clock readings of the call. -/
def generationFinished (r : LifecycleRegistry κ σ) (expiredAt now : ℚ) (identifier : String)
    (cause : GenerationCause) (snapshot : Option σ) :
    Except AssertionFailure (LifecycleRegistry κ σ) := do
  let r ← r.expire expiredAt
  let r := { r with generations := r.generations.erase identifier }
  match r.records.get? identifier with
  | none => return r
  | some record =>
      if record.terminalAt.isSome then return r
      else if cause ≠ .completed || !r.settings.enabled then
        r.terminalize identifier cause.toTerminal now
      else
        return r.modifyRecord identifier fun record =>
          { record with
            completedAt := some now
            snapshot := snapshot
            pendingEvaluation := record.start.isSome }

/-! ### Stall events -/

def historyKey (record : Lifecycle κ σ) (kind : String) : Option HistoryKey :=
  if record.metadata.agentType ≠ "" then some ⟨.type, record.metadata.agentType, kind⟩
  else if record.metadata.agentName ≠ "" then some ⟨.name, record.metadata.agentName, kind⟩
  else none

/-- The predicted duration of a stall; a remembered duration is refreshed. -/
def predict (r : LifecycleRegistry κ σ) (record : Lifecycle κ σ) (event : LifecycleEvent) :
    ℚ × LifecycleRegistry κ σ :=
  let key := historyKey record event.kind
  let remembered := key.bind r.history.get?
  let r' := match key with
    | some key => { r with history := r.history.moveToEnd key }
    | none => r
  let predicted := match event.estimatedDurationS, remembered with
    | none, none => r.settings.defaultStallS
    | none, some duration => duration
    | some estimate, none => estimate
    | some estimate, some duration => 1 / 2 * (estimate + duration)
  (predicted, r')

/-- Remember a sample under `key`, averaging it with what was known. -/
def learnUnder (r : LifecycleRegistry κ σ) (key : HistoryKey) (sample : ℚ) :
    LifecycleRegistry κ σ :=
  match r.history.get? key with
  | some previous =>
      let alpha := r.settings.ewmaAlpha
      { r with history :=
        (r.history.erase key).insert key (alpha * sample + (1 - alpha) * previous) }
  | none =>
      let history := if historyLimit ≤ r.history.size then r.history.popFirst else r.history
      { r with history := history.insert key sample }

def learn (r : LifecycleRegistry κ σ) (identifier : String) (record : Lifecycle κ σ)
    (now : ℚ) : Except AssertionFailure (LifecycleRegistry κ σ) :=
  match record.start, record.startedAt with
  | some start, some startedAt =>
      let sample := max 0 (now - startedAt)
      match historyKey record start.kind with
      | none => .ok (r.modifyRecord identifier fun record =>
          { record with anonymousSample := some sample })
      | some key => .ok (r.learnUnder key sample)
  | _, _ => .error .notStarted

def setH2dEstimate (r : LifecycleRegistry κ σ) (identifier : String) (seconds now : ℚ) :
    Except AssertionFailure (LifecycleRegistry κ σ) :=
  match r.records.get? identifier with
  | none => .ok r
  | some record =>
      match record.startedAt with
      | none => .error .notStarted
      | some startedAt =>
          let deadline := startedAt + record.predictedDuration
            - max r.settings.releaseLeadS (5 / 4 * seconds)
          let r := r.modifyRecord identifier fun record =>
            { record with releaseDeadline := (deadline : ℚ) }
          if deadline ≤ now then r.release identifier else .ok r

def safetyDeadlineOf (now predicted : ℚ) : ℚ := now + min 3600 (max 60 (4 * predicted))

/-- The branch of `apply` for a stall that starts; `now'` is the reading of the clock
inside `set_h2d_estimate`. -/
def startStall (r : LifecycleRegistry κ σ) (record : Lifecycle κ σ) (event : LifecycleEvent)
    (now now' : ℚ) : Except AssertionFailure (LifecycleRegistry κ σ) :=
  let identifier := event.lifecycleId
  let (predicted, r) := r.predict record event
  let r := r.modifyRecord identifier fun record =>
    { record with
      start := some event
      startedAt := some now
      predictedDuration := predicted
      safetyDeadline := (safetyDeadlineOf now predicted : ℚ) }
  (r.setH2dEstimate identifier 0 now').map fun r =>
    r.modifyRecord identifier fun record =>
      { record with pendingEvaluation := record.completedAt.isSome }

/-- The branch of `apply` for a stall that finishes. -/
def finishStall (r : LifecycleRegistry κ σ) (record : Lifecycle κ σ) (identifier : String)
    (now : ℚ) : Except AssertionFailure (LifecycleRegistry κ σ) := do
  let r ← r.learn identifier record now
  (r.modifyRecord identifier fun record => { record with finishAccepted := true }).terminalize
    identifier .finished now

/-- What `apply` answers about the record it finds, before doing it. -/
def judge (record : Lifecycle κ σ) (event : LifecycleEvent) : Disposition × ℕ :=
  match event.event with
  | .stallStarted =>
      if record.start = some event then (.duplicate, 200)
      else if record.start.isSome || record.terminalAt.isSome then (.conflict, 409)
      else (.applied, 200)
  | .stallFinished =>
      if record.terminalAt.isSome then
        (if record.finishAccepted then .duplicate else .lateFinish, 200)
      else if record.start.isNone then (.conflict, 409)
      else (.applied, 200)

/-- What `apply` does to the registry when the event is applied. -/
def perform (r : LifecycleRegistry κ σ) (record : Lifecycle κ σ) (event : LifecycleEvent)
    (now now' : ℚ) : Except AssertionFailure (LifecycleRegistry κ σ) :=
  match event.event with
  | .stallStarted => r.startStall record event now now'
  | .stallFinished => r.finishStall record event.lifecycleId now

/-- `expiredAt`, `now` and `now'` are the clock readings of the call, in order. -/
def apply (r : LifecycleRegistry κ σ) (expiredAt now now' : ℚ) (event : LifecycleEvent) :
    Except AssertionFailure (LifecycleRegistry κ σ × LifecycleEventResult) := do
  let r ← r.expire expiredAt
  match r.records.get? event.lifecycleId with
  | none => return (r, ⟨event.lifecycleId, event.event, .unknown, .unknown, 404⟩)
  | some record =>
      let (disposition, status) := judge record event
      if disposition = .applied then
        let r ← r.perform record event now now'
        let state := ((r.records.get? event.lifecycleId).map Lifecycle.state).getD .unknown
        return (r, ⟨event.lifecycleId, event.event, state, disposition, status⟩)
      else return (r, ⟨event.lifecycleId, event.event, record.state, disposition, status⟩)

/-! ### Retention and reset -/

def retainReady (r : LifecycleRegistry κ σ) (now : ℚ) (identifier : String) (keys : List κ) :
    Except AssertionFailure (List κ × LifecycleRegistry κ σ) := do
  let r ← r.expire now
  match r.records.get? identifier with
  | none => return ([], r)
  | some record =>
      if record.ownsPreservation then
        match r.manager with
        | none => .error .managerMissing
        | some m =>
            let (retained, m') := m.retain (keys.filter (· ∉ record.retained))
            return (retained, { r with manager := some m' }.modifyRecord identifier
              fun record => { record with retained := record.retained ++ retained })
      else return ([], r)

def invalidateSnapshots (r : LifecycleRegistry κ σ) : LifecycleRegistry κ σ :=
  { r with records := r.records.mapValues fun _ record =>
      { record with snapshot := none, pendingEvaluation := false } }

/-- One record of the loop of `external_reset_succeeded`: the native reset already removed
the retained entries regardless of their reference counts. -/
def resetRecord (now : ℚ) (r : LifecycleRegistry κ σ) (identifier : String) :
    Except AssertionFailure (LifecycleRegistry κ σ) :=
  (r.modifyRecord identifier fun record => { record with retained := [] }).terminalize
    identifier .reset now

def externalResetSucceeded (r : LifecycleRegistry κ σ) (now : ℚ) :
    Except AssertionFailure (LifecycleRegistry κ σ) :=
  r.records.keys.foldlM (resetRecord now) r

def hasPendingEvaluation (r : LifecycleRegistry κ σ) : Bool :=
  r.records.values.any Lifecycle.pendingEvaluation

end LifecycleRegistry

end TokenCake.Offload
