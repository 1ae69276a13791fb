import Mathlib.Data.Rat.Init
import Mathlib.Data.String.Basic
import TokenCake.Lib.OrdDict

/-! # Requests and request queues

The fields of a request that the scheduler reads and writes, the stop condition of its
output, and the two request queues. A queue holds request identifiers; the requests
themselves live in the table of the scheduler. -/

namespace TokenCake.Sched

/-! ## Requests -/

inductive RequestStatus where
  | waiting
  | waitingForStructuredOutputGrammar
  | waitingForRemoteKvs
  | waitingForStreamingReq
  | running
  | preempted
  | finishedStopped
  | finishedLengthCapped
  | finishedAborted
  | finishedIgnored
  | finishedError
  | finishedRepetition
  deriving DecidableEq, Repr

namespace RequestStatus

/-- Every status after `preempted` is a finished one. -/
def isFinished : RequestStatus → Bool
  | finishedStopped | finishedLengthCapped | finishedAborted | finishedIgnored
  | finishedError | finishedRepetition => true
  | _ => false

def isBlockedWaiting : RequestStatus → Bool
  | waitingForStructuredOutputGrammar | waitingForRemoteKvs | waitingForStreamingReq => true
  | _ => false

end RequestStatus

structure RepetitionDetectionParams where
  maxPatternSize : ℕ
  minPatternSize : ℕ
  minCount : ℕ
  deriving DecidableEq, Repr

structure SamplingParams where
  minTokens : ℕ := 0
  eosTokenId : Option ℕ := none
  stopTokenIds : List ℕ := []
  repetitionDetection : Option RepetitionDetectionParams := none
  deriving DecidableEq, Repr

/-- The next input chunk of a streaming session. -/
structure StreamingUpdate where
  promptTokenIds : List ℕ
  arrivalTime : ℚ
  samplingParams : SamplingParams
  deriving DecidableEq, Repr

structure Request where
  requestId : String
  priority : ℤ := 0
  arrivalTime : ℚ := 0
  status : RequestStatus := .waiting
  promptTokenIds : List ℕ
  /-- Prompt and output tokens; a session may truncate them independently of the prompt. -/
  allTokenIds : List ℕ := promptTokenIds
  outputTokenIds : List ℕ := []
  specTokenIds : List ℕ := []
  maxTokens : ℕ
  samplingParams : SamplingParams := {}
  pooling : Bool := false
  numComputedTokens : ℤ := 0
  numOutputPlaceholders : ℤ := 0
  asyncTokensToDiscard : ℤ := 0
  numPreemptions : ℕ := 0
  hasEncoderInputs : Bool := false
  loraIntId : Option ℕ := none
  resumable : Bool := false
  /-- Queued updates of a streaming session; `none` in the list is the end of the session. -/
  streamingQueue : Option (List (Option StreamingUpdate)) := none
  deriving DecidableEq, Repr

namespace Request

def numPromptTokens (r : Request) : ℤ := r.promptTokenIds.length

def numOutputTokens (r : Request) : ℤ := r.outputTokenIds.length

def numTokens (r : Request) : ℤ := r.allTokenIds.length

def numTokensWithSpec (r : Request) : ℤ := r.numTokens + r.specTokenIds.length

def isFinished (r : Request) : Bool := r.status.isFinished

/-- `Request.__lt__`: priority, then arrival time, then identifier. -/
def lt (a b : Request) : Bool :=
  if a.priority ≠ b.priority then decide (a.priority < b.priority)
  else if a.arrivalTime ≠ b.arrivalTime then decide (a.arrivalTime < b.arrivalTime)
  else decide (a.requestId < b.requestId)

end Request

/-! ## Stop conditions -/

/-- The last `patternLen` tokens repeat `minCount` times at the end. -/
def hasRepeatingPattern (tokenIds : List ℕ) (patternLen minCount : ℕ) : Bool :=
  let tail := tokenIds.reverse
  (List.range patternLen).all fun n =>
    (List.range (minCount - 1)).all fun m =>
      decide (tail[patternLen * (m + 1) + n]? = tail[n]?)

def checkSequenceRepetition (tokenIds : List ℕ) (params : RepetitionDetectionParams) : Bool :=
  let minPatternSize := max 1 params.minPatternSize
  if params.maxPatternSize = 0 ∨ params.minCount < 2 ∨ params.maxPatternSize < minPatternSize
  then false
  else
    -- The source stops at the first pattern that no longer fits; longer ones do not fit either.
    (List.range (params.maxPatternSize + 1 - minPatternSize)).any fun i =>
      decide ((minPatternSize + i) * params.minCount ≤ tokenIds.length) &&
        hasRepeatingPattern tokenIds (minPatternSize + i) params.minCount

/-- The status `check_stop` assigns, or `none` when the request goes on. -/
def checkStop (r : Request) (maxModelLen : ℤ) : Option RequestStatus :=
  let params := r.samplingParams
  if r.numOutputTokens < params.minTokens then none
  else if r.outputTokenIds.getLast?.any fun last => decide (some last = params.eosTokenId) then
    some .finishedStopped
  else if r.outputTokenIds.getLast?.any fun last => decide (last ∈ params.stopTokenIds) then
    some .finishedStopped
  else if maxModelLen ≤ r.numTokens ∨ (r.maxTokens : ℤ) ≤ r.numOutputTokens then
    some .finishedLengthCapped
  else
    match params.repetitionDetection with
    | none => none
    | some detection =>
        if checkSequenceRepetition r.outputTokenIds detection then some .finishedRepetition
        else none

/-- Append the new tokens up to the first one that stops the request. -/
def updateRequestWithOutput (maxModelLen : ℤ) : Request → List ℕ → Request × Bool
  | r, [] => (r, false)
  | r, token :: tokens =>
      let r := { r with
        outputTokenIds := r.outputTokenIds ++ [token]
        allTokenIds := r.allTokenIds ++ [token] }
      match checkStop r maxModelLen with
      | some status => ({ r with status := status }, true)
      | none => updateRequestWithOutput maxModelLen r tokens

/-- Continue a session with its next update: only the computed output tokens are kept. -/
def updateRequestAsSession (session : Request) (update : StreamingUpdate) : Request :=
  let computed := session.allTokenIds.take session.numComputedTokens.toNat
  let keptOutputTokens := computed.drop session.promptTokenIds.length
  { session with
    promptTokenIds := session.promptTokenIds ++ keptOutputTokens ++ update.promptTokenIds
    allTokenIds := computed ++ update.promptTokenIds
    outputTokenIds := []
    arrivalTime := update.arrivalTime
    samplingParams := update.samplingParams
    status := .waiting }

/-! ## Queues -/

inductive SchedulingPolicy where
  | fcfs
  | priority
  deriving DecidableEq, Repr

/-- Identifiers in the order in which the queue hands them out. A heap is represented by its
sorted content, which is all that its operations reveal. -/
abbrev RequestQueue := List String

namespace RequestQueue

variable (policy : SchedulingPolicy) (before : String → String → Bool)

/-- Insertion into a heap: before the first request that does not precede it. -/
def push (id : String) : RequestQueue → RequestQueue
  | [] => [id]
  | other :: rest => if before id other then id :: other :: rest else other :: push id rest

def addRequest (queue : RequestQueue) (id : String) : RequestQueue :=
  match policy with
  | .fcfs => queue ++ [id]
  | .priority => push before id queue

def prependRequest (queue : RequestQueue) (id : String) : RequestQueue :=
  match policy with
  | .fcfs => id :: queue
  | .priority => push before id queue

/-- The requests of another queue, prepended one by one. -/
def prependRequests (queue requests : RequestQueue) : RequestQueue :=
  requests.foldl (prependRequest policy before) queue

def removeRequests (queue : RequestQueue) (ids : List String) : RequestQueue :=
  queue.filter (· ∉ ids)

end RequestQueue

end TokenCake.Sched
