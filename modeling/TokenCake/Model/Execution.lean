import Mathlib
import TokenCake.Lib.OrdDict

/-! # Executed and recomputed tokens

`SchedulingController.executed` keeps the ranges of positions that each annotated request has
executed, and counts the tokens of a step that are in them already. -/

namespace TokenCake.Execution

/-- What `executed` reads of a scheduler output. -/
structure SchedulerOutput where
  newReqIds : List String := []
  newNumComputedTokens : List ℕ := []
  cachedReqIds : List String := []
  cachedNumComputedTokens : List ℕ := []
  numScheduledTokens : OrdDict String ℕ

/-- What `executed` reads of the output of the model. -/
structure ModelRunnerOutput where
  reqIdToIndex : OrdDict String ℕ

inductive Metric
  | executedTokens
  | recomputedTokens
  deriving DecidableEq, Repr

/-- A call of `metrics.count`, with the request that it is made for. -/
structure Count where
  requestId : String
  metric : Metric
  value : ℕ
  deriving DecidableEq, Repr

/-- The part of the controller that `executed` uses: the annotated requests, the ranges of each
request, and the counts so far. -/
structure ExecutionState where
  metadata : List String := []
  executedRanges : OrdDict String (List (ℕ × ℕ)) := .empty
  counts : List Count := []

/-- The first positions of the scheduled tokens. -/
def SchedulerOutput.starts (output : SchedulerOutput) : OrdDict String ℕ :=
  (output.newReqIds.zip output.newNumComputedTokens).foldl (fun starts e => starts.insert e.1 e.2)
    (.ofList (output.cachedReqIds.zip output.cachedNumComputedTokens))

/-- The tokens from `start` to `stop` that lie in the ranges. -/
def repeatedTokens (ranges : List (ℕ × ℕ)) (start stop : ℕ) : ℕ :=
  (ranges.map fun (a, b) => min stop b - max start a).sum

/-- The body of the merge loop. -/
def mergeRange (merged : List (ℕ × ℕ)) (range : ℕ × ℕ) : List (ℕ × ℕ) :=
  match merged.getLast? with
  | some last =>
      if range.1 ≤ last.2 then merged.dropLast ++ [(last.1, max last.2 range.2)]
      else merged ++ [range]
  | none => merged ++ [range]

/-- The merge loop over the sorted ranges; pairs compare by their starts first. -/
def mergeRanges (ranges : List (ℕ × ℕ)) : List (ℕ × ℕ) :=
  (ranges.insertionSort (Order.Preimage toLex (· ≤ ·))).foldl mergeRange []

namespace ExecutionState

variable (s : ExecutionState)

def ranges (requestId : String) : List (ℕ × ℕ) := (s.executedRanges.get? requestId).getD []

/-- The body of the loop for a request of the result. -/
def executedRequest (requestId : String) (start count : ℕ) : ExecutionState :=
  let stop := start + count
  let ranges := s.ranges requestId
  let repeated := repeatedTokens ranges start stop
  { s with
    executedRanges := s.executedRanges.insert requestId (mergeRanges (ranges ++ [(start, stop)]))
    counts := s.counts ++ [⟨requestId, .executedTokens, count⟩,
      ⟨requestId, .recomputedTokens, repeated⟩] }

/-- The requests that the loop does not skip. -/
def Observes (result : ModelRunnerOutput) (failedLoads : List String) (requestId : String) : Prop :=
  requestId ∈ s.metadata ∧ requestId ∉ failedLoads ∧ requestId ∈ result.reqIdToIndex.keys

instance (result : ModelRunnerOutput) (failedLoads : List String) (requestId : String) :
    Decidable (s.Observes result failedLoads requestId) :=
  inferInstanceAs (Decidable (_ ∧ _ ∧ _))

/-- `executed`. There is no state after it if a scheduled request is not in the output. -/
def executed (output : SchedulerOutput) (result : ModelRunnerOutput) (failedLoads : List String) :
    Option ExecutionState :=
  output.numScheduledTokens.entries.foldlM (fun s (requestId, count) =>
    if s.Observes result failedLoads requestId then
      (output.starts.get? requestId).map fun start => s.executedRequest requestId start count
    else some s) s

/-- `associate`. -/
def associate (requestId : String) : ExecutionState :=
  { s with metadata := s.metadata.insert requestId }

/-- `finish`. -/
def finish (requestId : String) : ExecutionState :=
  { s with
    metadata := s.metadata.filter (· ≠ requestId)
    executedRanges := s.executedRanges.erase requestId }

/-- The total that the calls for a request have added to a metric. -/
def total (requestId : String) (metric : Metric) : ℕ :=
  ((s.counts.filter fun c => c.requestId = requestId ∧ c.metric = metric).map (·.value)).sum

end ExecutionState

/-- A call of the controller. -/
inductive ExecutionAction
  | associate (requestId : String)
  | finish (requestId : String)
  | executed (output : SchedulerOutput) (result : ModelRunnerOutput) (failedLoads : List String)

namespace ExecutionAction

/-- The controller after a call. -/
def perform (s : ExecutionState) : ExecutionAction → Option ExecutionState
  | .associate requestId => some (s.associate requestId)
  | .finish requestId => some (s.finish requestId)
  | .executed output result failedLoads => s.executed output result failedLoads

/-- A call executes tokens of a request from a position to another. -/
def Executes (requestId : String) (start stop : ℕ) : ExecutionAction → Prop
  | .executed output result failedLoads =>
      requestId ∉ failedLoads ∧ requestId ∈ result.reqIdToIndex.keys ∧
        output.starts.get? requestId = some start ∧
        ∃ count, output.numScheduledTokens.get? requestId = some count ∧ stop = start + count
  | _ => False

/-- The scheduler schedules tokens of every request of its output. -/
def Positive : ExecutionAction → Prop
  | .executed output _ _ => ∀ e ∈ output.numScheduledTokens.entries, 0 < e.2
  | _ => True

end ExecutionAction

end TokenCake.Execution
