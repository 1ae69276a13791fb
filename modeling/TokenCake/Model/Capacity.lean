import Mathlib.Algebra.Order.Floor.Semiring
import Mathlib.Data.Prod.Lex
import Mathlib.Data.Rat.Floor
import Mathlib.Data.String.Basic
import TokenCake.Lib.OrdDict

/-! # Capacity of agent types

`SchedulingController._consumption` decides whose capacity a request uses, and
`partition_capacity` plans the reservations. Rationals stand in place of floats. -/

namespace TokenCake.Capacity

/-- What the capacity policy reads of the metadata of an annotated request. -/
structure TokenCakeMetadata where
  agentType : String
  deriving DecidableEq, Repr

structure CapacityPlan where
  critical : List String := []
  scores : OrdDict String ℚ := .empty
  reserved : OrdDict String ℕ := .empty
  shared : ℕ := 0

/-- The owner of capacity: an agent type with a reservation, or nobody for shared capacity. -/
abbrev Owner := Option String

/-- The part of the controller that `_consumption` reads. Every type with available capacity
has a score in the plan. -/
structure CapacityState where
  priorityBorrowScoreMargin : ℕ
  metadata : OrdDict String TokenCakeMetadata
  scores : OrdDict String ℤ
  plan : CapacityPlan
  waitingCritical : List String
  waitingScores : OrdDict String ℤ
  sharedAvailable : ℤ
  reservedAvailable : OrdDict String ℤ
  scored : ∀ k ∈ reservedAvailable.keys, k ∈ plan.scores.keys

namespace CapacityState

variable (c : CapacityState) (requestId : String) (borrowReserved : Bool)

def reservedFor (k : String) : ℤ := (c.reservedAvailable.get? k).getD 0

def planScore (k : String) : ℚ := (c.plan.scores.get? k).getD 0

/-- The order of the donors: `a` comes no later than `b` by `(available, score)`, greatest
first. -/
def donatesBefore (a b : String) : Bool :=
  decide (c.reservedFor b < c.reservedFor a) ||
    (decide (c.reservedFor b = c.reservedFor a) && decide (c.planScore b ≤ c.planScore a))

def donors (key : String) : List String :=
  (c.reservedAvailable.keys.filter (· ≠ key)).mergeSort c.donatesBefore

/-- The test that makes the loop skip a donor. -/
def withholds (owner : String) : Bool :=
  !borrowReserved && decide (owner ∈ c.waitingCritical) &&
    match c.waitingScores.get? owner, c.scores.get? requestId with
    | some ownerScore, some score =>
        decide (c.priorityBorrowScoreMargin = 0 ∨ score - ownerScore < c.priorityBorrowScoreMargin)
    | _, _ => true

/-- The loop over the donors. -/
def borrow : List String → List (Owner × ℤ) → ℤ → Option (List (Owner × ℤ))
  | [], usage, remaining => if remaining = 0 then some usage else none
  | owner :: donors, usage, remaining =>
      if c.withholds requestId borrowReserved owner then borrow donors usage remaining
      else
        let borrowed := min remaining (c.reservedFor owner)
        let usage := usage ++ [(some owner, borrowed)]
        let remaining := remaining - borrowed
        if remaining = 0 then some usage else borrow donors usage remaining

/-- `_consumption`. -/
def consumption (demand : ℕ) : Option (List (Owner × ℤ)) :=
  let shared := min (demand : ℤ) c.sharedAvailable
  let usage : List (Owner × ℤ) := [(none, shared)]
  let remaining := (demand : ℤ) - shared
  if remaining = 0 then some usage
  else
    match c.metadata.get? requestId with
    | none => none
    | some metadata =>
        let key := metadata.agentType
        if key ∈ c.plan.critical then
          let own := min remaining (c.reservedFor key)
          let usage := usage ++ [(some key, own)]
          let remaining := remaining - own
          if remaining = 0 then some usage
          else c.borrow requestId borrowReserved (c.donors key) usage remaining
        else c.borrow requestId borrowReserved (c.donors key) usage remaining

end CapacityState

/-- The loop of `begin_step` over the waiting requests that collects the best score of each
agent type. -/
def collectWaitingScores (metadata : OrdDict String TokenCakeMetadata) (scores : String → ℤ)
    (waiting : List String) : OrdDict String ℤ :=
  waiting.foldl (fun best requestId =>
    match metadata.get? requestId with
    | none => best
    | some m =>
        if m.agentType = "" then best
        else
          let score := scores requestId
          best.insert m.agentType (max ((best.get? m.agentType).getD score) score)) .empty

/-! ## The plan -/

section Partition

variable (scores importance : OrdDict String ℚ) (used : OrdDict String ℕ)

/-- The key that orders the agent types. -/
def typeKey (k : String) : ℚ ×ₗ ℚ ×ₗ String :=
  toLex ((scores.get? k).getD 0, toLex ((importance.get? k).getD 0, k))

/-- `ordered[:max(1, int(len(ordered) * critical_ratio))]`. -/
def criticalTypes (criticalRatio : ℚ) : List String :=
  let ordered := scores.keys.mergeSort fun a b =>
    decide (typeKey scores importance b ≤ typeKey scores importance a)
  ordered.take (max 1 ⌊ordered.length * criticalRatio⌋₊)

/-- The weight of a critical type: its share of the scores, or of the scores and the memory. -/
def typeWeight (scoreSum : ℚ) (k : String) : ℚ :=
  let usedSum := used.sum fun _ n => n
  let scoreShare := (scores.get? k).getD 0 / scoreSum
  let memoryShare : ℚ := if usedSum ≠ 0 then ((used.get? k).getD 0 : ℕ) / (usedSum : ℕ) else 0
  max (max scoreShare ((memoryShare + scoreShare) / 2)) (1 / 1000000)

/-- The shares of the critical types, rounded down, with a block more for the largest fractional
parts. -/
def roundShares (exact : OrdDict String ℚ) (reserved : ℕ) : OrdDict String ℕ :=
  let counts := exact.mapValues fun _ v => ⌊v⌋₊
  let remainder := reserved - counts.sum fun _ n => n
  let fraction (k : String) : ℚ ×ₗ String :=
    toLex ((exact.get? k).getD 0 - ((counts.get? k).getD 0 : ℕ), k)
  let extra := (exact.keys.mergeSort fun a b => decide (fraction b ≤ fraction a)).take remainder
  extra.foldl (fun counts k => counts.modify k (· + 1)) counts

/-- The exact shares of the critical types in `reserved` blocks. -/
def exactShares (critical : List String) (reserved : ℕ) : OrdDict String ℚ :=
  let scoreSum := (critical.map fun k => (scores.get? k).getD 0).sum
  let weights : OrdDict String ℚ := .ofList ((critical.mergeSort (· ≤ ·)).map fun k =>
    (k, typeWeight scores used scoreSum k))
  let weightSum := weights.sum fun _ w => w
  weights.mapValues fun _ w => reserved * w / weightSum

/-- `partition_capacity` for ratios that are not negative. A type without importance and a sum of
zero that divides raise. -/
def partitionCapacity (total : ℕ) (reserveRatio criticalRatio : ℚ) : Option CapacityPlan :=
  if ∃ k ∈ scores.keys, k ∉ importance.keys then none
  else
    let critical := criticalTypes scores importance criticalRatio
    let reserved := if critical ≠ [] then ⌊total * reserveRatio⌋₊ else 0
    let scoreSum := (critical.map fun k => (scores.get? k).getD 0).sum
    let weightSum := (critical.map (typeWeight scores used scoreSum)).sum
    if critical ≠ [] ∧ (scoreSum = 0 ∨ weightSum = 0) then none
    else some {
      critical := critical
      scores := scores
      reserved := roundShares (exactShares scores used critical reserved) reserved
      shared := total - reserved }

end Partition

end TokenCake.Capacity
