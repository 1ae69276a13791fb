import TokenCake.Verification.Control.Consistent
import TokenCake.Verification.Control.Planning

/-! # Calls of the scheduler

The scheduler calls the cache manager and the controller together. Between the calls of a step with
annotated work stand native calls of the manager, which the controller does not see. -/

namespace TokenCake.Control

open Capacity KV KVCacheManager

variable {η β : Type} [DecidableEq η] {hash : η → β → η} {base : η}

/-- The cache manager, the lists of hits that it has reported, and the controller. -/
structure ControlState (η : Type) extends CacheState η where
  controller : SchedulingController

/-- `grow` stands for the loop over the running requests from `can_grow` to the first
`allocate_slots`, with `commit`, and `retry` for each further `allocate_slots` after a preemption,
which does not ask `can_grow` again. `admitWaiting` is the part of the loop over the waiting
requests from `can_allocate` to `commit`. `preempt` and `freeBlocks` are `_preempt_request` and
`_free_blocks`. -/
inductive ControlCall (η : Type)
  | getComputedBlocks (request : Request η)
  | associate (requestId : String) (metadata : AgentMetadata)
  | beginStep (inputs : StepInputs) (waiting running : List (GrowthRequest η))
  | prepareRunning (request : GrowthRequest η)
  | grow (request : GrowthRequest η) (numNewTokens numLookaheadTokens : ℕ)
  | retry (request : GrowthRequest η) (numNewTokens numLookaheadTokens : ℕ)
  | admitWaiting (request : GrowthRequest η) (args : SlotArgs) (borrowReserved : Bool)
  | reclaimFor (requestId : String)
  | preempt (request : Request η) (physical : Bool)
  | finish (requestId : String)
  | freeBlocks (request : Request η)
  | native (op : CacheOp η)

/-- The arguments of `allocate_slots` for a running request. -/
def runningArgs (m : KVCacheManager η) (numNewTokens numLookaheadTokens : ℕ) : SlotArgs where
  numNewTokens := numNewTokens
  newComputedBlocks := m.singleTypeManagers.map fun _ => []
  numLookaheadTokens := numLookaheadTokens

namespace ControlState

/-- `allocate_slots`, and `commit` of what it returns. -/
def allocate (s : ControlState η) (request : GrowthRequest η) (args : SlotArgs)
    (running borrowReserved : Bool) : Except ControllerError (ControlState η) := do
  let (manager, newBlocks) ← (s.manager.allocateSlots request.toRequest args).mapError .cache
  match newBlocks with
  | none => return { s with manager := manager }
  | some blocks =>
      let controller ← s.controller.commit manager request
        (if running then some blocks else none) borrowReserved
      return { s with manager := manager, controller := controller }

def step (s : ControlState η) : ControlCall η → Except ControllerError (ControlState η)
  | .getComputedBlocks request => do
      let (blocks, _) ← (s.manager.getComputedBlocks request).mapError .cache
      return { s with reported := blocks :: s.reported }
  | .associate requestId metadata =>
      .ok { s with controller := s.controller.associate requestId metadata }
  | .beginStep inputs waiting running => do
      let (controller, _) ← s.controller.beginStep s.manager inputs waiting running
      return { s with controller := controller }
  | .prepareRunning request =>
      let (manager, controller) := s.controller.prepareRunning s.manager request
      .ok { s with manager := manager, controller := controller }
  | .grow request numNewTokens numLookaheadTokens => do
      if ← s.controller.canGrow s.manager request numNewTokens then
        s.allocate request (runningArgs s.manager numNewTokens numLookaheadTokens) true false
      else return s
  | .retry request numNewTokens numLookaheadTokens =>
      s.allocate request (runningArgs s.manager numNewTokens numLookaheadTokens) true false
  | .admitWaiting request args borrowReserved => do
      let (allowed, manager, controller) ←
        (s.controller.canAllocate s.manager request args borrowReserved).mapError .cache
      let next := { s with manager := manager, controller := controller }
      if allowed then next.allocate request args false borrowReserved else return next
  | .reclaimFor requestId =>
      .ok { s with controller := s.controller.reclaimFor s.manager requestId }
  | .preempt request physical =>
      let manager := s.manager.free request
      .ok { s with
        manager := manager
        controller := s.controller.preempt manager request.requestId physical }
  | .finish requestId => .ok { s with controller := s.controller.finish requestId }
  | .freeBlocks request =>
      let manager := s.manager.free request
      .ok { s with manager := manager, controller := s.controller.release manager }
  | .native op => do
      let manager ← (s.manager.perform op).mapError .cache
      return { s with manager := manager }

/-- The state of a new scheduler. -/
def start (settings : SchedulingConfig) (m : KVCacheManager η) (numLookaheadTokens : ℕ) :
    ControlState η where
  manager := m
  controller := .new settings m numLookaheadTokens

/-- The calls of `allocate_slots` with their arguments are those of the scheduler. -/
structure Serves (hash : η → β → η) (base : η) (s : ControlState η) (request : Request η)
    (args : SlotArgs) : Prop where
  issued : s.toCacheState.Issued hash base (.perform (.allocateSlots request args))
  fits : s.manager.SlotsFit request args

/-- What the scheduler observes when it makes a call. A running request is committed, and the manager
allocates without the controller only while the accounts are not active. -/
def Admissible (hash : η → β → η) (base : η) (s : ControlState η) : ControlCall η → Prop
  | .getComputedBlocks request => Chained hash base request.blockHashes
  | .prepareRunning _ => s.controller.accountingActive = true
  | .grow request _ _ | .retry request _ _ => s.controller.accountingActive = true ∧
      request.requestId ∈ s.controller.growthCommitments.keys
  | .admitWaiting request args _ => s.controller.accountingActive = true ∧
      s.Serves hash base request.toRequest args ∧ s.manager.Ready request.toRequest args
  | .native (.allocateSlots request args) => s.controller.accountingActive = false ∧
      s.Serves hash base request args
  | _ => True

/-- A call that the scheduler makes, with the state it leads to. -/
def Next (hash : η → β → η) (base : η) (s : ControlState η) (call : ControlCall η)
    (t : ControlState η) : Prop :=
  s.Admissible hash base call ∧ s.step call = .ok t

/-- A step that makes the accounts active sees every request that holds blocks. It does not where
the blocks of a finished request are freed later: that request is in no queue. -/
def Adopts (s : ControlState η) : ControlCall η → Prop
  | .beginStep _ waiting running =>
      s.controller.accountingActive = false → s.controller.metadata.keys ≠ [] →
        ∀ g ∈ s.manager.singleTypeManagers, ∀ r, ∀ b ∈ g.table r, b ≠ nullBlock →
          ∃ request ∈ waiting ++ running, request.requestId = r
  | _ => True

/-- A call of a scheduler that loses sight of no request with blocks. -/
def NextSeen (hash : η → β → η) (base : η) (s : ControlState η) (call : ControlCall η)
    (t : ControlState η) : Prop :=
  Next hash base s call t ∧ s.Adopts call

end ControlState

end TokenCake.Control
