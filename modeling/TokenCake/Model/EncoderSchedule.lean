import TokenCake.Model.EncoderCache
import TokenCake.Model.Schedule

/-! # The encoder cache inside a scheduling step

`schedule` with the encoder cache among what stands behind its collaborators. The cache follows its
model; all other collaborators answer as they like. -/

namespace TokenCake.Sched

open Encoder

/-- What happens to the encoder references of a request in a step. -/
inductive EncoderEvent where
  /-- A call of `_try_schedule_encoder_inputs`. -/
  | attempted (requestId : String)
  /-- `can_allocate` refuses the request; `manager` is the encoder cache at this call. -/
  | refusedByController (requestId : String) (manager : EncoderCacheManager)
  | refusedByAllocation (requestId : String) (hasEncoderInputs : Bool)
  /-- `allocate_slots` succeeds. -/
  | allocated (requestId : String)
  | preempted (requestId : String)
  deriving DecidableEq

/-- `failed` stands for an error that the encoder cache raised, and `events` records what happened;
the source has neither. -/
structure EncoderBackend (ρ : Type) where
  encoder : EncoderSystem
  failed : Bool := false
  events : List EncoderEvent := []
  rest : ρ

namespace EncoderBackend

variable {ρ : Type}

def keep (b b' : EncoderBackend ρ) : EncoderBackend ρ := { b with rest := b'.rest }

def record (b : EncoderBackend ρ) (e : EncoderEvent) : EncoderBackend ρ :=
  { b with events := b.events ++ [e] }

/-- The inputs that the last attempt scheduled for the request. -/
def scheduledFor (b : EncoderBackend ρ) (requestId : String) :
    List (String × MultiModalFeatureSpec) :=
  b.encoder.scheduled.filter fun input => input.1 = requestId

/-- `allocate` for each of the inputs scheduled for the request. -/
def allocateFor (b : EncoderBackend ρ) (requestId : String) : EncoderBackend ρ :=
  match EncoderSystem.allocateAll b.encoder.manager (b.scheduledFor requestId) with
  | .ok m => { b with encoder := ⟨m, []⟩ }
  | .error _ => { b with failed := true }

def free (b : EncoderBackend ρ) (order : InputOrder) (r : EncoderRequest) : EncoderBackend ρ :=
  { b with encoder := { b.encoder with manager := b.encoder.manager.free order r } }

end EncoderBackend

section Collaborators

variable {ρ : Type} (env : Collaborators (EncoderBackend ρ)) (ecfg : EncoderConfig)
  (mmFeatures : String → List MultiModalFeatureSpec) (shift : ℤ)

/-- The inputs of the request behind an identifier. -/
def encoderRequest (id : String) : EncoderRequest := ⟨id, mmFeatures id⟩

/-- The collaborators of `schedule`, with the encoder cache in the place of its answers. `free`
follows a refusal by `allocate_slots`, and none follows a refusal by the controller. -/
def withEncoder : Collaborators (EncoderBackend ρ) where
  beginStep s := (env.beginStep s).map id s.backend.keep
  hasUnpublished s := (env.hasUnpublished s).map id s.backend.keep
  tryScheduleEncoderInputs s r computed tokens budget :=
    let request := encoderRequest mmFeatures r.requestId
    let b := s.backend.record (.attempted r.requestId)
    match tryScheduleEncoderInputs ecfg b.encoder.manager request computed tokens budget shift with
    | .ok t =>
        (⟨t.encoderInputsToSchedule, t.numNewTokens, t.encoderComputeBudget,
            t.externalLoadEncoderInput⟩,
          { b with encoder :=
              ⟨t.manager, request.inputs (t.encoderInputsToSchedule ++ t.externalLoadEncoderInput)⟩ })
    | .error _ => (⟨[], 0, budget, []⟩, { b with failed := true })
  numEncoderEmbeds r i := ((mmFeatures r.requestId)[i]?.map (·.numEncoderEmbeds)).getD 0
  mambaBlockAlignedSplit := env.mambaBlockAlignedSplit
  canGrow s r tokens := (env.canGrow s r tokens).map id s.backend.keep
  allocateRunning s r tokens :=
    let (fits, b) := env.allocateRunning s r tokens
    let b := s.backend.keep b
    if fits then
      let b := b.record (.allocated r.requestId)
      (true, if r.hasEncoderInputs then b.allocateFor r.requestId else b)
    else (false, b)
  victimView s r tokens := (env.victimView s r tokens).map id s.backend.keep
  freePreempted s r :=
    ((s.backend.keep (env.freePreempted s r)).free ecfg.inputOrder
      (encoderRequest mmFeatures r.requestId)).record (.preempted r.requestId)
  finishedRecving := env.finishedRecving
  updateWaitingForRemoteKv s r :=
    (env.updateWaitingForRemoteKv s r).map id s.backend.keep
  grammarReady := env.grammarReady
  getComputedBlocks s r := (env.getComputedBlocks s r).map id s.backend.keep
  deferCacheLookup s r tokens := (env.deferCacheLookup s r tokens).map id s.backend.keep
  getNumNewMatchedTokens s r tokens :=
    (env.getNumNewMatchedTokens s r tokens).map id s.backend.keep
  canAllocate s r admission :=
    let ((allowed, reserved), b) := env.canAllocate s r admission
    let b := s.backend.keep b
    ((allowed, reserved),
      if allowed then b else b.record (.refusedByController r.requestId b.encoder.manager))
  allocateSlots s r admission :=
    let (fits, b) := env.allocateSlots s r admission
    let b := s.backend.keep b
    if fits then
      let b := b.record (.allocated r.requestId)
      (true, if r.hasEncoderInputs && !admission.loadKvAsync then b.allocateFor r.requestId else b)
    else
      let b := b.record (.refusedByAllocation r.requestId r.hasEncoderInputs)
      (false, if r.hasEncoderInputs then
        b.free ecfg.inputOrder (encoderRequest mmFeatures r.requestId) else b)
  activePrefixAffinity := env.activePrefixAffinity
  affinityApplies := env.affinityApplies

end Collaborators

end TokenCake.Sched
