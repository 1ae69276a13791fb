import Mathlib.Algebra.Order.Ring.Int
import Mathlib.Data.Finset.Basic
import TokenCake.Lib.OrdDict

/-! # The encoder cache

`EncoderCacheManager`, and `_try_schedule_encoder_inputs` and `_free_encoder_inputs` of the
scheduler, for models that are not encoder-decoder models. A multimodal input of a request is
passed as its entry of `mm_features`. -/

namespace TokenCake.Encoder

inductive EncoderError where
  | keyError
  | assertion
  deriving DecidableEq, Repr

/-! ## Inputs -/

structure PlaceholderRange where
  offset : ℕ
  length : ℕ
  isEmbed : Option (List Bool) := none
  deriving DecidableEq, Repr

namespace PlaceholderRange

def getNumEmbeds (p : PlaceholderRange) : ℕ :=
  match p.isEmbed with
  | none => p.length
  | some mask => mask.count true

/-- An entry of `embeds_cumsum` counts the embeddings up to its position. -/
def getEmbedsIndicesInRange (p : PlaceholderRange) (startIdx endIdx : ℤ) : ℤ × ℤ :=
  match p.isEmbed with
  | none => (startIdx, endIdx)
  | some mask => ((mask.take startIdx.toNat).count true, (mask.take endIdx.toNat).count true)

end PlaceholderRange

structure MultiModalFeatureSpec where
  identifier : String
  mmPosition : PlaceholderRange
  deriving DecidableEq, Repr

/-- `get_num_encoder_embeds`. -/
def MultiModalFeatureSpec.numEncoderEmbeds (f : MultiModalFeatureSpec) : ℕ :=
  f.mmPosition.getNumEmbeds

structure EncoderRequest where
  requestId : String
  mmFeatures : List MultiModalFeatureSpec
  deriving DecidableEq, Repr

/-- The order in which a set of indices is iterated. -/
structure InputOrder where
  ordered : List ℕ → List ℕ
  perm : ∀ ids, (ordered ids).Perm ids

def InputOrder.ascending : InputOrder := ⟨id, fun _ => .rfl⟩

/-! ## The manager -/

structure EncoderCacheManager where
  cacheSize : ℤ
  numFreeSlots : ℤ
  numFreeableSlots : ℤ
  cached : OrdDict String (Finset String) := .empty
  freeable : OrdDict String ℕ := .empty
  freed : List String := []
  deriving DecidableEq

namespace EncoderCacheManager

def new (cacheSize : ℤ) : EncoderCacheManager where
  cacheSize := cacheSize
  numFreeSlots := cacheSize
  numFreeableSlots := cacheSize

variable (m : EncoderCacheManager)

def reset : EncoderCacheManager :=
  { m with
    cached := .empty
    freeable := .empty
    freed := []
    numFreeSlots := m.cacheSize
    numFreeableSlots := m.cacheSize }

def checkAndUpdateCache (requestId : String) (f : MultiModalFeatureSpec) :
    Except EncoderError (Bool × EncoderCacheManager) :=
  match m.cached.get? f.identifier with
  | none => .ok (false, m)
  | some references =>
      let cached := m.cached.insert f.identifier (insert requestId references)
      if references = ∅ then
        match m.freeable.get? f.identifier with
        | none => .error .keyError
        | some numEncoderEmbeds => .ok (true,
            { m with
              freeable := m.freeable.erase f.identifier
              numFreeableSlots := m.numFreeableSlots - numEncoderEmbeds
              cached := cached })
      else .ok (true, { m with cached := cached })

/-- The loop of `can_allocate` that evicts entries; `entries` are those of `freeable`. -/
def evict (numEmbeds : ℤ) :
    List (String × ℕ) → EncoderCacheManager → Except EncoderError EncoderCacheManager
  | [], m => if m.numFreeSlots < numEmbeds then .error .keyError else .ok m
  | (mmHash, numFreeEmbeds) :: entries, m =>
      if m.numFreeSlots < numEmbeds then
        if mmHash ∈ m.cached.keys then
          evict numEmbeds entries
            { m with
              freeable := m.freeable.popFirst
              cached := m.cached.erase mmHash
              freed := m.freed ++ [mmHash]
              numFreeSlots := m.numFreeSlots + numFreeEmbeds }
        else .error .keyError
      else .ok m

def canAllocate (f : MultiModalFeatureSpec) (encoderComputeBudget numEmbedsToSchedule : ℤ) :
    Except EncoderError (Bool × EncoderCacheManager) :=
  if encoderComputeBudget < f.numEncoderEmbeds then .ok (false, m)
  else
    let numEmbeds := f.numEncoderEmbeds + numEmbedsToSchedule
    if numEmbeds ≤ m.numFreeSlots then .ok (true, m)
    else if m.numFreeableSlots < numEmbeds then .ok (false, m)
    else (evict numEmbeds m.freeable.entries m).map fun m => (true, m)

def allocate (requestId : String) (f : MultiModalFeatureSpec) :
    Except EncoderError EncoderCacheManager :=
  let references := (m.cached.get? f.identifier).getD ∅
  if m.numFreeSlots < f.numEncoderEmbeds ∨ m.numFreeableSlots < f.numEncoderEmbeds then
    .error .assertion
  else
    .ok { m with
      cached := m.cached.insert f.identifier (insert requestId references)
      numFreeSlots := m.numFreeSlots - f.numEncoderEmbeds
      numFreeableSlots := m.numFreeableSlots - f.numEncoderEmbeds }

/-- `get_cached_input_ids`, in ascending order. -/
def cachedInputIds (r : EncoderRequest) : List ℕ :=
  (List.range r.mmFeatures.length).filter fun i =>
    (r.mmFeatures[i]?).any fun f => decide (f.identifier ∈ m.cached.keys)

/-- The inputs behind the set of `get_cached_input_ids`. -/
def cachedInputs (order : InputOrder) (r : EncoderRequest) : List MultiModalFeatureSpec :=
  (order.ordered (m.cachedInputIds r)).filterMap (r.mmFeatures[·]?)

def freeEncoderInput (requestId : String) (f : MultiModalFeatureSpec) : EncoderCacheManager :=
  match m.cached.get? f.identifier with
  | none => m
  | some references =>
      if references = ∅ then m
      else
        let references := references.erase requestId
        let cached := m.cached.insert f.identifier references
        if references = ∅ then
          { m with
            cached := cached
            freeable := m.freeable.insert f.identifier f.numEncoderEmbeds
            numFreeableSlots := m.numFreeableSlots + f.numEncoderEmbeds }
        else { m with cached := cached }

def free (order : InputOrder) (r : EncoderRequest) : EncoderCacheManager :=
  (m.cachedInputs order r).foldl (fun m f => m.freeEncoderInput r.requestId f) m

def getFreedMmHashes : List String × EncoderCacheManager := (m.freed, { m with freed := [] })

/-- `_free_encoder_inputs`, once `numComputedTokens` tokens of the request are computed. -/
def freeEncoderInputs (order : InputOrder) (r : EncoderRequest) (numComputedTokens : ℤ) :
    EncoderCacheManager :=
  (m.cachedInputs order r).foldl (fun m f =>
    if f.mmPosition.offset + f.mmPosition.length ≤ numComputedTokens
    then m.freeEncoderInput r.requestId f else m) m

end EncoderCacheManager

/-! ## Scheduling the inputs of a request -/

/-- What `_try_schedule_encoder_inputs` reads of the configuration and of the connector of the
encoder cache, if there is one, and the order of a set. -/
structure EncoderConfig where
  disableChunkedMmInput : Bool := false
  hasCacheItem : String → Bool := fun _ => false
  inputOrder : InputOrder := .ascending

/-- The local variables of `_try_schedule_encoder_inputs`. `hits` is not in the source: it lists
the inputs that are found in the cache. -/
structure Attempt where
  manager : EncoderCacheManager
  numNewTokens : ℤ
  encoderComputeBudget : ℤ
  encoderInputsToSchedule : List ℕ := []
  externalLoadEncoderInput : List ℕ := []
  mmHashesToSchedule : List String := []
  numEmbedsToSchedule : ℤ := 0
  hits : List ℕ := []

namespace Attempt

variable (cfg : EncoderConfig) (requestId : String) (numComputedTokens shift : ℤ)

/-- An input is scheduled for computation or for a load from the connector. -/
def schedule (t : Attempt) (i : ℕ) (f : MultiModalFeatureSpec) : Attempt :=
  if cfg.hasCacheItem f.identifier then
    { t with
      mmHashesToSchedule := t.mmHashesToSchedule ++ [f.identifier]
      externalLoadEncoderInput := t.externalLoadEncoderInput ++ [i]
      numEmbedsToSchedule := t.numEmbedsToSchedule + f.numEncoderEmbeds }
  else
    { t with
      numEmbedsToSchedule := t.numEmbedsToSchedule + f.numEncoderEmbeds
      encoderComputeBudget := t.encoderComputeBudget - f.numEncoderEmbeds
      mmHashesToSchedule := t.mmHashesToSchedule ++ [f.identifier]
      encoderInputsToSchedule := t.encoderInputsToSchedule ++ [i] }

/-- Whether embeddings of the input lie in the range that is computed. -/
def coversEmbeds (t : Attempt) (f : MultiModalFeatureSpec) : Bool :=
  let range := f.mmPosition.getEmbedsIndicesInRange
    (max 0 (numComputedTokens - f.mmPosition.offset))
    (min f.mmPosition.length (numComputedTokens + t.numNewTokens - f.mmPosition.offset))
  decide (range.2 - range.1 ≠ 0)

/-- The part of the loop for an input that has to be computed; `false` is its `break`. -/
def request (t : Attempt) (i : ℕ) (f : MultiModalFeatureSpec) :
    Except EncoderError (Bool × Attempt) := do
  let startPos : ℤ := f.mmPosition.offset
  if cfg.disableChunkedMmInput && decide (numComputedTokens < startPos ∧
      numComputedTokens + t.numNewTokens < startPos + f.mmPosition.length) then
    .ok (false, { t with numNewTokens := max 0 (startPos - (numComputedTokens + shift)) })
  else
    let (fits, manager) ← t.manager.canAllocate f t.encoderComputeBudget t.numEmbedsToSchedule
    let t := { t with manager := manager }
    if fits then
      if t.coversEmbeds numComputedTokens f then return (true, t.schedule cfg i f)
      else return (true, t)
    else if numComputedTokens + shift < startPos then
      return (false, { t with numNewTokens := startPos - (numComputedTokens + shift) })
    else return (false, { t with numNewTokens := 0 })

/-- The body of the loop over the inputs; `false` is its `break`. -/
def consider (t : Attempt) (i : ℕ) (f : MultiModalFeatureSpec) :
    Except EncoderError (Bool × Attempt) := do
  let startPos : ℤ := f.mmPosition.offset
  if numComputedTokens + t.numNewTokens + shift ≤ startPos then .ok (false, t)
  else if startPos + f.mmPosition.length ≤ numComputedTokens then .ok (true, t)
  else if f.identifier ∈ t.mmHashesToSchedule then .ok (true, t)
  else
    let (hit, manager) ← t.manager.checkAndUpdateCache requestId f
    if hit then return (true, { t with manager := manager, hits := t.hits ++ [i] })
    else request cfg numComputedTokens shift { t with manager := manager } i f

def loop : List (MultiModalFeatureSpec × ℕ) → Attempt → Except EncoderError Attempt
  | [], t => .ok t
  | (f, i) :: inputs, t => do
      let (again, t) ← consider cfg requestId numComputedTokens shift t i f
      if again then loop inputs t else return t

end Attempt

/-- `_try_schedule_encoder_inputs`. -/
def tryScheduleEncoderInputs (cfg : EncoderConfig) (m : EncoderCacheManager) (r : EncoderRequest)
    (numComputedTokens numNewTokens encoderComputeBudget shift : ℤ) :
    Except EncoderError Attempt :=
  let t : Attempt := {
    manager := m, numNewTokens := numNewTokens, encoderComputeBudget := encoderComputeBudget }
  if numNewTokens = 0 ∨ r.mmFeatures = [] then .ok t
  else Attempt.loop cfg r.requestId numComputedTokens shift r.mmFeatures.zipIdx t

/-! ## The calls of the scheduler -/

/-- The inputs of the request behind indices. -/
def EncoderRequest.inputs (r : EncoderRequest) (ids : List ℕ) :
    List (String × MultiModalFeatureSpec) :=
  ids.filterMap fun i => (r.mmFeatures[i]?).map fun f => (r.requestId, f)

/-- The manager, and the inputs of the last attempt, for which space may be allocated once the
request has got its blocks. -/
structure EncoderSystem where
  manager : EncoderCacheManager
  scheduled : List (String × MultiModalFeatureSpec) := []

inductive EncoderAction where
  | trySchedule (r : EncoderRequest)
      (numComputedTokens numNewTokens encoderComputeBudget shift : ℤ)
  | allocateScheduled
  | freeEncoderInput (requestId : String) (f : MultiModalFeatureSpec)
  | freeEncoderInputs (r : EncoderRequest) (numComputedTokens : ℤ)
  | free (r : EncoderRequest)
  | reset
  | getFreedMmHashes

namespace EncoderSystem

def allocateAll (m : EncoderCacheManager) (inputs : List (String × MultiModalFeatureSpec)) :
    Except EncoderError EncoderCacheManager :=
  inputs.foldlM (fun m input => m.allocate input.1 input.2) m

def perform (cfg : EncoderConfig) (s : EncoderSystem) :
    EncoderAction → Except EncoderError EncoderSystem
  | .trySchedule r numComputedTokens numNewTokens encoderComputeBudget shift =>
      (tryScheduleEncoderInputs cfg s.manager r numComputedTokens numNewTokens
        encoderComputeBudget shift).map fun t =>
          ⟨t.manager, r.inputs (t.encoderInputsToSchedule ++ t.externalLoadEncoderInput)⟩
  | .allocateScheduled => (allocateAll s.manager s.scheduled).map fun m => ⟨m, []⟩
  | .freeEncoderInput requestId f =>
      .ok { s with manager := s.manager.freeEncoderInput requestId f }
  | .freeEncoderInputs r numComputedTokens =>
      .ok { s with manager := s.manager.freeEncoderInputs cfg.inputOrder r numComputedTokens }
  | .free r => .ok { s with manager := s.manager.free cfg.inputOrder r }
  | .reset => .ok { s with manager := s.manager.reset }
  | .getFreedMmHashes => .ok { s with manager := s.manager.getFreedMmHashes.2 }

def Performs (cfg : EncoderConfig) (s : EncoderSystem) (a : EncoderAction) (s' : EncoderSystem) :
    Prop := s.perform cfg a = .ok s'

def init (cacheSize : ℤ) : EncoderSystem := ⟨.new cacheSize, []⟩

end EncoderSystem

end TokenCake.Encoder
