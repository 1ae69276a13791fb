import TokenCake.Model.KVCacheManager

/-! # Growth commitments

The part of `SchedulingController` that says how many blocks an admitted request still needs:
`admission_tokens` and `_remaining_growth`. -/

namespace TokenCake.KV

/-- What the controller reads of a request, next to what the cache reads. -/
structure GrowthRequest (η : Type) extends Request η where
  numPromptTokens : ℕ
  maxTokens : ℕ

/-- `reserve_generation_tokens`, and the lookahead tokens that the controller counts with it. -/
structure GrowthSettings where
  reserveGenerationTokens : Bool
  numLookaheadTokens : ℕ := 0

namespace KVCacheManager

variable {η : Type} (m : KVCacheManager η) (settings : GrowthSettings) (request : GrowthRequest η)

/-- `_block_ids`: the blocks that a request holds. -/
def blockIds (requestId : String) : Finset BlockId :=
  (m.singleTypeManagers.flatMap (·.table requestId)).toFinset.erase nullBlock

/-- `admission_tokens`. -/
def admissionTokens : ℕ :=
  let fullTokens :=
    if settings.reserveGenerationTokens then
      max request.numTokens (request.numPromptTokens + request.maxTokens)
    else request.numTokens
  min fullTokens m.maxModelLen

/-- The body of `_remaining_growth` for `full_tokens`. -/
def growthTo (fullTokens : ℕ) : Except KVError ℕ :=
  if fullTokens ≤ request.numComputedTokens then .ok 0
  else m.getNumBlocksToAllocate request.requestId
    (min (fullTokens + settings.numLookaheadTokens) m.maxModelLen)
    (m.singleTypeManagers.map fun _ => []) request.numComputedTokens true

/-- `_remaining_growth`. -/
def remainingGrowth : Except KVError ℕ :=
  m.growthTo settings request (m.admissionTokens settings request)

end KVCacheManager

/-! ## The life of an admitted request -/

/-- The manager, an admitted request, and the tokens that it has slots for. -/
structure ServedState (η : Type) where
  manager : KVCacheManager η
  request : GrowthRequest η
  numAllocatedTokens : ℕ

/-- A call for the request itself, progress of the request, or another call of the manager. -/
inductive ServeAction (η : Type)
  | allocate (args : KVCacheManager.SlotArgs)
  | update (request : GrowthRequest η)
  | other (op : KVCacheManager.CacheOp η)

/-- The calls that serve or free other requests, and those that only remove what lies before a
window, cache blocks or evict them. -/
def KVCacheManager.CacheOp.Spares {η : Type} (requestId : String) :
    KVCacheManager.CacheOp η → Prop
  | .allocateSlots request _ => request.requestId ≠ requestId
  | .free request => request.requestId ≠ requestId
  | _ => True

instance {η : Type} (requestId : String) (op : KVCacheManager.CacheOp η) :
    Decidable (op.Spares requestId) := by
  cases op <;> unfold KVCacheManager.CacheOp.Spares <;> infer_instance

section Serve

variable {η : Type} [DecidableEq η] (settings : GrowthSettings) (maxNumBatchedTokens : ℕ)
  (s : ServedState η)

/-- A call for a running request: no hits, no lookahead, and neither more tokens than a batch
has nor more than the request was admitted for. -/
def Callable (args : KVCacheManager.SlotArgs) : Prop :=
  args.newComputedBlocks = (s.manager.singleTypeManagers.map fun _ => []) ∧
    args.numNewComputedTokens = 0 ∧ args.numExternalComputedTokens = 0 ∧
    args.numLookaheadTokens = 0 ∧ args.numNewTokens ≤ maxNumBatchedTokens ∧
    s.request.numComputedTokens + args.numNewTokens ≤
      s.manager.admissionTokens settings s.request

/-- A request computes tokens that it has slots for and generates up to `max_tokens` tokens. -/
def Updates (request : GrowthRequest η) : Prop :=
  request.requestId = s.request.requestId ∧
    request.numPromptTokens = s.request.numPromptTokens ∧
    request.maxTokens = s.request.maxTokens ∧
    request.numComputedTokens ≤ s.numAllocatedTokens ∧
    request.numTokens ≤ request.numPromptTokens + request.maxTokens

instance (args : KVCacheManager.SlotArgs) :
    Decidable (Callable settings maxNumBatchedTokens s args) :=
  inferInstanceAs (Decidable (_ ∧ _ ∧ _ ∧ _ ∧ _ ∧ _))

omit [DecidableEq η] in
instance (request : GrowthRequest η) : Decidable (Updates s request) :=
  inferInstanceAs (Decidable (_ ∧ _ ∧ _ ∧ _ ∧ _))

/-- One step of a run; there is none for a call that fails. -/
def serve : ServeAction η → Option (ServedState η)
  | .allocate args =>
      if Callable settings maxNumBatchedTokens s args then
        match s.manager.allocateSlots s.request.toRequest args with
        | .ok (manager, some _) => some { s with
            manager := manager
            numAllocatedTokens := max s.numAllocatedTokens
              (s.request.numComputedTokens + args.numNewTokens) }
        | .ok (manager, none) => some { s with manager := manager }
        | .error _ => none
      else none
  | .update request => if Updates s request then some { s with request := request } else none
  | .other op =>
      if op.Spares s.request.requestId then
        (s.manager.perform op).toOption.map fun manager => { s with manager := manager }
      else none

end Serve

/-! ## The life of any request

Without the controller: a request is served in chunks from its first call on, and may be freed
and start again. -/

/-- A call for the request itself, the caching of its loaded blocks, progress of the request, its
return to the queue, or a call for other requests. -/
inductive ProcessAction (η : Type)
  | allocate (args : KVCacheManager.SlotArgs)
  | cache (numComputedTokens : ℕ)
  | update (request : GrowthRequest η)
  | free
  | other (op : KVCacheManager.CacheOp η)

/-- The calls for other requests, and those that only remove what lies before a window or evict
blocks. -/
def KVCacheManager.CacheOp.Bypasses {η : Type} (requestId : String) :
    KVCacheManager.CacheOp η → Prop
  | .allocateSlots request _ => request.requestId ≠ requestId
  | .cacheBlocks request _ => request.requestId ≠ requestId
  | .free request => request.requestId ≠ requestId
  | _ => True

instance {η : Type} (requestId : String) (op : KVCacheManager.CacheOp η) :
    Decidable (op.Bypasses requestId) := by
  cases op <;> unfold KVCacheManager.CacheOp.Bypasses <;> infer_instance

section Process

variable {η : Type} [DecidableEq η] (maxNumBatchedTokens : ℕ) (s : ServedState η)

/-- A call for a chunk, without lookahead. A request without slots may bring the hits that the
manager reports for it and tokens of the connector. -/
def ChunkCall (args : KVCacheManager.SlotArgs) : Prop :=
  args.numNewTokens ≤ maxNumBatchedTokens ∧ args.numLookaheadTokens = 0 ∧
    (args.newComputedBlocks = (s.manager.singleTypeManagers.map fun _ => []) ∧
        args.numNewComputedTokens = 0 ∧ args.numExternalComputedTokens = 0 ∨
      s.numAllocatedTokens = 0 ∧
        args.numNewComputedTokens + args.numExternalComputedTokens ≤ s.manager.maxModelLen ∧
        (s.manager.getComputedBlocks s.request.toRequest).toOption =
          some (args.newComputedBlocks, args.numNewComputedTokens))

/-- A request computes tokens that it has slots for. -/
def Advances (request : GrowthRequest η) : Prop :=
  request.requestId = s.request.requestId ∧ request.numComputedTokens ≤ s.numAllocatedTokens

instance (args : KVCacheManager.SlotArgs) : Decidable (ChunkCall maxNumBatchedTokens s args) :=
  inferInstanceAs (Decidable (_ ∧ _ ∧ (_ ∧ _ ∧ _ ∨ _ ∧ _ ∧ _)))

omit [DecidableEq η] in
instance (request : GrowthRequest η) : Decidable (Advances s request) :=
  inferInstanceAs (Decidable (_ ∧ _))

/-- One step of a run; there is none for a call that fails. -/
def process : ProcessAction η → Option (ServedState η)
  | .allocate args =>
      if ChunkCall maxNumBatchedTokens s args then
        match s.manager.allocateSlots s.request.toRequest args with
        | .ok (manager, some _) => some { s with
            manager := manager
            numAllocatedTokens := max s.numAllocatedTokens
              (s.manager.numTokensNeedSlot s.request.toRequest args) }
        | .ok (manager, none) => some { s with manager := manager }
        | .error _ => none
      else none
  | .cache numComputedTokens =>
      if 0 < s.numAllocatedTokens then
        (s.manager.cacheBlocks s.request.toRequest numComputedTokens).toOption.map fun manager =>
          { s with manager := manager }
      else none
  | .update request => if Advances s request then some { s with request := request } else none
  | .free => some { s with
      manager := s.manager.free s.request.toRequest
      request := { s.request with numComputedTokens := 0 }
      numAllocatedTokens := 0 }
  | .other op =>
      if op.Bypasses s.request.requestId then
        (s.manager.perform op).toOption.map fun manager => { s with manager := manager }
      else none

end Process

end TokenCake.KV
