import TokenCake.Model.BlockPool

/-! # KV cache managers

One `SingleTypeKVCacheManager` for each group of layers, the coordinators that go through them,
and `KVCacheManager` with `allocate_slots`. Covered are full attention, sliding windows and
chunked local attention. -/

namespace TokenCake.KV

/-! ## Groups -/

inductive AttentionKind where
  | fullAttention
  | slidingWindow (slidingWindow : ℕ)
  | chunkedLocal (attentionChunkSize : ℕ)
  deriving DecidableEq, Repr

/-- `variant` stands for the fields that only matter for the equality of two specs (heads, head
sizes, data types). -/
structure KVCacheSpec where
  kind : AttentionKind
  blockSize : ℕ
  blockSize_pos : 0 < blockSize
  variant : ℕ := 0
  deriving DecidableEq, Repr

namespace KVCacheSpec

def isFullAttention (spec : KVCacheSpec) : Bool := spec.kind = .fullAttention

/-- `get_num_skipped_tokens`. -/
def getNumSkippedTokens (spec : KVCacheSpec) (numComputedTokens : ℕ) : ℕ :=
  match spec.kind with
  | .fullAttention => 0
  | .slidingWindow w => numComputedTokens + 1 - w
  | .chunkedLocal c => numComputedTokens / c * c

/-- `max_admission_blocks_per_request`, for the specs that have it. -/
def maxAdmissionBlocksPerRequest (spec : KVCacheSpec) (maxNumBatchedTokens maxModelLen : ℕ) :
    Option ℕ :=
  match spec.kind with
  | .fullAttention => none
  | .slidingWindow w => some (min (w - 1 + maxNumBatchedTokens) maxModelLen ⌈/⌉ spec.blockSize + 1)
  | .chunkedLocal c => some (min (c + maxNumBatchedTokens) maxModelLen ⌈/⌉ spec.blockSize)

/-- `_cache_block_mask`. -/
def cacheBlockMask (spec : KVCacheSpec) (numCachedBlocks numFullBlocks alignmentTokens : ℕ) :
    Except KVError (Option (List Bool)) :=
  match spec.kind with
  | .slidingWindow w =>
      if alignmentTokens ≤ spec.blockSize then .error .assertion
      else
        let perSegment := alignmentTokens / spec.blockSize
        let tail := (w - 1) ⌈/⌉ spec.blockSize
        if perSegment ≤ tail then .ok none
        else .ok (some ((List.range' numCachedBlocks (numFullBlocks - numCachedBlocks)).map
          fun i => decide (perSegment - tail ≤ i % perSegment)))
  | _ => .ok none

end KVCacheSpec

/-- What the cache reads of a request. -/
structure Request (η : Type) where
  requestId : String
  numTokens : ℕ
  numComputedTokens : ℕ := 0
  blockHashes : List η
  skipReadingPrefixCache : Bool := false

/-! ## One group -/

structure SingleTypeKVCacheManager where
  spec : KVCacheSpec
  groupId : ℕ
  maxAdmissionBlocksPerRequest : Option ℕ
  reqToBlocks : OrdDict String (List BlockId) := .empty
  numCachedBlock : OrdDict String ℕ := .empty

namespace SingleTypeKVCacheManager

variable {η : Type} [DecidableEq η]

abbrev blockSize (m : SingleTypeKVCacheManager) : ℕ := m.spec.blockSize

/-- `self.req_to_blocks[request_id]` of a `defaultdict`. -/
def table (m : SingleTypeKVCacheManager) (requestId : String) : List BlockId :=
  (m.reqToBlocks.get? requestId).getD []

def setTable (m : SingleTypeKVCacheManager) (requestId : String) (blocks : List BlockId) :
    SingleTypeKVCacheManager :=
  { m with reqToBlocks := m.reqToBlocks.insert requestId blocks }

def setNumCachedBlock (m : SingleTypeKVCacheManager) (requestId : String) (n : ℕ) :
    SingleTypeKVCacheManager :=
  { m with numCachedBlock := m.numCachedBlock.insert requestId n }

omit [DecidableEq η] in
def numEvictableBlocks (pool : BlockPool η) (blocks : List BlockId) : ℕ :=
  blocks.countP fun b => decide ((pool.blocks b).refCnt = 0 ∧ b ≠ nullBlock)

omit [DecidableEq η] in
def getNumBlocksToAllocate (m : SingleTypeKVCacheManager) (pool : BlockPool η)
    (requestId : String) (numTokens : ℕ) (newComputedBlocks : List BlockId)
    (totalComputedTokens : ℕ) (applyAdmissionCap : Bool) : Except KVError ℕ :=
  let numRequiredBlocks := numTokens ⌈/⌉ m.blockSize
  let numRequiredBlocks := match applyAdmissionCap, m.maxAdmissionBlocksPerRequest with
    | true, some cap => min numRequiredBlocks cap
    | _, _ => numRequiredBlocks
  let numReqBlocks := (m.table requestId).length
  if m.numCachedBlock.contains requestId then
    if newComputedBlocks = [] then .ok (numRequiredBlocks - numReqBlocks) else .error .assertion
  else
    let numSkippedTokens := m.spec.getNumSkippedTokens totalComputedTokens
    let numLocalComputedBlocks := newComputedBlocks.length + numReqBlocks
    let numSkippedBlocks := numSkippedTokens / m.blockSize
    let numNewBlocks := numRequiredBlocks - max numSkippedBlocks numLocalComputedBlocks
    let numSkippedNewComputedBlocks := numSkippedBlocks - numReqBlocks
    let numEvictable :=
      numEvictableBlocks pool (newComputedBlocks.drop numSkippedNewComputedBlocks)
    .ok (numNewBlocks + numEvictable)

/-- The blocks that a new request gets for tokens that the connector provides. -/
def allocateExternal (m : SingleTypeKVCacheManager) (pool : BlockPool η) (requestId : String)
    (numTotalComputedTokens numExternalComputedTokens : ℕ) :
    Except KVError (BlockPool η × SingleTypeKVCacheManager) := do
  if 0 < numExternalComputedTokens then
    let reqBlocks := m.table requestId
    let (allocated, pool) ← pool.getNewBlocks
      ((numTotalComputedTokens ⌈/⌉ m.blockSize : ℕ) - (reqBlocks.length : ℤ))
    return (pool, m.setTable requestId (reqBlocks ++ allocated))
  else return (pool, m)

def allocateNewComputedBlocks (m : SingleTypeKVCacheManager) (pool : BlockPool η)
    (requestId : String) (newComputedBlocks : List BlockId)
    (numLocalComputedTokens numExternalComputedTokens : ℕ) :
    Except KVError (BlockPool η × SingleTypeKVCacheManager) := do
  if m.numCachedBlock.contains requestId then
    if newComputedBlocks = [] then return (pool, m) else .error .assertion
  else if m.table requestId ≠ [] then .error .assertion
  else
    let numTotalComputedTokens := numLocalComputedTokens + numExternalComputedTokens
    let numSkippedTokens := m.spec.getNumSkippedTokens numTotalComputedTokens
    let numSkippedBlocks := numSkippedTokens / m.blockSize
    let (hits, numExternal) :=
      if 0 < numSkippedBlocks then
        (newComputedBlocks.drop numSkippedBlocks,
          min (numTotalComputedTokens - numSkippedTokens) numExternalComputedTokens)
      else (newComputedBlocks, numExternalComputedTokens)
    let pool ←
      if pool.enableCaching then pool.touch hits
      else if hits = [] then .ok pool
      else .error .assertion
    let reqBlocks := List.replicate numSkippedBlocks nullBlock ++ hits
    let m := (m.setTable requestId reqBlocks).setNumCachedBlock requestId reqBlocks.length
    m.allocateExternal pool requestId numTotalComputedTokens numExternal

def allocateNewBlocks (m : SingleTypeKVCacheManager) (pool : BlockPool η) (requestId : String)
    (numTokens : ℕ) :
    Except KVError (BlockPool η × SingleTypeKVCacheManager × List BlockId) := do
  let reqBlocks := m.table requestId
  let numNewBlocks : ℤ := (numTokens ⌈/⌉ m.blockSize : ℕ) - (reqBlocks.length : ℤ)
  if numNewBlocks ≤ 0 then return (pool, m.setTable requestId reqBlocks, [])
  else
    let (newBlocks, pool) ← pool.getNewBlocks numNewBlocks
    return (pool, m.setTable requestId (reqBlocks ++ newBlocks), newBlocks)

def cacheBlocks (m : SingleTypeKVCacheManager) (pool : BlockPool η) (request : Request η)
    (numTokens : ℕ) (alignmentTokens : Option ℕ) :
    Except KVError (BlockPool η × SingleTypeKVCacheManager) := do
  let numCachedBlocks := (m.numCachedBlock.get? request.requestId).getD 0
  let numFullBlocks := numTokens / m.blockSize
  if numFullBlocks ≤ numCachedBlocks then return (pool, m)
  else
    let blockMask ← match alignmentTokens with
      | none => .ok none
      | some alignment =>
          if alignment ≤ m.blockSize then .ok none
          else m.spec.cacheBlockMask numCachedBlocks numFullBlocks alignment
    let pool ← pool.cacheFullBlocks request.blockHashes (m.table request.requestId)
      numCachedBlocks numFullBlocks m.blockSize m.groupId blockMask
    return (pool, (m.setTable request.requestId (m.table request.requestId)).setNumCachedBlock
      request.requestId numFullBlocks)

omit [DecidableEq η] in
def free (m : SingleTypeKVCacheManager) (pool : BlockPool η) (requestId : String) :
    BlockPool η × SingleTypeKVCacheManager :=
  (pool.freeBlocks (m.table requestId).reverse,
    { m with
      reqToBlocks := m.reqToBlocks.erase requestId
      numCachedBlock := m.numCachedBlock.erase requestId })

/-- The loop of `remove_skipped_blocks` below index `n`: the removed blocks and the new table. -/
def removeBelow (blocks : List BlockId) : ℕ → List BlockId × List BlockId
  | 0 => ([], blocks)
  | i + 1 =>
      match blocks[i]? with
      | none => ([], blocks)
      | some b =>
          if b = nullBlock then ([], blocks)
          else
            let (removed, blocks) := removeBelow (blocks.set i nullBlock) i
            (b :: removed, blocks)

omit [DecidableEq η] in
def removeSkippedBlocks (m : SingleTypeKVCacheManager) (pool : BlockPool η) (requestId : String)
    (totalComputedTokens : ℕ) : BlockPool η × SingleTypeKVCacheManager :=
  let numSkippedTokens := m.spec.getNumSkippedTokens totalComputedTokens
  if numSkippedTokens = 0 then (pool, m)
  else
    let blocks := m.table requestId
    let numSkippedBlocks := min (numSkippedTokens / m.blockSize) blocks.length
    let (removed, blocks) := removeBelow blocks numSkippedBlocks
    (pool.freeBlocks removed, m.setTable requestId blocks)

end SingleTypeKVCacheManager

/-! ## Prefix-cache hits

A hit of several groups with one spec is a list of rows, one for each block index, that hold a
block for each group. -/

abbrev Row := List BlockId

/-- Drop blocks from the end until the length in tokens is a multiple of the alignment. -/
def popToAlignment (blockSize alignmentTokens : ℕ) : ℕ → ℕ
  | 0 => 0
  | n + 1 =>
      if blockSize = alignmentTokens ∨ (n + 1) * blockSize % alignmentTokens = 0 then n + 1
      else popToAlignment blockSize alignmentTokens n

def alignRows (blockSize alignmentTokens : ℕ) (rows : List Row) : List Row :=
  rows.take (popToAlignment blockSize alignmentTokens rows.length)

/-- The blocks of consecutive indices from `i` on, up to the first miss. -/
def hitsFrom (lookup : ℕ → Option Row) : ℕ → ℕ → List Row
  | _, 0 => []
  | i, n + 1 =>
      match lookup i with
      | some row => row :: hitsFrom lookup (i + 1) n
      | none => []

/-- `FullAttentionManager.find_longest_cache_hit`. -/
def fullAttentionHit (lookup : ℕ → Option Row) (blockSize maxLength alignmentTokens : ℕ)
    (useEagle : Bool) : List Row :=
  let rows := hitsFrom lookup 0 (maxLength / blockSize)
  let rows := if useEagle then rows.dropLast else rows
  alignRows blockSize alignmentTokens rows

/-- The loop of `SlidingWindowManager.find_longest_cache_hit` below index `n`: the rows, the
number of contiguous hits at the end of the loop, and whether a match was found. Where the bound
exceeds the hashed blocks the loop starts with misses, not with an `IndexError`. -/
def scanWindow (lookup : ℕ → Option Row) (blockSize alignmentTokens contiguousBlocks : ℕ)
    (useEagle : Bool) : ℕ → List Row → ℕ → List Row × ℕ × Bool
  | 0, rows, contiguous => (rows, contiguous, false)
  | i + 1, rows, contiguous =>
      match lookup i with
      | none => scanWindow lookup blockSize alignmentTokens contiguousBlocks useEagle i rows 0
      | some row =>
          let postPopBlocks := if useEagle then i else i + 1
          if contiguous = 0 ∧ blockSize ≠ alignmentTokens ∧
              postPopBlocks * blockSize % alignmentTokens ≠ 0 then
            scanWindow lookup blockSize alignmentTokens contiguousBlocks useEagle i rows contiguous
          else
            let rows := rows.set i row
            if contiguousBlocks ≤ contiguous + 1 then
              (rows.take (i + (contiguous + 1)), contiguous + 1, true)
            else
              scanWindow lookup blockSize alignmentTokens contiguousBlocks useEagle i rows
                (contiguous + 1)

/-- `SlidingWindowManager.find_longest_cache_hit`. -/
def slidingWindowHit (lookup : ℕ → Option Row) (slidingWindow numGroups blockSize maxLength
    alignmentTokens : ℕ) (useEagle : Bool) : List Row :=
  let contiguousBlocks := (slidingWindow - 1) ⌈/⌉ blockSize + if useEagle then 1 else 0
  let maxNumBlocks := maxLength / blockSize
  let nullRow := List.replicate numGroups nullBlock
  let (rows, contiguous, matchFound) := scanWindow lookup blockSize alignmentTokens
    contiguousBlocks useEagle maxNumBlocks (List.replicate maxNumBlocks nullRow) 0
  let rows :=
    if matchFound then rows
    else alignRows blockSize alignmentTokens (rows.take contiguous)
  if useEagle ∧ rows ≠ [] then alignRows blockSize alignmentTokens rows.dropLast else rows

/-- `ChunkedLocalAttentionManager.find_longest_cache_hit`. -/
def chunkedLocalHit (lookup : ℕ → Option Row) (attentionChunkSize numGroups blockSize maxLength
    alignmentTokens : ℕ) (useEagle : Bool) : Except KVError (List Row) :=
  if useEagle ∨ blockSize ≠ alignmentTokens then .error .assertion
  else
    let maxNumBlocks := maxLength / blockSize
    let startBlock := maxLength / attentionChunkSize * attentionChunkSize / blockSize
    .ok (List.replicate startBlock (List.replicate numGroups nullBlock) ++
      hitsFrom lookup startBlock (maxNumBlocks - startBlock))

def findLongestCacheHit (spec : KVCacheSpec) (lookup : ℕ → Option Row)
    (numGroups maxLength alignmentTokens : ℕ) (useEagle : Bool) : Except KVError (List Row) :=
  match spec.kind with
  | .fullAttention =>
      .ok (fullAttentionHit lookup spec.blockSize maxLength alignmentTokens useEagle)
  | .slidingWindow w =>
      .ok (slidingWindowHit lookup w numGroups spec.blockSize maxLength alignmentTokens useEagle)
  | .chunkedLocal c =>
      chunkedLocalHit lookup c numGroups spec.blockSize maxLength alignmentTokens useEagle

/-! ## The coordinators and the manager -/

structure KVCacheConfig where
  numBlocks : ℕ
  kvCacheGroups : List KVCacheSpec
  maxModelLen : ℕ
  maxNumBatchedTokens : ℕ
  enableCaching : Bool
  hashBlockSize : ℕ
  eagleGroupIds : List ℕ := []

/-- `KVCacheManager` with its coordinator: without a prefix cache, for one group, or hybrid. -/
structure KVCacheManager (η : Type) where
  maxModelLen : ℕ
  enableCaching : Bool
  eagleGroupIds : List ℕ
  blockPool : BlockPool η
  singleTypeManagers : List SingleTypeKVCacheManager

/-- The groups that share a spec, with the ids of the groups. -/
structure AttentionGroup where
  spec : KVCacheSpec
  groupIds : List ℕ
  deriving DecidableEq, Repr

/-- Add a group to the attention group of its spec. -/
def addGroup (groups : List AttentionGroup) (spec : KVCacheSpec) (i : ℕ) : List AttentionGroup :=
  if groups.any (·.spec = spec) then
    groups.map fun g => if g.spec = spec then { g with groupIds := g.groupIds ++ [i] } else g
  else groups ++ [⟨spec, [i]⟩]

/-- `verify_and_split_kv_cache_groups`: full attention comes first. -/
def attentionGroups (specs : List KVCacheSpec) : List AttentionGroup :=
  let groups := specs.zipIdx.foldl (fun groups e => addGroup groups e.1 e.2) []
  groups.filter (·.spec.isFullAttention) ++ groups.filter fun g => !g.spec.isFullAttention

namespace KVCacheManager

variable {η : Type} [DecidableEq η]

/-- The constructors with their assertions. -/
def new (config : KVCacheConfig) : Except KVError (KVCacheManager η) :=
  let specs := config.kvCacheGroups
  let unitary := specs.length = 1 ∧ ∀ spec ∈ specs, spec.blockSize = config.hashBlockSize
  let hybrid := specs.length ≠ 1 ∧ 1 < (attentionGroups specs).length ∧
    ∀ spec ∈ specs, spec.blockSize % config.hashBlockSize = 0
  if 0 < config.numBlocks ∧ (config.enableCaching = true → unitary ∨ hybrid) then
    .ok {
      maxModelLen := config.maxModelLen
      enableCaching := config.enableCaching
      eagleGroupIds := config.eagleGroupIds
      blockPool := .new config.numBlocks config.enableCaching config.hashBlockSize
      singleTypeManagers := specs.zipIdx.map fun (spec, i) =>
        { spec := spec
          groupId := i
          maxAdmissionBlocksPerRequest := spec.maxAdmissionBlocksPerRequest
            config.maxNumBatchedTokens config.maxModelLen } }
  else .error .assertion

section Coordinator

variable (m : KVCacheManager η)

omit [DecidableEq η] in
def specs : List KVCacheSpec := m.singleTypeManagers.map (·.spec)

omit [DecidableEq η] in
def isHybrid : Bool := m.enableCaching && m.singleTypeManagers.length ≠ 1

omit [DecidableEq η] in
def lcmBlockSize : ℕ := m.specs.foldl (fun n spec => Nat.lcm n spec.blockSize) 1

/-- The lookup of an attention group: a row of cached blocks for the hash of a block index. An index
behind the hashes is a miss, where `block_hashes[i]` raises an `IndexError`. -/
def lookupRow (hashes : List η) (group : AttentionGroup) (i : ℕ) : Option Row := do
  let hash ← BlockPool.groupHash hashes (group.spec.blockSize / m.blockPool.hashBlockSize) i
  m.blockPool.getCachedBlock hash group.groupIds

/-- The state of the fixed-point search: the current length, the rows found for every attention
group, and the attention groups whose drop of the last block is verified. -/
structure HitSearch where
  currHitLength : ℕ
  rows : List (Option (List Row))
  eagleVerified : List ℕ

/-- One attention group in a round of the search. -/
def searchGroup (hashes : List η) (maxCacheHitLength : ℕ) (s : HitSearch)
    (item : AttentionGroup × ℕ) : Except KVError HitSearch := do
  let (group, idx) := item
  let spec := group.spec
  if spec.isFullAttention ∧ (s.rows.getD idx none).isSome then
    return { s with currHitLength := s.currHitLength / spec.blockSize * spec.blockSize }
  else
    let useEagle := group.groupIds.any (· ∈ m.eagleGroupIds) && !(s.eagleVerified.contains idx)
    let maxLength :=
      if useEagle then min (s.currHitLength + spec.blockSize) maxCacheHitLength
      else s.currHitLength
    let rows ← findLongestCacheHit spec (m.lookupRow hashes group) group.groupIds.length
      maxLength m.lcmBlockSize useEagle
    let newHitLength := rows.length * spec.blockSize
    return {
      currHitLength := newHitLength
      rows := s.rows.set idx (some rows)
      eagleVerified :=
        if useEagle then idx :: s.eagleVerified
        else if newHitLength < s.currHitLength then [] else s.eagleVerified }

/-- The rounds of the search; every round but the last lowers the length, so `fuel` above the
first length suffices. -/
def searchRounds (hashes : List η) (maxCacheHitLength : ℕ) (groups : List AttentionGroup) :
    ℕ → HitSearch → Except KVError HitSearch
  | 0, s => .ok s
  | fuel + 1, s => do
      let hitLength := s.currHitLength
      let s ← groups.zipIdx.foldlM (m.searchGroup hashes maxCacheHitLength) s
      if hitLength ≤ s.currHitLength then return { s with currHitLength := hitLength }
      else
        let simple := groups.length = 2 ∧
          (groups.head?.map (·.spec.isFullAttention)).getD false = true
        if simple then return s
        else searchRounds hashes maxCacheHitLength groups fuel s

/-- The blocks of group `i`: a column of the rows of its attention group. -/
def groupHits (groups : List AttentionGroup) (rows : List (Option (List Row))) (i : ℕ) :
    List BlockId :=
  ((groups.zip rows).findSome? fun (group, found) =>
    (group.groupIds.idxOf? i).map fun j => (found.getD []).map (·.getD j nullBlock)).getD []

/-- `HybridKVCacheCoordinator.find_longest_cache_hit`. Only the first attention group is cut to
the final length. -/
def findLongestHybridHit (hashes : List η) (maxCacheHitLength : ℕ) :
    Except KVError (List (List BlockId) × ℕ) := do
  let groups := attentionGroups m.specs
  let s ← m.searchRounds hashes maxCacheHitLength groups (maxCacheHitLength + 1)
    ⟨maxCacheHitLength, groups.map fun _ => none, []⟩
  let rows := match groups.head?, s.rows with
    | some group, some first :: rest =>
        if group.spec.isFullAttention then
          some (first.take (s.currHitLength / group.spec.blockSize)) :: rest
        else s.rows
    | _, _ => s.rows
  return (m.singleTypeManagers.map fun manager => groupHits groups rows manager.groupId,
    s.currHitLength)

/-- `UnitaryKVCacheCoordinator.find_longest_cache_hit`. -/
def findLongestUnitaryHit (spec : KVCacheSpec) (hashes : List η) (maxCacheHitLength : ℕ) :
    Except KVError (List (List BlockId) × ℕ) := do
  let rows ← findLongestCacheHit spec (m.lookupRow hashes ⟨spec, [0]⟩) 1 maxCacheHitLength
    spec.blockSize (m.eagleGroupIds.contains 0)
  return ([rows.map (·.getD 0 nullBlock)], rows.length * spec.blockSize)

/-- `get_computed_blocks`: the blocks for each group and the number of computed tokens. -/
def getComputedBlocks (request : Request η) : Except KVError (List (List BlockId) × ℕ) :=
  if m.enableCaching = false ∨ request.skipReadingPrefixCache then
    .ok (m.singleTypeManagers.map fun _ => [], 0)
  else
    match m.singleTypeManagers with
    | [manager] =>
        m.findLongestUnitaryHit manager.spec request.blockHashes (request.numTokens - 1)
    | _ => m.findLongestHybridHit request.blockHashes (request.numTokens - 1)

end Coordinator

omit [DecidableEq η] in
/-- Go through the managers of the groups, with the pool they share. -/
def forManagers {α : Type} (f : BlockPool η → SingleTypeKVCacheManager → α →
      Except KVError (BlockPool η × SingleTypeKVCacheManager)) :
    BlockPool η → List SingleTypeKVCacheManager → List α →
      Except KVError (BlockPool η × List SingleTypeKVCacheManager)
  | pool, manager :: managers, a :: as => do
      let (pool, manager) ← f pool manager a
      let (pool, managers) ← forManagers f pool managers as
      return (pool, manager :: managers)
  | pool, managers, _ => .ok (pool, managers)

omit [DecidableEq η] in
/-- The same for an operation that cannot fail. -/
def mapManagers (m : KVCacheManager η) (f : BlockPool η → SingleTypeKVCacheManager →
    BlockPool η × SingleTypeKVCacheManager) : KVCacheManager η :=
  let (pool, managers) := m.singleTypeManagers.foldl
    (fun (pool, done) manager =>
      let (pool, manager) := f pool manager
      (pool, done ++ [manager])) (m.blockPool, [])
  { m with blockPool := pool, singleTypeManagers := managers }

omit [DecidableEq η] in
def getNumBlocksToAllocate (m : KVCacheManager η) (requestId : String) (numTokens : ℕ)
    (newComputedBlocks : List (List BlockId)) (totalComputedTokens : ℕ)
    (applyAdmissionCap : Bool) : Except KVError ℕ :=
  (m.singleTypeManagers.zip newComputedBlocks).foldlM (fun sum (manager, hits) =>
    (manager.getNumBlocksToAllocate m.blockPool requestId numTokens hits totalComputedTokens
      applyAdmissionCap).map (sum + ·)) 0

def allocateNewComputedBlocks (m : KVCacheManager η) (requestId : String)
    (newComputedBlocks : List (List BlockId))
    (numLocalComputedTokens numExternalComputedTokens : ℕ) : Except KVError (KVCacheManager η) := do
  let (pool, managers) ← forManagers (fun pool manager hits =>
    manager.allocateNewComputedBlocks pool requestId hits numLocalComputedTokens
      numExternalComputedTokens) m.blockPool m.singleTypeManagers newComputedBlocks
  return { m with blockPool := pool, singleTypeManagers := managers }

def allocateNewBlocks (m : KVCacheManager η) (requestId : String) (numTokens : ℕ) :
    Except KVError (KVCacheManager η × List (List BlockId)) := do
  let (pool, managers, blocks) ← m.singleTypeManagers.foldlM
    (fun (pool, done, blocks) manager => do
      let (pool, manager, newBlocks) ← manager.allocateNewBlocks pool requestId numTokens
      return (pool, done ++ [manager], blocks ++ [newBlocks])) (m.blockPool, [], [])
  return ({ m with blockPool := pool, singleTypeManagers := managers }, blocks)

/-- `cache_blocks` of the coordinator. -/
def cacheCoordinatedBlocks (m : KVCacheManager η) (request : Request η) (numComputedTokens : ℕ) :
    Except KVError (KVCacheManager η) := do
  let (numTokens, alignment) :=
    if m.isHybrid then
      (numComputedTokens / m.lcmBlockSize * m.lcmBlockSize, some m.lcmBlockSize)
    else (numComputedTokens, none)
  let (pool, managers) ← forManagers (fun pool manager _ =>
    manager.cacheBlocks pool request numTokens alignment) m.blockPool m.singleTypeManagers
    (m.singleTypeManagers.map fun _ => ())
  return { m with blockPool := pool, singleTypeManagers := managers }

def cacheBlocks (m : KVCacheManager η) (request : Request η) (numComputedTokens : ℕ) :
    Except KVError (KVCacheManager η) :=
  if m.enableCaching then m.cacheCoordinatedBlocks request numComputedTokens else .ok m

omit [DecidableEq η] in
def removeSkippedBlocks (m : KVCacheManager η) (requestId : String) (totalComputedTokens : ℕ) :
    KVCacheManager η :=
  m.mapManagers fun pool manager => manager.removeSkippedBlocks pool requestId totalComputedTokens

omit [DecidableEq η] in
def free (m : KVCacheManager η) (request : Request η) : KVCacheManager η :=
  m.mapManagers fun pool manager => manager.free pool request.requestId

def evictBlocks (m : KVCacheManager η) (blockIds : List BlockId) :
    Except KVError (KVCacheManager η) :=
  (m.blockPool.evictBlocks blockIds).map fun pool => { m with blockPool := pool }

omit [DecidableEq η] in
def resetPrefixCache (m : KVCacheManager η) : KVCacheManager η × Bool :=
  let (pool, done) := m.blockPool.resetPrefixCache
  ({ m with blockPool := pool }, done)

/-- The arguments of `allocate_slots`. -/
structure SlotArgs where
  numNewTokens : ℕ
  numNewComputedTokens : ℕ := 0
  newComputedBlocks : List (List BlockId)
  numLookaheadTokens : ℕ := 0
  numExternalComputedTokens : ℕ := 0
  delayCacheBlocks : Bool := false
  fullSequenceMustFit : Bool := false

section AllocateSlots

variable (m : KVCacheManager η) (request : Request η) (args : SlotArgs)

omit [DecidableEq η] in
def numLocalComputedTokens : ℕ := request.numComputedTokens + args.numNewComputedTokens

omit [DecidableEq η] in
def totalComputedTokens : ℕ :=
  min (numLocalComputedTokens request args + args.numExternalComputedTokens) m.maxModelLen

omit [DecidableEq η] in
def numTokensNeedSlot : ℕ :=
  min (m.totalComputedTokens request args + args.numNewTokens + args.numLookaheadTokens)
    m.maxModelLen

omit [DecidableEq η] in
/-- The check of `full_sequence_must_fit`. -/
def fullSequenceFits : Except KVError Bool :=
  if args.fullSequenceMustFit then
    (m.getNumBlocksToAllocate request.requestId (min request.numTokens m.maxModelLen)
      args.newComputedBlocks (m.totalComputedTokens request args) true).map fun n =>
        decide ((n : ℤ) ≤ m.blockPool.numFreeBlocks)
  else .ok true

omit [DecidableEq η] in
/-- The number of blocks that `allocate_slots` predicts for the step. -/
def numBlocksToAllocate : Except KVError ℕ :=
  m.getNumBlocksToAllocate request.requestId (m.numTokensNeedSlot request args)
    args.newComputedBlocks
    (numLocalComputedTokens request args + args.numExternalComputedTokens) false

/-- `allocate_slots` behind its capacity checks. -/
def allocateChecked : Except KVError (KVCacheManager η × List (List BlockId)) := do
  let m' ←
    if (∃ hits ∈ args.newComputedBlocks, hits ≠ []) ∨ 0 < args.numExternalComputedTokens then
      m.allocateNewComputedBlocks request.requestId args.newComputedBlocks
        (numLocalComputedTokens request args) args.numExternalComputedTokens
    else .ok m
  m'.allocateNewBlocks request.requestId (m.numTokensNeedSlot request args)

/-- `allocate_slots`; no blocks stand for `None`. -/
def allocateSlots : Except KVError (KVCacheManager η × Option (List (List BlockId))) := do
  if args.numNewTokens = 0 ∧ args.numExternalComputedTokens = 0 then .error .valueError
  else if !(← m.fullSequenceFits request args) then return (m, none)
  else
    let total := m.totalComputedTokens request args
    let m := m.removeSkippedBlocks request.requestId total
    let numBlocksToAllocate ← m.numBlocksToAllocate request args
    if m.blockPool.numFreeBlocks < numBlocksToAllocate then return (m, none)
    else
      let (m, newBlocks) ← m.allocateChecked request args
      if m.enableCaching = false ∨ args.delayCacheBlocks then return (m, some newBlocks)
      else
        let m ← m.cacheCoordinatedBlocks request (min (total + args.numNewTokens) request.numTokens)
        return (m, some newBlocks)

end AllocateSlots

/-- A call of the manager. -/
inductive CacheOp (η : Type)
  | allocateSlots (request : Request η) (args : SlotArgs)
  | cacheBlocks (request : Request η) (numComputedTokens : ℕ)
  | removeSkippedBlocks (requestId : String) (totalComputedTokens : ℕ)
  | free (request : Request η)
  | evictBlocks (blockIds : List BlockId)
  | resetPrefixCache

/-- The manager after a call. -/
def perform (m : KVCacheManager η) : CacheOp η → Except KVError (KVCacheManager η)
  | .allocateSlots request args => (m.allocateSlots request args).map Prod.fst
  | .cacheBlocks request numComputedTokens => m.cacheBlocks request numComputedTokens
  | .removeSkippedBlocks requestId totalComputedTokens =>
      .ok (m.removeSkippedBlocks requestId totalComputedTokens)
  | .free request => .ok (m.free request)
  | .evictBlocks blockIds => m.evictBlocks blockIds
  | .resetPrefixCache => .ok m.resetPrefixCache.1

end KVCacheManager

end TokenCake.KV
