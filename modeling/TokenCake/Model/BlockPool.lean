import Mathlib.Algebra.Order.Floor.Div
import TokenCake.Lib.OrdDict

/-! # The GPU block pool

`BlockPool` with its free queue and its map from hashes to cached blocks. `η` is the type of
block hashes. A block is its id; block `0` is the null block. -/

namespace TokenCake.KV

abbrev BlockId := ℕ

/-- The placeholder of the pool (`is_null`), whose reference count is not maintained. -/
def nullBlock : BlockId := 0

/-- A hash with its group id. A hash of a group with larger blocks joins several hashes of the
request. -/
abbrev BlockKey (η : Type) := List η × ℕ

/-- Exceptions: the `ValueError`s, the `RuntimeError` of the free queue, an index out of range,
the assertions `block.ref_cnt == 0` and `blk.block_hash is None`, and all other assertions. -/
inductive KVError where
  | valueError
  | runtimeError
  | indexError
  | refCntAssertion
  | blockHashAssertion
  | assertion
  deriving DecidableEq, Repr

structure KVCacheBlock (η : Type) where
  refCnt : ℤ := 0
  blockHash : Option (BlockKey η) := none

/-! ## Cached blocks by hash -/

/-- A value of the map: a block, or a dictionary of blocks in the order of their arrival. -/
inductive CachedBlocks where
  | one (block : BlockId)
  | many (blocks : List BlockId)
  deriving DecidableEq, Repr

abbrev BlockHashToBlockMap (η : Type) := OrdDict (BlockKey η) CachedBlocks

namespace BlockHashToBlockMap

variable {η : Type} [DecidableEq η]

def getOneBlock (cache : BlockHashToBlockMap η) (key : BlockKey η) : Option BlockId :=
  match cache.get? key with
  | none => none
  | some (.one block) => some block
  | some (.many blocks) => blocks.head?

def insertBlock (cache : BlockHashToBlockMap η) (key : BlockKey η) (block : BlockId) :
    BlockHashToBlockMap η :=
  match cache.get? key with
  | none => cache.insert key (.one block)
  | some (.one old) => cache.insert key (.many (if block = old then [old] else [old, block]))
  | some (.many blocks) =>
      cache.insert key (.many (if block ∈ blocks then blocks else blocks ++ [block]))

/-- `pop`: the map without the block, and whether the block was there. -/
def pop (cache : BlockHashToBlockMap η) (key : BlockKey η) (block : BlockId) :
    BlockHashToBlockMap η × Bool :=
  match cache.get? key with
  | none => (cache, false)
  | some (.one old) => if old = block then (cache.erase key, true) else (cache, false)
  | some (.many blocks) =>
      let rest := blocks.filter (· ≠ block)
      (if rest = [] then cache.erase key else cache.insert key (.many rest), block ∈ blocks)

end BlockHashToBlockMap

/-! ## The pool -/

/-- The free queue is a list here, its counter is kept beside it as in the source. -/
structure BlockPool (η : Type) where
  numGpuBlocks : ℕ
  enableCaching : Bool
  hashBlockSize : ℕ
  blocks : BlockId → KVCacheBlock η
  freeBlockQueue : List BlockId
  numFreeBlocks : ℤ
  cachedBlockHashToBlock : BlockHashToBlockMap η

namespace BlockPool

variable {η : Type} [DecidableEq η]

omit [DecidableEq η] in
/-- The null block has been taken off the front of the queue. -/
def new (numGpuBlocks : ℕ) (enableCaching : Bool) (hashBlockSize : ℕ) : BlockPool η where
  numGpuBlocks := numGpuBlocks
  enableCaching := enableCaching
  hashBlockSize := hashBlockSize
  blocks := fun _ => {}
  freeBlockQueue := List.range' 1 (numGpuBlocks - 1)
  numFreeBlocks := (numGpuBlocks : ℤ) - 1
  cachedBlockHashToBlock := .empty

omit [DecidableEq η] in
def update (pool : BlockPool η) (b : BlockId) (f : KVCacheBlock η → KVCacheBlock η) :
    BlockPool η :=
  { pool with blocks := Function.update pool.blocks b (f (pool.blocks b)) }

/-! ### Looking up and caching -/

/-- The cached blocks of a hash for every group of the list. -/
def getCachedBlock (pool : BlockPool η) (hash : List η) (groupIds : List ℕ) :
    Option (List BlockId) :=
  groupIds.mapM fun g => pool.cachedBlockHashToBlock.getOneBlock (hash, g)

/-- `blk.block_hash = key` and the insertion into the map. -/
def cacheBlock (pool : BlockPool η) (b : BlockId) (key : BlockKey η) : BlockPool η :=
  let pool := pool.update b fun block => { block with blockHash := some key }
  { pool with cachedBlockHashToBlock := pool.cachedBlockHashToBlock.insertBlock key b }

/-- The hashes of a request at the granularity of a group: entry `i` joins `scale` hashes. -/
def groupHash (hashes : List η) (scale i : ℕ) : Option (List η) :=
  if (i + 1) * scale ≤ hashes.length then some ((hashes.drop (i * scale)).take scale) else none

/-- The body of the loop of `cache_full_blocks` for the block at index `i` of the table. -/
def cacheFullBlock (hashes : List η) (scale groupId : ℕ) (pool : BlockPool η)
    (item : (BlockId × Bool) × ℕ) : Except KVError (BlockPool η) :=
  let ((b, keep), i) := item
  if b = nullBlock ∨ keep = false then .ok pool
  else if (pool.blocks b).blockHash.isSome then .error .blockHashAssertion
  else
    match groupHash hashes scale i with
    | none => .error .indexError
    | some hash => .ok (pool.cacheBlock b (hash, groupId))

def cacheFullBlocks (pool : BlockPool η) (hashes : List η) (blocks : List BlockId)
    (numCachedBlocks numFullBlocks blockSize groupId : ℕ) (blockMask : Option (List Bool)) :
    Except KVError (BlockPool η) :=
  if numFullBlocks ≤ numCachedBlocks then .ok pool
  else
    let newFullBlocks := (blocks.take numFullBlocks).drop numCachedBlocks
    let mask := blockMask.getD (List.replicate newFullBlocks.length true)
    if hashes.length < numFullBlocks ∨ mask.length ≠ newFullBlocks.length then .error .assertion
    else if blockSize % pool.hashBlockSize ≠ 0 then .error .assertion
    else
      ((newFullBlocks.zip mask).zipIdx numCachedBlocks).foldlM
        (cacheFullBlock hashes (blockSize / pool.hashBlockSize) groupId) pool

/-! ### Taking and returning blocks -/

def maybeEvictCachedBlock (pool : BlockPool η) (b : BlockId) : BlockPool η :=
  match (pool.blocks b).blockHash with
  | none => pool
  | some key =>
      let (cache, found) := pool.cachedBlockHashToBlock.pop key b
      if found then
        { pool.update b fun block => { block with blockHash := none } with
          cachedBlockHashToBlock := cache }
      else { pool with cachedBlockHashToBlock := cache }

omit [DecidableEq η] in
/-- `popleft_n`. A count below zero pops nothing, but moves the counter; a queue that is shorter
than its counter says is an error here (the source would run into its sentinel). -/
def popleftN (pool : BlockPool η) (n : ℤ) : Except KVError (List BlockId × BlockPool η) :=
  if n = 0 then .ok ([], pool)
  else if pool.numFreeBlocks < n ∨ pool.freeBlockQueue.length < n.toNat then .error .assertion
  else .ok (pool.freeBlockQueue.take n.toNat,
    { pool with
      freeBlockQueue := pool.freeBlockQueue.drop n.toNat
      numFreeBlocks := pool.numFreeBlocks - n })

/-- The loop of `get_new_blocks` for one block. -/
def takeBlock (pool : BlockPool η) (b : BlockId) : Except KVError (BlockPool η) :=
  let pool := if pool.enableCaching then pool.maybeEvictCachedBlock b else pool
  if (pool.blocks b).refCnt ≠ 0 then .error .refCntAssertion
  else .ok (pool.update b fun block => { block with refCnt := block.refCnt + 1 })

def getNewBlocks (pool : BlockPool η) (numBlocks : ℤ) :
    Except KVError (List BlockId × BlockPool η) := do
  if pool.numFreeBlocks < numBlocks then .error .valueError
  else
    let (ret, pool) ← pool.popleftN numBlocks
    let pool ← ret.foldlM takeBlock pool
    return (ret, pool)

omit [DecidableEq η] in
def touchBlock (pool : BlockPool η) (b : BlockId) : Except KVError (BlockPool η) :=
  let touched := pool.update b fun block => { block with refCnt := block.refCnt + 1 }
  if (pool.blocks b).refCnt = 0 ∧ b ≠ nullBlock then
    if b ∈ pool.freeBlockQueue then
      .ok { touched with
        freeBlockQueue := pool.freeBlockQueue.erase b
        numFreeBlocks := pool.numFreeBlocks - 1 }
    else .error .runtimeError
  else .ok touched

omit [DecidableEq η] in
def touch (pool : BlockPool η) (blocks : List BlockId) : Except KVError (BlockPool η) :=
  blocks.foldlM touchBlock pool

omit [DecidableEq η] in
def freeBlocks (pool : BlockPool η) (orderedBlocks : List BlockId) : BlockPool η :=
  let pool := orderedBlocks.foldl
    (fun pool b => pool.update b fun block => { block with refCnt := block.refCnt - 1 }) pool
  let freed := orderedBlocks.filter fun b => decide ((pool.blocks b).refCnt = 0 ∧ b ≠ nullBlock)
  { pool with
    freeBlockQueue := pool.freeBlockQueue ++ freed
    numFreeBlocks := pool.numFreeBlocks + freed.length }

def evictBlocks (pool : BlockPool η) (blockIds : List BlockId) : Except KVError (BlockPool η) :=
  blockIds.foldlM (fun pool b =>
    if b < pool.numGpuBlocks then .ok (pool.maybeEvictCachedBlock b) else .error .assertion) pool

omit [DecidableEq η] in
def resetPrefixCache (pool : BlockPool η) : BlockPool η × Bool :=
  if (pool.numGpuBlocks : ℤ) - pool.numFreeBlocks ≠ 1 then (pool, false)
  else
    ({ pool with
      cachedBlockHashToBlock := .empty
      blocks := fun b => { pool.blocks b with blockHash := none } }, true)

end BlockPool

end TokenCake.KV
