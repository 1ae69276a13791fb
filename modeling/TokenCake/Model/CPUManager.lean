import TokenCake.Model.CachePolicy

/-! # The CPU offloading manager

`CPUOffloadingManager` owns the CPU block pool and the reference counts of the offloaded
blocks. A failed assertion of the source is an `Except` error naming the assertion. -/

namespace TokenCake.Offload

/-- The assertions of the manager and of the lifecycle registry. -/
inductive AssertionFailure where
  | loadNotFound
  | loadNotReady
  | releaseUnreferenced
  | completeLoadNotFound
  | completeLoadUnreferenced
  | allocateBlocks
  | managerMissing
  | notStarted
  deriving DecidableEq, Repr

structure OffloadingEvent (κ : Type*) where
  keys : List κ
  medium : String
  removed : Bool

structure PrepareStoreOutput (κ : Type*) where
  keysToStore : List κ
  storeSpec : List ℕ
  evictedKeys : List κ

structure CPUOffloadingManager (κ : Type*) where
  numBlocks : ℕ
  numAllocatedBlocks : ℕ
  freeList : List ℕ
  events : Option (List (OffloadingEvent κ))
  policy : CachePolicy κ
  storeThreshold : ℕ
  maxTrackerSize : ℕ
  counts : Option (OrdDict κ ℕ)

/-- The medium that the events of this manager name. -/
def medium : String := "CPU"

inductive PolicyName where
  | lru
  | arc

namespace CPUOffloadingManager

variable {κ : Type*} [DecidableEq κ]

def new (numBlocks : ℕ) (cachePolicy : PolicyName) (enableEvents : Bool)
    (storeThreshold maxTrackerSize : ℕ) : CPUOffloadingManager κ where
  numBlocks := numBlocks
  numAllocatedBlocks := 0
  freeList := []
  events := if enableEvents then some [] else none
  policy := match cachePolicy with
    | .lru => .lru .new
    | .arc => .arc (.new numBlocks)
  storeThreshold := storeThreshold
  maxTrackerSize := maxTrackerSize
  counts := if 2 ≤ storeThreshold then some .empty else none

/-! ## Block pool -/

def getNumFreeBlocks (m : CPUOffloadingManager κ) : ℤ :=
  m.freeList.length + m.numBlocks - m.numAllocatedBlocks

/-- `count` blocks of the pool: first those never used, then those freed last. -/
def allocateBlocks (m : CPUOffloadingManager κ) (count : ℕ) :
    Except AssertionFailure (List BlockStatus × CPUOffloadingManager κ) :=
  let numFresh := min count (m.numBlocks - m.numAllocatedBlocks)
  let numReused := count - numFresh
  if numReused ≤ m.freeList.length then
    let fresh := (List.range numFresh).map fun i => BlockStatus.ofId (m.numAllocatedBlocks + i)
    let reused := (m.freeList.reverse.take numReused).map BlockStatus.ofId
    .ok (fresh ++ reused,
      { m with
        numAllocatedBlocks := m.numAllocatedBlocks + numFresh
        freeList := (m.freeList.reverse.drop numReused).reverse })
  else .error .allocateBlocks

def freeBlock (m : CPUOffloadingManager κ) (block : BlockStatus) : CPUOffloadingManager κ :=
  { m with freeList := m.freeList ++ [block.blockId] }

def emit (m : CPUOffloadingManager κ) (keys : List κ) (removed : Bool) :
    CPUOffloadingManager κ :=
  if keys.isEmpty then m
  else { m with events := m.events.map (· ++ [⟨keys, medium, removed⟩]) }

/-! ## Lookups and references -/

/-- The reference tracker of `lookup`, bounded by dropping its oldest key. -/
def trackLookup (m : CPUOffloadingManager κ) (key : κ) : CPUOffloadingManager κ :=
  { m with counts := m.counts.map fun counts =>
      if counts.contains key then (counts.moveToEnd key).modify key (· + 1)
      else
        (if m.maxTrackerSize ≤ counts.size then counts.popFirst else counts).insert key 1 }

/-- `none` stands for a write in flight: the caller should retry. -/
def lookup (m : CPUOffloadingManager κ) (key : κ) : Option Bool × CPUOffloadingManager κ :=
  let m := m.trackLookup key
  match m.policy.get key with
  | none => (some false, m)
  | some block => (if block.isReady then some true else none, m)

/-- Add `delta` to the reference count of the block under `key`. -/
def addRef (m : CPUOffloadingManager κ) (key : κ) (delta : ℤ) : CPUOffloadingManager κ :=
  { m with policy := m.policy.modify key fun b => { b with refCnt := b.refCnt + delta } }

def prepareLoad : CPUOffloadingManager κ → List κ →
    Except AssertionFailure (List ℕ × CPUOffloadingManager κ)
  | m, [] => .ok ([], m)
  | m, key :: keys =>
      match m.policy.get key with
      | none => .error .loadNotFound
      | some block =>
          if block.isReady then
            ((m.addRef key 1).prepareLoad keys).map fun (ids, m') => (block.blockId :: ids, m')
          else .error .loadNotReady

def touch (m : CPUOffloadingManager κ) (keys : List κ) : CPUOffloadingManager κ :=
  { m with policy := m.policy.touch keys }

def isKeyReady (m : CPUOffloadingManager κ) (key : κ) : Bool :=
  match m.policy.get key with
  | some block => block.isReady
  | none => false

/-- Retain each distinct ready key using the eviction reference count. -/
def retain (m : CPUOffloadingManager κ) (keys : List κ) : List κ × CPUOffloadingManager κ :=
  keys.dedup.foldl (fun (retained, m) key =>
    if m.isKeyReady key then (retained ++ [key], m.addRef key 1) else (retained, m)) ([], m)

def isKeyReferenced (m : CPUOffloadingManager κ) (key : κ) : Bool :=
  match m.policy.get key with
  | some block => decide (0 < block.refCnt)
  | none => false

/-- Release one retained reference for each distinct key without evicting cache data. -/
def release (m : CPUOffloadingManager κ) (keys : List κ) :
    Except AssertionFailure (CPUOffloadingManager κ) :=
  if keys.dedup.all m.isKeyReferenced then
    .ok (keys.dedup.foldl (fun m key => m.addRef key (-1)) m)
  else .error .releaseUnreferenced

def completeLoad : CPUOffloadingManager κ → List κ →
    Except AssertionFailure (CPUOffloadingManager κ)
  | m, [] => .ok m
  | m, key :: keys =>
      match m.policy.get key with
      | none => .error .completeLoadNotFound
      | some block =>
          if 0 < block.refCnt then (m.addRef key (-1)).completeLoad keys
          else .error .completeLoadUnreferenced

/-! ## Stores -/

/-- The keys that `lookup` has seen often enough. -/
def thresholdFilter (m : CPUOffloadingManager κ) (keys : List κ) : List κ :=
  match m.counts with
  | none => keys
  | some counts => keys.filter fun k => decide (m.storeThreshold ≤ (counts.get? k).getD 0)

/-- Make room for `count` blocks. The keys of the call are protected: a block that was
already stored must remain in the cache. -/
def makeRoom (m : CPUOffloadingManager κ) (keys : List κ) (count : ℕ) :
    Option (List κ) × CPUOffloadingManager κ :=
  let numBlocksToEvict := (count : ℤ) - m.getNumFreeBlocks
  if 0 < numBlocksToEvict then
    match m.policy.evict numBlocksToEvict.toNat keys with
    | (none, policy) => (none, { m with policy := policy })
    | (some evicted, policy) => (some (evicted.map Prod.fst),
        evicted.foldl (fun m e => m.freeBlock e.2) { m with policy := policy })
  else (some [], m)

/-- `none` inside the result stands for the source's `None`: no room could be made. -/
def prepareStore (m : CPUOffloadingManager κ) (keys : List κ) :
    Except AssertionFailure (Option (PrepareStoreOutput κ) × CPUOffloadingManager κ) :=
  let keys := m.thresholdFilter keys
  let keysToStore := keys.filter fun k => (m.policy.get k).isNone
  if keysToStore.isEmpty then .ok (some ⟨[], [], []⟩, m)
  else
    match m.makeRoom keys keysToStore.length with
    | (none, m') => .ok (none, m')
    | (some toEvict, m') => do
        let (blocks, m'') ← (m'.emit toEvict true).allocateBlocks keysToStore.length
        let policy := (keysToStore.zip blocks).foldl (fun p e => p.insert e.1 e.2) m''.policy
        return (some ⟨keysToStore, blocks.map BlockStatus.blockId, toEvict⟩,
          { m'' with policy := policy })

/-- One key of a successful store: a block in flight becomes ready. -/
def markStored (m : CPUOffloadingManager κ) (key : κ) : CPUOffloadingManager κ :=
  { m with policy := m.policy.modify key fun b => { b with refCnt := 0 } }

/-- One key of a failed store: a block in flight is dropped and its slot freed. -/
def dropUnready (m : CPUOffloadingManager κ) (key : κ) : CPUOffloadingManager κ :=
  match m.policy.get key with
  | none => m
  | some block =>
      if block.isReady then m
      else { m with policy := m.policy.remove key }.freeBlock block

def isKeyInFlight (m : CPUOffloadingManager κ) (key : κ) : Bool :=
  match m.policy.get key with
  | some block => !block.isReady
  | none => false

def completeStore (m : CPUOffloadingManager κ) (keys : List κ) (success : Bool) :
    CPUOffloadingManager κ :=
  if success then
    let (storedKeys, m) := keys.foldl (fun (storedKeys, m) key =>
      if m.isKeyInFlight key then (storedKeys ++ [key], m.markStored key)
      else (storedKeys, m)) (([] : List κ), m)
    m.emit storedKeys false
  else keys.foldl dropUnready m

/-- Clear all blocks regardless of their reference counts. -/
def resetCache (m : CPUOffloadingManager κ) : CPUOffloadingManager κ :=
  { m with policy := m.policy.clear, freeList := [], numAllocatedBlocks := 0 }

/-! ## Runs of the manager -/

end CPUOffloadingManager

inductive ManagerOp (κ : Type*) where
  | lookup (key : κ)
  | touch (keys : List κ)
  | prepareLoad (keys : List κ)
  | completeLoad (keys : List κ)
  | retain (keys : List κ)
  | release (keys : List κ)
  | prepareStore (keys : List κ)
  | completeStore (keys : List κ) (success : Bool)
  | resetCache

/-- The keys of a call. -/
def ManagerOp.keys {κ : Type*} : ManagerOp κ → List κ
  | .lookup key => [key]
  | .touch keys | .prepareLoad keys | .completeLoad keys | .retain keys | .release keys
  | .prepareStore keys | .completeStore keys _ => keys
  | .resetCache => []

namespace CPUOffloadingManager

variable {κ : Type*} [DecidableEq κ]

def step (m : CPUOffloadingManager κ) :
    ManagerOp κ → Except AssertionFailure (CPUOffloadingManager κ)
  | .lookup key => .ok (m.lookup key).2
  | .touch keys => .ok (m.touch keys)
  | .prepareLoad keys => (m.prepareLoad keys).map Prod.snd
  | .completeLoad keys => m.completeLoad keys
  | .retain keys => .ok (m.retain keys).2
  | .release keys => m.release keys
  | .prepareStore keys => (m.prepareStore keys).map Prod.snd
  | .completeStore keys success => .ok (m.completeStore keys success)
  | .resetCache => .ok m.resetCache

/-- A call with distinct keys whose assertions hold. -/
def Next (m : CPUOffloadingManager κ) (op : ManagerOp κ) (m' : CPUOffloadingManager κ) : Prop :=
  op.keys.Nodup ∧ m.step op = .ok m'

end CPUOffloadingManager

end TokenCake.Offload
