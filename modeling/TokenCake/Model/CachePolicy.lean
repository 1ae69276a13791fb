import Mathlib.Algebra.Order.Ring.Rat
import Mathlib.Data.Rat.Floor
import TokenCake.Lib.OrdDict

/-! # Cache policies of the CPU tier

`LRUCachePolicy` and `ARCCachePolicy` decide which offloaded blocks stay in CPU memory.
Python's ordered dictionaries are `OrdDict`, its sets are lists read by membership, and
the adaptive target of ARC is an exact rational. -/

namespace TokenCake.Offload

/-- Offloading status of one block. A reference count of `-1` means that the block is not
yet ready to be read. -/
structure BlockStatus where
  refCnt : ℤ
  blockId : ℕ
  deriving DecidableEq, Repr

/-- A fresh block is not ready. -/
def BlockStatus.ofId (blockId : ℕ) : BlockStatus := ⟨-1, blockId⟩

def BlockStatus.isReady (block : BlockStatus) : Bool := decide (0 ≤ block.refCnt)

/-- `int(x)` of a float: rounding towards zero. -/
def truncate (x : ℚ) : ℤ := if 0 ≤ x then ⌊x⌋ else ⌈x⌉

variable {κ : Type*}

structure LRUCachePolicy (κ : Type*) where
  blocks : OrdDict κ BlockStatus

/-- `t1` and `t2` hold the blocks seen once and more than once, `b1` and `b2` the keys
recently evicted from them. -/
structure ARCCachePolicy (κ : Type*) where
  cacheCapacity : ℕ
  targetT1Size : ℚ
  t1 : OrdDict κ BlockStatus
  t2 : OrdDict κ BlockStatus
  b1 : OrdDict κ Unit
  b2 : OrdDict κ Unit

inductive CachePolicy (κ : Type*) where
  | lru (policy : LRUCachePolicy κ)
  | arc (policy : ARCCachePolicy κ)

instance [DecidableEq κ] : DecidableEq (LRUCachePolicy κ) := fun p q =>
  decidable_of_iff (p.blocks = q.blocks) <| by cases p; cases q; simp

instance [DecidableEq κ] : DecidableEq (ARCCachePolicy κ) := fun p q =>
  decidable_of_iff (p.cacheCapacity = q.cacheCapacity ∧ p.targetT1Size = q.targetT1Size ∧
    p.t1 = q.t1 ∧ p.t2 = q.t2 ∧ p.b1 = q.b1 ∧ p.b2 = q.b2) <| by cases p; cases q; simp

variable [DecidableEq κ]

/-! ## Least recently used -/

namespace LRUCachePolicy

def new : LRUCachePolicy κ := ⟨.empty⟩

def get (p : LRUCachePolicy κ) (key : κ) : Option BlockStatus := p.blocks.get? key

/-- Assignment through the block that `get` returns. -/
def modify (p : LRUCachePolicy κ) (key : κ) (f : BlockStatus → BlockStatus) :
    LRUCachePolicy κ := ⟨p.blocks.modify key f⟩

def insert (p : LRUCachePolicy κ) (key : κ) (block : BlockStatus) : LRUCachePolicy κ :=
  ⟨p.blocks.insert key block⟩

def remove (p : LRUCachePolicy κ) (key : κ) : LRUCachePolicy κ := ⟨p.blocks.erase key⟩

def touch (p : LRUCachePolicy κ) (keys : List κ) : LRUCachePolicy κ :=
  ⟨keys.reverse.foldl OrdDict.moveToEnd p.blocks⟩

def clear (_ : LRUCachePolicy κ) : LRUCachePolicy κ := ⟨.empty⟩

/-- The first `n` unreferenced and unprotected blocks, oldest first, and the policy after the
call. -/
def evict (p : LRUCachePolicy κ) (n : ℕ) (protectedKeys : List κ) :
    Option (List (κ × BlockStatus)) × LRUCachePolicy κ :=
  if n = 0 then (some [], p) else
    let candidates := (p.blocks.entries.filter fun e =>
      decide (e.2.refCnt = 0 ∧ e.1 ∉ protectedKeys)).take n
    if candidates.length < n then (none, p)
    else (some candidates, ⟨candidates.foldl (fun d e => d.erase e.1) p.blocks⟩)

end LRUCachePolicy

/-! ## Adaptive replacement -/

namespace ARCCachePolicy

def new (cacheCapacity : ℕ) : ARCCachePolicy κ :=
  ⟨cacheCapacity, 0, .empty, .empty, .empty, .empty⟩

def get (p : ARCCachePolicy κ) (key : κ) : Option BlockStatus :=
  (p.t1.get? key).or (p.t2.get? key)

/-- Assignment through the block that `get` returns. -/
def modify (p : ARCCachePolicy κ) (key : κ) (f : BlockStatus → BlockStatus) :
    ARCCachePolicy κ :=
  if p.t1.contains key then { p with t1 := p.t1.modify key f }
  else { p with t2 := p.t2.modify key f }

def insert (p : ARCCachePolicy κ) (key : κ) (block : BlockStatus) : ARCCachePolicy κ :=
  { p with t1 := p.t1.insert key block, b1 := p.b1.erase key, b2 := p.b2.erase key }

def remove (p : ARCCachePolicy κ) (key : κ) : ARCCachePolicy κ :=
  if p.t1.contains key then { p with t1 := p.t1.erase key }
  else { p with t2 := p.t2.erase key }

/-- One key of `touch`: a hit promotes or refreshes the block, a ghost hit moves the
target size of `t1`. -/
def touchKey (p : ARCCachePolicy κ) (key : κ) : ARCCachePolicy κ :=
  match p.t1.get? key with
  | some block =>
      if block.isReady then
        { p with t1 := p.t1.erase key, t2 := p.t2.insert key block }
      else { p with t1 := (p.t1.erase key).insert key block }
  | none =>
      if p.t2.contains key then { p with t2 := p.t2.moveToEnd key }
      else if p.b1.contains key then
        let delta : ℚ := max 1 (p.b2.size / p.b1.size)
        { p with
          targetT1Size := min (p.targetT1Size + delta) p.cacheCapacity
          b1 := p.b1.moveToEnd key }
      else if p.b2.contains key then
        let delta : ℚ := max 1 (p.b1.size / p.b2.size)
        { p with
          targetT1Size := max (p.targetT1Size - delta) 0
          b2 := p.b2.moveToEnd key }
      else p

def touch (p : ARCCachePolicy κ) (keys : List κ) : ARCCachePolicy κ :=
  keys.reverse.foldl touchKey p

def clear (p : ARCCachePolicy κ) : ARCCachePolicy κ := new p.cacheCapacity

/-- A block chosen for eviction and whether it comes from `t1`. -/
structure Candidate (κ : Type*) where
  key : κ
  block : BlockStatus
  fromT1 : Bool

def findEvictable (d : OrdDict κ BlockStatus) (protectedKeys selected : List κ) :
    Option (κ × BlockStatus) :=
  d.entries.find? fun e =>
    decide (e.2.refCnt = 0 ∧ e.1 ∉ protectedKeys ∧ e.1 ∉ selected)

/-- The next victim, given the size `t1` would have after the victims already selected. -/
def nextCandidate (p : ARCCachePolicy κ) (protectedKeys selected : List κ)
    (virtualT1Size : ℤ) : Option (Candidate κ) :=
  let fromT1 := if truncate p.targetT1Size ≤ virtualT1Size
    then findEvictable p.t1 protectedKeys selected else none
  match fromT1 with
  | some (key, block) => some ⟨key, block, true⟩
  | none => (findEvictable p.t2 protectedKeys selected).map fun e => ⟨e.1, e.2, false⟩

/-- Select `n` victims without touching the lists; `none` if there are not enough. -/
def selectCandidates (p : ARCCachePolicy κ) (protectedKeys : List κ) :
    ℕ → List κ → ℤ → Option (List (Candidate κ))
  | 0, _, _ => some []
  | n + 1, selected, virtualT1Size =>
      match p.nextCandidate protectedKeys selected virtualT1Size with
      | none => none
      | some c =>
          (p.selectCandidates protectedKeys n (c.key :: selected)
            (if c.fromT1 then virtualT1Size - 1 else virtualT1Size)).map (c :: ·)

def applyEviction (p : ARCCachePolicy κ) (c : Candidate κ) : ARCCachePolicy κ :=
  if c.fromT1 then { p with t1 := p.t1.erase c.key, b1 := p.b1.insert c.key () }
  else { p with t2 := p.t2.erase c.key, b2 := p.b2.insert c.key () }

/-- Bound a ghost list, dropping its oldest keys. -/
def trimGhost (cacheCapacity : ℕ) (ghost : OrdDict κ Unit) : OrdDict κ Unit :=
  OrdDict.popFirst^[ghost.size - cacheCapacity] ghost

def evict (p : ARCCachePolicy κ) (n : ℕ) (protectedKeys : List κ) :
    Option (List (κ × BlockStatus)) × ARCCachePolicy κ :=
  if n = 0 then (some [], p) else
    match p.selectCandidates protectedKeys n [] p.t1.size with
    | none => (none, p)
    | some candidates =>
        let p' := candidates.foldl applyEviction p
        (some (candidates.map fun c => (c.key, c.block)),
          { p' with
            b1 := trimGhost p.cacheCapacity p'.b1
            b2 := trimGhost p.cacheCapacity p'.b2 })

end ARCCachePolicy

/-! ## The common interface -/

namespace CachePolicy

def get : CachePolicy κ → κ → Option BlockStatus
  | lru p => p.get
  | arc p => p.get

def modify : CachePolicy κ → κ → (BlockStatus → BlockStatus) → CachePolicy κ
  | lru p, key, f => lru (p.modify key f)
  | arc p, key, f => arc (p.modify key f)

def insert : CachePolicy κ → κ → BlockStatus → CachePolicy κ
  | lru p, key, block => lru (p.insert key block)
  | arc p, key, block => arc (p.insert key block)

def remove : CachePolicy κ → κ → CachePolicy κ
  | lru p, key => lru (p.remove key)
  | arc p, key => arc (p.remove key)

def touch : CachePolicy κ → List κ → CachePolicy κ
  | lru p, keys => lru (p.touch keys)
  | arc p, keys => arc (p.touch keys)

def clear : CachePolicy κ → CachePolicy κ
  | lru p => lru p.clear
  | arc p => arc p.clear

def evict : CachePolicy κ → ℕ → List κ → Option (List (κ × BlockStatus)) × CachePolicy κ
  | lru p, n, protectedKeys => (p.evict n protectedKeys).map id lru
  | arc p, n, protectedKeys => (p.evict n protectedKeys).map id arc

end CachePolicy

end TokenCake.Offload
