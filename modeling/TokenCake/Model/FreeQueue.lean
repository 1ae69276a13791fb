import TokenCake.Lib.LinkedList
import TokenCake.Model.BlockPool

/-! # The free queue of the block pool

`FreeKVCacheBlockQueue` with the links that run through the blocks. An operation returns the
queue also when it raises. -/

namespace TokenCake.KV

/-- `fake_free_list_head`, `fake_free_list_tail` and the blocks of the pool. -/
inductive QueueNode where
  | fakeHead
  | fakeTail
  | block (b : BlockId)
  deriving DecidableEq, Repr

structure FreeKVCacheBlockQueue where
  links : Links QueueNode
  numFreeBlocks : ℤ

namespace FreeKVCacheBlockQueue

open QueueNode

/-- The loop of `__init__` for the block with the id `i` of `numBlocks` blocks. -/
def initBlock (numBlocks : ℕ) (links : Links QueueNode) (i : ℕ) : Links QueueNode :=
  let links := if 0 < i then links.setPrev (block i) (some (block (i - 1))) else links
  if i < numBlocks - 1 then links.setNext (block i) (some (block (i + 1))) else links

/-- The queue of the blocks `0, …, numBlocks - 1`, which are new. -/
def new (numBlocks : ℕ) : FreeKVCacheBlockQueue :=
  let links := (List.range numBlocks).foldl (initBlock numBlocks) ⟨fun _ => none, fun _ => none⟩
  let links :=
    if 0 < numBlocks then
      let links := (links.setNext fakeHead (some (block 0))).setPrev (block 0) (some fakeHead)
      (links.setPrev fakeTail (some (block (numBlocks - 1)))).setNext (block (numBlocks - 1))
        (some fakeTail)
    else (links.setNext fakeHead (some fakeTail)).setPrev fakeTail (some fakeHead)
  ⟨links, numBlocks⟩

variable (q : FreeKVCacheBlockQueue)

def popleft : Except KVError QueueNode × FreeKVCacheBlockQueue :=
  if q.links.next fakeHead = some fakeTail then
    (.error (if q.numFreeBlocks = 0 then .valueError else .assertion), q)
  else
    match q.links.next fakeHead with
    | none => (.error (if q.numFreeBlocks = 0 then .valueError else .assertion), q)
    | some firstBlock =>
        match q.links.next firstBlock with
        | none => (.error .runtimeError, q)
        | some second =>
            let links := (q.links.setNext fakeHead (some second)).setPrev second (some fakeHead)
            let links := (links.setPrev firstBlock none).setNext firstBlock none
            (.ok firstBlock, ⟨links, q.numFreeBlocks - 1⟩)

/-- The loop of `popleft_n`: the blocks, `curr_block` after the loop and the links. -/
def popLoop : ℕ → Option QueueNode → Links QueueNode →
    Except KVError (List QueueNode × Option QueueNode) × Links QueueNode
  | 0, curr, links => (.ok ([], curr), links)
  | _ + 1, none, links => (.error .assertion, links)
  | n + 1, some lastBlock, links =>
      let curr := links.next lastBlock
      match popLoop n curr ((links.setPrev lastBlock none).setNext lastBlock none) with
      | (.ok (ret, curr), links) => (.ok (lastBlock :: ret, curr), links)
      | (.error e, links) => (.error e, links)

def popleftN (n : ℤ) : Except KVError (List QueueNode) × FreeKVCacheBlockQueue :=
  if n = 0 then (.ok [], q)
  else if q.numFreeBlocks < n then (.error .assertion, q)
  else
    let numFreeBlocks := q.numFreeBlocks - n
    match popLoop n.toNat (q.links.next fakeHead) q.links with
    | (.error e, links) => (.error e, ⟨links, numFreeBlocks⟩)
    | (.ok (ret, none), links) => (.ok ret, ⟨links, numFreeBlocks⟩)
    | (.ok (ret, some curr), links) =>
        (.ok ret, ⟨(links.setNext fakeHead (some curr)).setPrev curr (some fakeHead),
          numFreeBlocks⟩)

def remove (b : BlockId) : Except KVError Unit × FreeKVCacheBlockQueue :=
  match q.links.prev (block b), q.links.next (block b) with
  | some before, some after =>
      let links := (q.links.setNext before (some after)).setPrev after (some before)
      let links := (links.setPrev (block b) none).setNext (block b) none
      (.ok (), ⟨links, q.numFreeBlocks - 1⟩)
  | _, _ => (.error .runtimeError, q)

def append (b : BlockId) : Except KVError Unit × FreeKVCacheBlockQueue :=
  match q.links.prev fakeTail with
  | none => (.error .runtimeError, q)
  | some lastBlock =>
      let links := (q.links.setNext lastBlock (some (block b))).setPrev (block b) (some lastBlock)
      let links := (links.setNext (block b) (some fakeTail)).setPrev fakeTail (some (block b))
      (.ok (), ⟨links, q.numFreeBlocks + 1⟩)

/-- The loop of `append_n` with `last_block`. -/
def appendLoop (lastBlock : QueueNode) (links : Links QueueNode) :
    List BlockId → QueueNode × Links QueueNode
  | [] => (lastBlock, links)
  | b :: blocks =>
      appendLoop (block b)
        ((links.setPrev (block b) (some lastBlock)).setNext lastBlock (some (block b))) blocks

def appendN (blocks : List BlockId) : Except KVError Unit × FreeKVCacheBlockQueue :=
  if blocks.length = 0 then (.ok (), q)
  else
    match q.links.prev fakeTail with
    | none => (.error .assertion, q)
    | some lastBlock =>
        let (lastBlock, links) := appendLoop lastBlock q.links blocks
        (.ok (), ⟨(links.setNext lastBlock (some fakeTail)).setPrev fakeTail (some lastBlock),
          q.numFreeBlocks + blocks.length⟩)

variable {η : Type}

/-- `block.block_hash`; the sentinels have none. -/
def blockHash (blocks : BlockId → KVCacheBlock η) : QueueNode → Option (BlockKey η)
  | block b => (blocks b).blockHash
  | _ => none

/-- The loop of `peek_free_block_frontier`, with the number of entries still to be read. -/
def peekLoop (blocks : BlockId → KVCacheBlock η) :
    ℕ → Option QueueNode → List (QueueNode × Option (BlockKey η))
  | 0, _ => []
  | _ + 1, none => []
  | limit + 1, some node =>
      if node = fakeTail then []
      else (node, blockHash blocks node) :: peekLoop blocks limit (q.links.next node)

def peekFreeBlockFrontier (blocks : BlockId → KVCacheBlock η) (limit : ℕ) :
    List (QueueNode × Option (BlockKey η)) :=
  q.peekLoop blocks limit (q.links.next fakeHead)

end FreeKVCacheBlockQueue

end TokenCake.KV
