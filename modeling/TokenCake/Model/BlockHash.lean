import Mathlib.Data.List.Basic
import Mathlib.Data.Int.Notation

/-! # Block hashes of requests

Prefix caching identifies a full block by the hash of its tokens, of the hash of the block
before it and of extra keys. A request keeps the hashes of its full blocks and extends them
as tokens arrive. -/

namespace TokenCake.Hash

/-! ## Requests -/

/-- A multimodal input of a request and the tokens that it covers (`mm_position`). -/
structure MultiModalFeature where
  identifier : String
  offset : ℕ
  length : ℕ
  deriving DecidableEq, Repr

/-- The first token after the item. -/
def MultiModalFeature.stop (f : MultiModalFeature) : ℕ := f.offset + f.length

/-- The elements of the tuple of extra keys: plain strings, items with their offset in the
block, and digests of prompt embeddings. -/
inductive ExtraKey (δ : Type) where
  | text (name : String)
  | item (identifier : String) (offset : ℤ)
  | digest (hash : δ)
  deriving DecidableEq, Repr

/-- `η` is the type of block hashes and `ε` the type of prompt embeddings. -/
structure Request (η ε : Type) where
  promptTokenIds : Option (List ℕ)
  promptEmbeds : Option (List ε) := none
  outputTokenIds : List ℕ := []
  allTokenIds : List ℕ
  numPromptTokens : ℕ
  numComputedTokens : ℕ := 0
  mmFeatures : List MultiModalFeature := []
  loraName : Option String := none
  cacheSalt : Option String := none
  blockHashes : List η := []

/-- The functions that hash blocks and embeddings, with the value that stands for the parent
of a first block. -/
structure BlockHasher (η ε δ : Type) where
  blockSize : ℕ
  blockSize_pos : 0 < blockSize
  hashFunction : η × List ℕ × Option (List (ExtraKey δ)) → η
  noneHash : η
  embedsDigest : List ε → δ

/-- `tokens[start:stop]`. -/
def slice {α : Type} (tokens : List α) (start stop : ℕ) : List α :=
  (tokens.take stop).drop start

/-! ## Extra keys -/

/-- The loop of `_gen_mm_extra_hash_keys` over the items that remain, the first of which has
the index `idx`. -/
def mmKeysFrom (δ : Type) (start stop : ℕ) :
    List MultiModalFeature → ℕ → List (ExtraKey δ) × ℕ
  | [], idx => ([], idx)
  | f :: rest, idx =>
      if f.offset < stop then
        if f.stop ≤ start then mmKeysFrom δ start stop rest (idx + 1)
        else
          let key := .item f.identifier ((f.offset : ℤ) - start)
          if f.stop ≤ stop then
            let (keys, next) := mmKeysFrom δ start stop rest (idx + 1)
            (key :: keys, next)
          else ([key], idx)
      else ([], idx)

/-- `_gen_mm_extra_hash_keys`. A negative index counts from the end; `-1` is the only one that
occurs. -/
def genMmExtraHashKeys (δ : Type) (features : List MultiModalFeature) (start stop : ℕ)
    (startMmIdx : ℤ) : List (ExtraKey δ) × ℤ :=
  match features.getLast? with
  | none => ([], startMmIdx)
  | some last =>
      if last.stop ≤ start then ([], startMmIdx)
      else
        let idx := (if startMmIdx < 0 then features.length + startMmIdx else startMmIdx).toNat
        let (keys, next) := mmKeysFrom δ start stop (features.drop idx) idx
        (keys, next)

namespace Request

variable {η ε δ : Type}

def numTokens (r : Request η ε) : ℕ := r.allTokenIds.length

def genLoraExtraHashKeys (δ : Type) (r : Request η ε) : List (ExtraKey δ) :=
  match r.loraName with
  | none => []
  | some name => [.text name]

/-- The salt is part of the first block only; an empty salt counts as none. -/
def cacheSaltKeys (δ : Type) (r : Request η ε) (start : ℕ) : List (ExtraKey δ) :=
  match r.cacheSalt with
  | none => []
  | some salt => if start = 0 ∧ salt ≠ "" then [.text salt] else []

def genPromptEmbedsExtraHashKeys (hasher : BlockHasher η ε δ) (r : Request η ε)
    (start stop : ℕ) : List (ExtraKey δ) :=
  match r.promptEmbeds with
  | none => []
  | some embeds => [.digest (hasher.embedsDigest (slice embeds start stop))]

/-- `generate_block_hash_extra_keys`. -/
def generateBlockHashExtraKeys (hasher : BlockHasher η ε δ) (r : Request η ε)
    (start stop : ℕ) (startMmIdx : ℤ) : Option (List (ExtraKey δ)) × ℤ :=
  let (mmExtraKeys, newStartMmIdx) := genMmExtraHashKeys δ r.mmFeatures start stop startMmIdx
  let extraKeys := r.genLoraExtraHashKeys δ ++ mmExtraKeys ++ r.cacheSaltKeys δ start
    ++ r.genPromptEmbedsExtraHashKeys hasher start stop
  (if extraKeys.isEmpty then none else some extraKeys, newStartMmIdx)

end Request

/-! ## Hashing -/

section Hashing

variable {η ε δ : Type}

/-- `hash_block_tokens`. A digest is never empty, so only a missing parent is replaced. -/
def hashBlockTokens (hasher : BlockHasher η ε δ) (parentBlockHash : Option η)
    (currBlockTokenIds : List ℕ) (extraKeys : Option (List (ExtraKey δ))) : η :=
  hasher.hashFunction (parentBlockHash.getD hasher.noneHash, currBlockTokenIds, extraKeys)

/-- The loop of the block hasher over `count` full blocks from the token `start` on. -/
def hashBlocks (hasher : BlockHasher η ε δ) (r : Request η ε) :
    ℕ → ℕ → ℤ → Option η → List η
  | 0, _, _, _ => []
  | count + 1, start, currMmIdx, prevBlockHash =>
      let stop := start + hasher.blockSize
      let (extraKeys, currMmIdx) := r.generateBlockHashExtraKeys hasher start stop currMmIdx
      let blockHash :=
        hashBlockTokens hasher prevBlockHash (slice r.allTokenIds start stop) extraKeys
      blockHash :: hashBlocks hasher r count stop currMmIdx (some blockHash)

/-- `request_block_hasher`: the hashes of the full blocks that have none yet. -/
def requestBlockHasher (hasher : BlockHasher η ε δ) (r : Request η ε) : List η :=
  let start := r.blockHashes.length * hasher.blockSize
  if r.numTokens < start + hasher.blockSize then []
  else
    -- `-1` indicates the last item
    let currMmIdx : ℤ := if 0 < start then -1 else 0
    hashBlocks hasher r ((r.numTokens - start) / hasher.blockSize) start currMmIdx
      r.blockHashes.getLast?

namespace Request

def updateBlockHashes (hasher : BlockHasher η ε δ) (r : Request η ε) : Request η ε :=
  { r with blockHashes := r.blockHashes ++ requestBlockHasher hasher r }

/-- The arguments of the constructor. -/
structure Input (ε : Type) where
  promptTokenIds : Option (List ℕ)
  promptEmbeds : Option (List ε) := none
  mmFeatures : List MultiModalFeature := []
  loraName : Option String := none
  cacheSalt : Option String := none

/-- `length_from_prompt_token_ids_or_embeds`. -/
def lengthFromPromptTokenIdsOrEmbeds (promptTokenIds : Option (List ℕ))
    (promptEmbeds : Option (List ε)) : Option ℕ :=
  match promptTokenIds, promptEmbeds with
  | none, none => none
  | none, some embeds => some embeds.length
  | some tokens, none => some tokens.length
  | some tokens, some embeds => if embeds.length = tokens.length then some tokens.length else none

/-- `none` stands for a `ValueError`. -/
def new (hasher : BlockHasher η ε δ) (input : Input ε) : Option (Request η ε) :=
  (lengthFromPromptTokenIdsOrEmbeds input.promptTokenIds input.promptEmbeds).map
    fun numPromptTokens => updateBlockHashes hasher
      { promptTokenIds := input.promptTokenIds
        promptEmbeds := input.promptEmbeds
        allTokenIds := input.promptTokenIds.getD (List.replicate numPromptTokens 0)
        numPromptTokens := numPromptTokens
        mmFeatures := input.mmFeatures
        loraName := input.loraName
        cacheSalt := input.cacheSalt }

def appendOutputTokenIds (hasher : BlockHasher η ε δ) (r : Request η ε) (tokenIds : List ℕ) :
    Request η ε :=
  { r with
    outputTokenIds := r.outputTokenIds ++ tokenIds
    allTokenIds := r.allTokenIds ++ tokenIds }.updateBlockHashes hasher

end Request

/-! ## Sessions -/

/-- The next input chunk of a streaming session. -/
structure StreamingUpdate where
  mmFeatures : List MultiModalFeature := []
  promptTokenIds : List ℕ := []

namespace Request

/-- `_update_request_as_session`: the tokens that were not computed are discarded. `none` is a
failed assertion. -/
def updateAsSession (hasher : BlockHasher η ε δ) (session : Request η ε)
    (update : StreamingUpdate) : Option (Request η ε) :=
  session.promptTokenIds.map fun promptTokenIds =>
    let keptOutputTokens :=
      slice session.allTokenIds session.numPromptTokens session.numComputedTokens
    let kept := session.allTokenIds.take session.numComputedTokens
    let promptTokenIds := promptTokenIds ++ keptOutputTokens ++ update.promptTokenIds
    -- The positions of the new items are relative to their chunk.
    let mmFeatures := session.mmFeatures ++ update.mmFeatures.map fun f =>
      { f with offset := f.offset + kept.length }
    { { session with
        allTokenIds := kept ++ update.promptTokenIds
        outputTokenIds := []
        promptTokenIds := some promptTokenIds
        mmFeatures := mmFeatures }.updateBlockHashes hasher with
      numPromptTokens := promptTokenIds.length }

end Request

/-- What happens to a request between its construction and its end. -/
inductive RequestOp where
  /-- The scheduler assigns `num_computed_tokens`. -/
  | compute (numComputedTokens : ℕ)
  | append (tokenIds : List ℕ)
  | update (update : StreamingUpdate)

namespace Request

def step (hasher : BlockHasher η ε δ) (r : Request η ε) : RequestOp → Option (Request η ε)
  | .compute numComputedTokens => some { r with numComputedTokens := numComputedTokens }
  | .append tokenIds => some (r.appendOutputTokenIds hasher tokenIds)
  | .update update => r.updateAsSession hasher update

/-- One operation on the request. -/
def Next (hasher : BlockHasher η ε δ) (r : Request η ε) (op : RequestOp) (r' : Request η ε) :
    Prop :=
  r.step hasher op = some r'

/-- The hashes of all full blocks, computed at once. -/
def scratchHashes (hasher : BlockHasher η ε δ) (r : Request η ε) : List η :=
  requestBlockHasher hasher { r with blockHashes := [] }

end Request

end Hashing

end TokenCake.Hash
