import TokenCake.Lib.HashChain
import TokenCake.Verification.KVCache.Hybrid

/-! # Caching with and without the mask

The mask of a sliding-window group keeps blocks out of the prefix cache. Two managers that see the
same calls of `cache_blocks`, one with the mask and one without, differ in the masked blocks
only. -/

namespace TokenCake.KV

variable {η : Type} [DecidableEq η]

/-! ## What one call caches -/

section Keys

variable {pool pool' : BlockPool η} {hashes : List η} {scale groupId : ℕ} {key : BlockKey η}

/-- A block is cached under the key. -/
def BlockPool.IsCached (pool : BlockPool η) (key : BlockKey η) : Prop :=
  ∃ b, b ∈ cachedAt pool.cachedBlockHashToBlock key

theorem isSome_getOneBlock :
    (pool.cachedBlockHashToBlock.getOneBlock key).isSome = true ↔ pool.IsCached key := by
  rw [BlockHashToBlockMap.getOneBlock_eq, BlockPool.IsCached]
  cases cachedAt pool.cachedBlockHashToBlock key with
  | nil => simp
  | cons b blocks => simp

theorem cacheBlock_isCached {b : BlockId} {key' : BlockKey η} :
    (pool.cacheBlock b key).IsCached key' ↔ pool.IsCached key' ∨ key' = key := by
  have hmem : ∀ c, c ∈ cachedAt (pool.cacheBlock b key).cachedBlockHashToBlock key' ↔
      (key' = key ∧ c = b) ∨ c ∈ cachedAt pool.cachedBlockHashToBlock key' :=
    fun c => BlockHashToBlockMap.mem_cachedAt_insertBlock
  simp only [BlockPool.IsCached, hmem]
  constructor
  · rintro ⟨c, ⟨hkey, -⟩ | hc⟩
    · exact .inr hkey
    · exact .inl ⟨c, hc⟩
  · rintro (⟨c, hc⟩ | hkey)
    · exact ⟨c, .inr hc⟩
    · exact ⟨b, .inl ⟨hkey, rfl⟩⟩

theorem cacheFullBlock_isCached {item : (BlockId × Bool) × ℕ}
    (h : BlockPool.cacheFullBlock hashes scale groupId pool item = .ok pool') :
    pool'.hashBlockSize = pool.hashBlockSize ∧ ∀ key, pool'.IsCached key ↔ pool.IsCached key ∨
      (item.1.1 ≠ nullBlock ∧ item.1.2 = true ∧
        ∃ hash, BlockPool.groupHash hashes scale item.2 = some hash ∧ key = (hash, groupId)) := by
  obtain ⟨⟨b, keep⟩, i⟩ := item
  unfold BlockPool.cacheFullBlock at h
  dsimp only at h ⊢
  by_cases hskip : b = nullBlock ∨ keep = false
  · rw [if_pos hskip] at h
    obtain rfl := Except.ok.inj h
    refine ⟨rfl, fun key => (or_iff_left ?_).symm⟩
    rintro ⟨hb, hkeep, -⟩
    rcases hskip with hnull | hfalse
    · exact hb hnull
    · rw [hfalse] at hkeep
      cases hkeep
  · rw [if_neg hskip] at h
    split at h
    · cases h
    · cases hhash : BlockPool.groupHash hashes scale i with
      | none =>
          rw [hhash] at h
          cases h
      | some hash =>
          rw [hhash] at h
          obtain rfl := Except.ok.inj h
          refine ⟨rfl, fun key => cacheBlock_isCached.trans (or_congr_right ?_)⟩
          rw [not_or, Bool.not_eq_false] at hskip
          simp [hskip.1, hskip.2]

theorem cacheFullBlock_loop_isCached (items : List ((BlockId × Bool) × ℕ))
    (h : items.foldlM (BlockPool.cacheFullBlock hashes scale groupId) pool = .ok pool') :
    pool'.hashBlockSize = pool.hashBlockSize ∧ ∀ key, pool'.IsCached key ↔ pool.IsCached key ∨
      ∃ item ∈ items, item.1.1 ≠ nullBlock ∧ item.1.2 = true ∧
        ∃ hash, BlockPool.groupHash hashes scale item.2 = some hash ∧ key = (hash, groupId) := by
  induction items generalizing pool with
  | nil =>
      obtain rfl := Except.ok.inj h
      exact ⟨rfl, fun key => by simp⟩
  | cons item items ih =>
      rw [List.foldlM_cons] at h
      cases hstep : BlockPool.cacheFullBlock hashes scale groupId pool item with
      | error e =>
          rw [hstep] at h
          cases h
      | ok next =>
          rw [hstep] at h
          obtain ⟨hsize, hkeys⟩ := cacheFullBlock_isCached hstep
          obtain ⟨hsize', hkeys'⟩ := ih h
          refine ⟨hsize'.trans hsize, fun key => ?_⟩
          rw [hkeys', hkeys, or_assoc, List.exists_mem_cons_iff]

/-- What `cache_full_blocks` adds to the prefix cache. -/
theorem cacheFullBlocks_isCached {blocks : List BlockId} {numCached numFull blockSize : ℕ}
    {mask : Option (List Bool)}
    (h : pool.cacheFullBlocks hashes blocks numCached numFull blockSize groupId mask = .ok pool') :
    pool'.hashBlockSize = pool.hashBlockSize ∧ ∀ key, pool'.IsCached key ↔ pool.IsCached key ∨
      ∃ i b, (numCached ≤ i ∧ i < numFull ∧ blocks[i]? = some b ∧ b ≠ nullBlock ∧
        ∃ hash, BlockPool.groupHash hashes (blockSize / pool.hashBlockSize) i = some hash ∧
          key = (hash, groupId)) ∧
        ∀ keeps, mask = some keeps → keeps[i - numCached]? = some true := by
  unfold BlockPool.cacheFullBlocks at h
  split at h
  · next hfull =>
      obtain rfl := Except.ok.inj h
      refine ⟨rfl, fun key => (or_iff_left ?_).symm⟩
      rintro ⟨i, b, ⟨hi, hlt, -⟩, -⟩
      omega
  · dsimp only at h
    split at h
    · cases h
    · next hlengths =>
        split at h
        · cases h
        · obtain ⟨hsize, hkeys⟩ := cacheFullBlock_loop_isCached _ h
          refine ⟨hsize, fun key => (hkeys key).trans (or_congr_right ?_)⟩
          rw [not_or, not_not] at hlengths
          have hblocks : ∀ j, ((blocks.take numFull).drop numCached)[j]? =
              if numCached + j < numFull then blocks[numCached + j]? else none := by
            intro j
            rw [List.getElem?_drop, List.getElem?_take]
          constructor
          · rintro ⟨⟨⟨b, keep⟩, i⟩, hitem, hb, hkeep, hhash⟩
            obtain ⟨hi, hzip⟩ := List.mk_mem_zipIdx_iff_le_and_getElem?_sub.mp hitem
            obtain ⟨hblock, hmask⟩ := List.getElem?_zip_eq_some.mp hzip
            rw [hblocks, Nat.add_sub_cancel' hi] at hblock
            split at hblock
            · next hlt =>
                refine ⟨i, b, ⟨hi, hlt, hblock, hb, hhash⟩, ?_⟩
                rintro keeps rfl
                exact hmask.trans (congrArg some hkeep)
            · cases hblock
          · rintro ⟨i, b, ⟨hi, hlt, hblock, hb, hhash⟩, hkeeps⟩
            have hnew : ((blocks.take numFull).drop numCached)[i - numCached]? = some b := by
              rw [hblocks, Nat.add_sub_cancel' hi, if_pos hlt, hblock]
            have hmask : (mask.getD (List.replicate
                ((blocks.take numFull).drop numCached).length true))[i - numCached]? =
                  some true := by
              cases hcases : mask with
              | none =>
                  have := (List.getElem?_eq_some_iff.mp hnew).1
                  rw [Option.getD_none, List.getElem?_replicate, if_pos this]
              | some keeps => exact hkeeps keeps hcases
            exact ⟨((b, true), i), List.mk_mem_zipIdx_iff_le_and_getElem?_sub.mpr
              ⟨hi, List.getElem?_zip_eq_some.mpr ⟨hnew, hmask⟩⟩, hb, rfl, hhash⟩

end Keys

/-! ## The mask of a group -/

section Mask

/-- The mask keeps the block at index `i` out of the prefix cache. -/
def KVCacheSpec.Skips (spec : KVCacheSpec) (alignment i : ℕ) : Prop :=
  ∃ w, spec.kind = .slidingWindow w ∧ spec.blockSize < alignment ∧
    (w - 1) ⌈/⌉ spec.blockSize < alignment / spec.blockSize ∧
    i % (alignment / spec.blockSize) <
      alignment / spec.blockSize - (w - 1) ⌈/⌉ spec.blockSize

variable {spec : KVCacheSpec} {numCached numFull alignment : ℕ} {mask : Option (List Bool)}

theorem cacheBlockMask_skips (h : spec.cacheBlockMask numCached numFull alignment = .ok mask)
    {i : ℕ} (hi : numCached ≤ i) (hlt : i < numFull) :
    (∀ keeps, mask = some keeps → keeps[i - numCached]? = some true) ↔
      ¬spec.Skips alignment i := by
  unfold KVCacheSpec.cacheBlockMask at h
  split at h
  · next w hkind =>
      split at h
      · cases h
      · next hsmall =>
          dsimp only at h
          split at h
          · next htail =>
              obtain rfl := Except.ok.inj h
              refine ⟨?_, fun _ keeps hkeeps => by cases hkeeps⟩
              rintro - ⟨w', hkind', -, htail', -⟩
              rw [hkind] at hkind'
              cases hkind'
              omega
          · next htail =>
              obtain rfl := Except.ok.inj h
              have hentry : ((List.range' numCached (numFull - numCached)).map fun i =>
                  decide (alignment / spec.blockSize - (w - 1) ⌈/⌉ spec.blockSize ≤
                    i % (alignment / spec.blockSize)))[i - numCached]? =
                  some (decide (alignment / spec.blockSize - (w - 1) ⌈/⌉ spec.blockSize ≤
                    i % (alignment / spec.blockSize))) := by
                rw [List.getElem?_map, List.getElem?_range' (by omega), Option.map_some]
                simp only [Nat.one_mul, Nat.add_sub_cancel' hi]
              constructor
              · rintro hkeeps ⟨w', hkind', -, -, hskip⟩
                rw [hkind] at hkind'
                cases hkind'
                have := hkeeps _ rfl
                rw [hentry, Option.some.injEq, decide_eq_true_eq] at this
                omega
              · rintro hkept keeps hkeeps
                obtain rfl := Option.some.inj hkeeps
                rw [hentry, Option.some.injEq, decide_eq_true_eq]
                by_contra hskip
                exact hkept ⟨w, hkind, by omega, by omega, by omega⟩
  · next hkind =>
      obtain rfl := Except.ok.inj h
      refine ⟨?_, fun _ keeps hkeeps => by cases hkeeps⟩
      rintro - ⟨w, hw, -⟩
      exact hkind w hw

end Mask

/-! ## One group -/

section Manager

variable {m m' : SingleTypeKVCacheManager} {pool pool' : BlockPool η} {request : Request η}
  {numTokens : ℕ} {alignment : Option ℕ}

/-- The blocks of the table that a call offers to the prefix cache, with their keys. -/
def Offers (m : SingleTypeKVCacheManager) (hashBlockSize : ℕ) (request : Request η)
    (numTokens i : ℕ) (key : BlockKey η) : Prop :=
  (m.numCachedBlock.get? request.requestId).getD 0 ≤ i ∧ i < numTokens / m.blockSize ∧
    ∃ b, (m.table request.requestId)[i]? = some b ∧ b ≠ nullBlock ∧
      ∃ hash, BlockPool.groupHash request.blockHashes (m.blockSize / hashBlockSize) i =
        some hash ∧ key = (hash, m.groupId)

theorem cacheBlocks_isCached
    (h : m.cacheBlocks pool request numTokens alignment = .ok (pool', m')) :
    (m'.spec = m.spec ∧ m'.groupId = m.groupId) ∧ pool'.hashBlockSize = pool.hashBlockSize ∧
      ∀ key, pool'.IsCached key ↔ pool.IsCached key ∨
        ∃ i, Offers m pool.hashBlockSize request numTokens i key ∧
          ∀ a, alignment = some a → ¬m.spec.Skips a i := by
  unfold SingleTypeKVCacheManager.cacheBlocks at h
  dsimp only at h
  split at h
  · next hfull =>
      obtain ⟨rfl, rfl⟩ := Prod.mk.inj (Except.ok.inj h)
      refine ⟨⟨rfl, rfl⟩, rfl, fun key => (or_iff_left ?_).symm⟩
      rintro ⟨i, ⟨hi, hlt, -⟩, -⟩
      omega
  · -- The mask, with or without an alignment.
    obtain ⟨mask, hmask, hrest⟩ : ∃ mask,
        (∀ i, (m.numCachedBlock.get? request.requestId).getD 0 ≤ i →
          i < numTokens / m.blockSize →
            ((∀ keeps, mask = some keeps → keeps[i -
              (m.numCachedBlock.get? request.requestId).getD 0]? = some true) ↔
                ∀ a, alignment = some a → ¬m.spec.Skips a i)) ∧
        (do
          let pool ← pool.cacheFullBlocks request.blockHashes (m.table request.requestId)
            ((m.numCachedBlock.get? request.requestId).getD 0) (numTokens / m.blockSize)
            m.blockSize m.groupId mask
          return (pool, (m.setTable request.requestId
            (m.table request.requestId)).setNumCachedBlock request.requestId
              (numTokens / m.blockSize)) : Except KVError _) = .ok (pool', m') := by
      cases alignment with
      | none => exact ⟨none, fun i _ _ => by simp, h⟩
      | some a =>
          dsimp only at h
          split at h
          · next hle =>
              refine ⟨none, fun i _ _ => ?_, h⟩
              simp only [reduceCtorEq, false_implies, implies_true, true_iff, Option.some.injEq,
                forall_eq']
              rintro ⟨w, -, hlt, -⟩
              exact absurd hlt (Nat.not_lt.mpr hle)
          · cases hmask : m.spec.cacheBlockMask
              ((m.numCachedBlock.get? request.requestId).getD 0) (numTokens / m.blockSize) a with
            | error e =>
                rw [hmask] at h
                cases h
            | ok mask =>
                rw [hmask] at h
                refine ⟨mask, fun i hi hlt => (cacheBlockMask_skips hmask hi hlt).trans ?_, h⟩
                simp
    cases hcache : pool.cacheFullBlocks request.blockHashes (m.table request.requestId)
      ((m.numCachedBlock.get? request.requestId).getD 0) (numTokens / m.blockSize)
      m.blockSize m.groupId mask with
    | error e =>
        rw [hcache] at hrest
        cases hrest
    | ok next =>
        rw [hcache] at hrest
        obtain ⟨rfl, rfl⟩ := Prod.mk.inj (Except.ok.inj hrest)
        obtain ⟨hsize, hkeys⟩ := cacheFullBlocks_isCached hcache
        refine ⟨⟨rfl, rfl⟩, hsize, fun key => (hkeys key).trans (or_congr_right ?_)⟩
        constructor
        · rintro ⟨i, b, ⟨hi, hlt, hblock, hb, hhash⟩, hkeeps⟩
          exact ⟨i, ⟨hi, hlt, b, hblock, hb, hhash⟩, (hmask i hi hlt).mp hkeeps⟩
        · rintro ⟨i, ⟨hi, hlt, b, hblock, hb, hhash⟩, hskips⟩
          exact ⟨i, b, ⟨hi, hlt, hblock, hb, hhash⟩, (hmask i hi hlt).mpr hskips⟩

end Manager

/-! ## Runs with and without the mask -/

/-- The block hashes of a request: the hash of a block covers those before it. -/
def Chained {β : Type} (hash : η → β → η) (base : η) (hashes : List η) : Prop :=
  ∃ blocks, hashes = hashChain hash base blocks

/-- The same groups, whatever their tables. -/
structure SameGroups (ms ms' : List SingleTypeKVCacheManager) : Prop where
  specs : ms'.map (·.spec) = ms.map (·.spec)
  groupIds : ms'.map (·.groupId) = ms.map (·.groupId)

theorem SameGroups.trans {ms₁ ms₂ ms₃ : List SingleTypeKVCacheManager} (h : SameGroups ms₁ ms₂)
    (h' : SameGroups ms₂ ms₃) : SameGroups ms₁ ms₃ :=
  ⟨h'.specs.trans h.specs, h'.groupIds.trans h.groupIds⟩

namespace KVCacheManager

/-- A call of `cache_blocks`, with the managers as they are at the time: their tables change
between the calls. -/
structure CacheCall (η : Type) where
  request : Request η
  numComputedTokens : ℕ
  managers : List SingleTypeKVCacheManager

/-- `cache_blocks` of the hybrid coordinator if every full block were cached. -/
def cacheAllBlocks (m : KVCacheManager η) (request : Request η) (numComputedTokens : ℕ) :
    Except KVError (KVCacheManager η) := do
  let (pool, managers) ← forManagers (fun pool manager _ =>
    manager.cacheBlocks pool request (numComputedTokens / m.lcmBlockSize * m.lcmBlockSize) none)
    m.blockPool m.singleTypeManagers (m.singleTypeManagers.map fun _ => ())
  return { m with blockPool := pool, singleTypeManagers := managers }

/-- The calls one after another; `cache` is `cache_blocks` with or without the mask. -/
def cacheRun (cache : KVCacheManager η → Request η → ℕ → Except KVError (KVCacheManager η))
    (m : KVCacheManager η) (calls : List (CacheCall η)) : Except KVError (KVCacheManager η) :=
  calls.foldlM (fun m call =>
    cache { m with singleTypeManagers := call.managers } call.request call.numComputedTokens) m

section Runs

variable {β : Type} (hash : η → β → η) (base : η) (m₀ : KVCacheManager η)

/-- The key belongs to a masked block of some request. -/
def Skipped (key : BlockKey η) : Prop :=
  ∃ hashes spec i, Chained hash base hashes ∧ m₀.specs[key.2]? = some spec ∧
    spec.Skips m₀.lcmBlockSize i ∧
    BlockPool.groupHash hashes (spec.blockSize / m₀.blockPool.hashBlockSize) i = some key.1

/-- The pool `all` has what `pool` has, and beyond this only masked blocks. -/
structure MaskedPool (pool all : BlockPool η) : Prop where
  hashBlockSize : pool.hashBlockSize = m₀.blockPool.hashBlockSize
  hashBlockSize_all : all.hashBlockSize = m₀.blockPool.hashBlockSize
  cached : ∀ key, pool.IsCached key → all.IsCached key
  masked : ∀ key, all.IsCached key → pool.IsCached key ∨ m₀.Skipped hash base key

/-- The manager `all` has cached every full block, the manager `m` those outside the mask. -/
structure MaskedManager (m all : KVCacheManager η) : Prop where
  groups : SameGroups m₀.singleTypeManagers m.singleTypeManagers
  groups_all : SameGroups m₀.singleTypeManagers all.singleTypeManagers
  eagle : m.eagleGroupIds = m₀.eagleGroupIds
  eagle_all : all.eagleGroupIds = m₀.eagleGroupIds
  enableCaching : m.enableCaching = m₀.enableCaching
  pool : MaskedPool hash base m₀ m.blockPool all.blockPool

variable {hash base m₀} {pool all pool' all' : BlockPool η} {request : Request η} {numTokens : ℕ}

theorem MaskedPool.cacheBlocks {manager manager' managerAll' : SingleTypeKVCacheManager}
    (h : MaskedPool hash base m₀ pool all) (hrequest : Chained hash base request.blockHashes)
    (hspec : m₀.specs[manager.groupId]? = some manager.spec)
    (hmasked : manager.cacheBlocks pool request numTokens (some m₀.lcmBlockSize) =
      .ok (pool', manager'))
    (hall : manager.cacheBlocks all request numTokens none = .ok (all', managerAll')) :
    MaskedPool hash base m₀ pool' all' := by
  obtain ⟨-, hsize, hkeys⟩ := cacheBlocks_isCached hmasked
  obtain ⟨-, hsizeAll, hkeysAll⟩ := cacheBlocks_isCached hall
  have hsame : pool.hashBlockSize = all.hashBlockSize :=
    h.hashBlockSize.trans h.hashBlockSize_all.symm
  refine ⟨hsize.trans h.hashBlockSize, hsizeAll.trans h.hashBlockSize_all, ?_, ?_⟩
  · intro key hkey
    rw [hkeysAll]
    rcases (hkeys key).mp hkey with hold | ⟨i, hoffers, -⟩
    · exact .inl (h.cached key hold)
    · exact .inr ⟨i, hsame ▸ hoffers, fun a ha => by cases ha⟩
  · intro key hkey
    rw [hkeys]
    rcases (hkeysAll key).mp hkey with hold | ⟨i, hoffers, -⟩
    · exact (h.masked key hold).imp_left .inl
    · by_cases hskips : manager.spec.Skips m₀.lcmBlockSize i
      · obtain ⟨-, -, b, -, -, hash', hhash, rfl⟩ := hoffers
        refine .inr ⟨_, _, i, hrequest, hspec, hskips, ?_⟩
        rw [← h.hashBlockSize_all]
        exact hhash
      · refine .inl (.inr ⟨i, hsame ▸ hoffers, ?_⟩)
        intro a ha
        rwa [← Option.some.inj ha]

theorem MaskedPool.forManagers (hrequest : Chained hash base request.blockHashes)
    (ms : List SingleTypeKVCacheManager) {ms' msAll' : List SingleTypeKVCacheManager}
    (hspecs : ∀ manager ∈ ms, m₀.specs[manager.groupId]? = some manager.spec)
    (h : MaskedPool hash base m₀ pool all)
    (hmasked : KVCacheManager.forManagers (fun pool manager _ =>
      manager.cacheBlocks pool request numTokens (some m₀.lcmBlockSize)) pool ms
        (ms.map fun _ => ()) = .ok (pool', ms'))
    (hall : KVCacheManager.forManagers (fun pool manager _ =>
      manager.cacheBlocks pool request numTokens none) all ms (ms.map fun _ => ()) =
        .ok (all', msAll')) :
    MaskedPool hash base m₀ pool' all' ∧ SameGroups ms ms' ∧ SameGroups ms msAll' := by
  induction ms generalizing pool all ms' msAll' with
  | nil =>
      obtain ⟨rfl, rfl⟩ := Prod.mk.inj (Except.ok.inj hmasked)
      obtain ⟨rfl, rfl⟩ := Prod.mk.inj (Except.ok.inj hall)
      exact ⟨h, ⟨rfl, rfl⟩, ⟨rfl, rfl⟩⟩
  | cons manager ms ih =>
      obtain ⟨next, manager', rest, hfirst, hrest, rfl⟩ := forManagers_cons hmasked
      obtain ⟨nextAll, managerAll', restAll, hfirstAll, hrestAll, rfl⟩ := forManagers_cons hall
      obtain ⟨hspec, hspecs'⟩ := List.forall_mem_cons.mp hspecs
      have hgroup := (cacheBlocks_isCached hfirst).1
      have hgroupAll := (cacheBlocks_isCached hfirstAll).1
      obtain ⟨hpool, hsame, hsameAll⟩ := ih hspecs'
        (h.cacheBlocks hrequest hspec hfirst hfirstAll) hrest hrestAll
      refine ⟨hpool, ⟨?_, ?_⟩, ⟨?_, ?_⟩⟩
      · simp only [List.map_cons, hgroup.1, hsame.specs]
      · simp only [List.map_cons, hgroup.2, hsame.groupIds]
      · simp only [List.map_cons, hgroupAll.1, hsameAll.specs]
      · simp only [List.map_cons, hgroupAll.2, hsameAll.groupIds]

/-- One call, with and without the mask. -/
theorem MaskedManager.call {m all m' all' : KVCacheManager η} {call : CacheCall η}
    (h : MaskedManager hash base m₀ m all) (hhybrid : m₀.isHybrid = true)
    (hids : m₀.singleTypeManagers.map (·.groupId) = List.range m₀.singleTypeManagers.length)
    (hrequest : Chained hash base call.request.blockHashes)
    (hmanagers : SameGroups m₀.singleTypeManagers call.managers)
    (hmasked : ({ m with singleTypeManagers := call.managers } :
      KVCacheManager η).cacheCoordinatedBlocks call.request call.numComputedTokens = .ok m')
    (hall : ({ all with singleTypeManagers := call.managers } :
      KVCacheManager η).cacheAllBlocks call.request call.numComputedTokens = .ok all') :
    MaskedManager hash base m₀ m' all' := by
  have hlength : call.managers.length = m₀.singleTypeManagers.length := by
    simpa using congrArg List.length hmanagers.specs
  have hspecs : ∀ manager ∈ call.managers,
      m₀.specs[manager.groupId]? = some manager.spec := by
    intro manager hmanager
    obtain ⟨k, hk, rfl⟩ := List.mem_iff_getElem.mp hmanager
    have hid := congrArg (·[k]?) (hmanagers.groupIds.trans hids)
    simp only [List.getElem?_map, List.getElem?_eq_getElem hk, Option.map_some, ← hlength,
      List.getElem?_range hk, Option.some.injEq] at hid
    rw [hid, specs, ← hmanagers.specs, List.getElem?_map, List.getElem?_eq_getElem hk,
      Option.map_some]
  have hcall : ({ m with singleTypeManagers := call.managers } :
      KVCacheManager η).isHybrid = true := by
    rw [← hhybrid, isHybrid, isHybrid, h.enableCaching, hlength]
  have hlcm : ∀ m : KVCacheManager η, ({ m with singleTypeManagers := call.managers } :
      KVCacheManager η).lcmBlockSize = m₀.lcmBlockSize := by
    intro m
    unfold lcmBlockSize specs
    rw [hmanagers.specs]
  unfold cacheCoordinatedBlocks at hmasked
  unfold cacheAllBlocks at hall
  rw [hcall, if_pos rfl, hlcm] at hmasked
  rw [hlcm] at hall
  dsimp only at hmasked hall
  cases hloop : forManagers (fun pool manager _ => manager.cacheBlocks pool call.request
      (call.numComputedTokens / m₀.lcmBlockSize * m₀.lcmBlockSize) (some m₀.lcmBlockSize))
      m.blockPool call.managers (call.managers.map fun _ => ()) with
  | error e =>
      rw [hloop] at hmasked
      cases hmasked
  | ok result =>
      cases hloopAll : forManagers (fun pool manager _ => manager.cacheBlocks pool call.request
          (call.numComputedTokens / m₀.lcmBlockSize * m₀.lcmBlockSize) none)
          all.blockPool call.managers (call.managers.map fun _ => ()) with
      | error e =>
          rw [hloopAll] at hall
          cases hall
      | ok resultAll =>
          rw [hloop] at hmasked
          rw [hloopAll] at hall
          obtain rfl := Except.ok.inj hmasked
          obtain rfl := Except.ok.inj hall
          obtain ⟨hpool, hsame, hsameAll⟩ :=
            h.pool.forManagers hrequest call.managers hspecs hloop hloopAll
          exact ⟨hmanagers.trans hsame, hmanagers.trans hsameAll, h.eagle, h.eagle_all,
            h.enableCaching, hpool⟩

/-- What the calls of a run have in common: requests with chained hashes, and the groups of the
coordinator. -/
def CallsOf (hash : η → β → η) (base : η) (m₀ : KVCacheManager η) (calls : List (CacheCall η)) :
    Prop :=
  ∀ call ∈ calls, Chained hash base call.request.blockHashes ∧
    SameGroups m₀.singleTypeManagers call.managers

theorem MaskedManager.run {m all m' all' : KVCacheManager η} (calls : List (CacheCall η))
    (h : MaskedManager hash base m₀ m all) (hhybrid : m₀.isHybrid = true)
    (hids : m₀.singleTypeManagers.map (·.groupId) = List.range m₀.singleTypeManagers.length)
    (hcalls : CallsOf hash base m₀ calls)
    (hmasked : cacheRun cacheCoordinatedBlocks m calls = .ok m')
    (hall : cacheRun cacheAllBlocks all calls = .ok all') :
    MaskedManager hash base m₀ m' all' := by
  induction calls generalizing m all with
  | nil =>
      obtain rfl := Except.ok.inj hmasked
      obtain rfl := Except.ok.inj hall
      exact h
  | cons call calls ih =>
      obtain ⟨⟨hrequest, hmanagers⟩, hcalls'⟩ := List.forall_mem_cons.mp hcalls
      unfold cacheRun at hmasked hall
      rw [List.foldlM_cons] at hmasked hall
      cases hstep : ({ m with singleTypeManagers := call.managers } :
          KVCacheManager η).cacheCoordinatedBlocks call.request call.numComputedTokens with
      | error e =>
          rw [hstep] at hmasked
          cases hmasked
      | ok next =>
          cases hstepAll : ({ all with singleTypeManagers := call.managers } :
              KVCacheManager η).cacheAllBlocks call.request call.numComputedTokens with
          | error e =>
              rw [hstepAll] at hall
              cases hall
          | ok nextAll =>
              rw [hstep] at hmasked
              rw [hstepAll] at hall
              exact ih (h.call hhybrid hids hrequest hmanagers hstep hstepAll) hcalls' hmasked hall

end Runs

end KVCacheManager

end TokenCake.KV
