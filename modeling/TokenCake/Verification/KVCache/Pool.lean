import TokenCake.Lib.Ensures
import TokenCake.Model.BlockPool

/-! # The index of cached blocks

The map from hashes to blocks and the hashes that the blocks carry say the same. -/

namespace TokenCake.KV

variable {η : Type} [DecidableEq η]

/-- The blocks that the map holds for a key. -/
def cachedAt (cache : BlockHashToBlockMap η) (key : BlockKey η) : List BlockId :=
  match cache.get? key with
  | none => []
  | some (.one block) => [block]
  | some (.many blocks) => blocks

namespace BlockHashToBlockMap

variable {cache : BlockHashToBlockMap η} {key key' : BlockKey η} {b c : BlockId}

theorem getOneBlock_eq : cache.getOneBlock key = (cachedAt cache key).head? := by
  unfold getOneBlock cachedAt
  cases cache.get? key with
  | none => rfl
  | some entry => cases entry <;> rfl

theorem mem_cachedAt_insertBlock :
    c ∈ cachedAt (cache.insertBlock key b) key' ↔
      (key' = key ∧ c = b) ∨ c ∈ cachedAt cache key' := by
  by_cases hkey : key' = key
  · subst hkey
    unfold insertBlock cachedAt
    cases cache.get? key' with
    | none => simp
    | some entry =>
        cases entry with
        | one old =>
            by_cases hb : b = old
            · simp [hb]
            · simp [hb, or_comm]
        | many blocks =>
            by_cases hb : b ∈ blocks
            · simp only [OrdDict.get?_insert_self, hb, if_true, true_and]
              exact ⟨.inr, fun h => h.elim (fun heq => heq ▸ hb) id⟩
            · simp [hb, or_comm]
  · have hget : (cache.insertBlock key b).get? key' = cache.get? key' := by
      unfold insertBlock
      split <;> simp [OrdDict.get?_insert, hkey]
    simp [cachedAt, hget, hkey]

theorem mem_cachedAt_pop :
    c ∈ cachedAt (cache.pop key b).1 key' ↔
      ¬ (key' = key ∧ c = b) ∧ c ∈ cachedAt cache key' := by
  by_cases hkey : key' = key
  · subst hkey
    unfold pop cachedAt
    cases hget : cache.get? key' with
    | none => simp [hget]
    | some entry =>
        cases entry with
        | one old =>
            by_cases hb : old = b
            · simp [hb, OrdDict.get?_erase]
            · simp only [hb, if_false, hget, List.mem_singleton, true_and]
              exact ⟨fun h => ⟨fun hcb => hb (h.symm.trans hcb), h⟩, And.right⟩
        | many blocks =>
            by_cases hrest : blocks.filter (· ≠ b) = []
            · have hnone : ∀ c ∈ blocks, c = b := by simpa using hrest
              simp only [hrest, if_true, OrdDict.get?_erase, List.not_mem_nil, true_and,
                false_iff, not_and]
              exact fun hne hmem => hne (hnone c hmem)
            · simp only [hrest, if_false, OrdDict.get?_insert_self, List.mem_filter, true_and,
                decide_eq_true_eq]
              exact and_comm
  · have hget : (cache.pop key b).1.get? key' = cache.get? key' := by
      unfold pop
      split
      · rfl
      · split <;> simp [OrdDict.get?_erase, hkey]
      · dsimp only
        split <;> simp [OrdDict.get?_erase, OrdDict.get?_insert, hkey]
    simp [cachedAt, hget, hkey]

theorem pop_found : (cache.pop key b).2 = true ↔ b ∈ cachedAt cache key := by
  unfold pop cachedAt
  cases cache.get? key with
  | none => simp
  | some entry =>
      cases entry with
      | one old =>
          by_cases hb : old = b
          · simp [hb]
          · simp [hb, Ne.symm hb]
      | many blocks => simp

end BlockHashToBlockMap

/-- A block has a hash exactly when the map holds it for that hash. -/
structure Indexed (pool : BlockPool η) : Prop where
  mem_cachedAt : ∀ key b,
    b ∈ cachedAt pool.cachedBlockHashToBlock key ↔ (pool.blocks b).blockHash = some key
  hashed : ∀ b, (pool.blocks b).blockHash ≠ none → b ≠ nullBlock ∧ b < pool.numGpuBlocks
  disabled : pool.enableCaching = false → ∀ b, (pool.blocks b).blockHash = none

namespace BlockPool

variable {pool : BlockPool η} {b c : BlockId} {key : BlockKey η}

/-- What an operation that only moves hashes leaves unchanged. -/
structure SameCounts (pool pool' : BlockPool η) : Prop where
  numGpuBlocks_eq : pool'.numGpuBlocks = pool.numGpuBlocks
  enableCaching_eq : pool'.enableCaching = pool.enableCaching
  hashBlockSize_eq : pool'.hashBlockSize = pool.hashBlockSize
  queue_eq : pool'.freeBlockQueue = pool.freeBlockQueue
  counter_eq : pool'.numFreeBlocks = pool.numFreeBlocks
  refCnt_eq : ∀ b, (pool'.blocks b).refCnt = (pool.blocks b).refCnt

omit [DecidableEq η] in
theorem SameCounts.refl (pool : BlockPool η) : SameCounts pool pool :=
  ⟨rfl, rfl, rfl, rfl, rfl, fun _ => rfl⟩

omit [DecidableEq η] in
theorem SameCounts.trans {pool₁ pool₂ pool₃ : BlockPool η} (h : SameCounts pool₁ pool₂)
    (h' : SameCounts pool₂ pool₃) : SameCounts pool₁ pool₃ :=
  ⟨h'.1.trans h.1, h'.2.trans h.2, h'.3.trans h.3, h'.4.trans h.4, h'.5.trans h.5,
    fun b => (h'.6 b).trans (h.6 b)⟩

end BlockPool

/-! ### Evicting one block -/

variable {pool : BlockPool η} {b c : BlockId} {key : BlockKey η}

open BlockPool (SameCounts)

theorem maybeEvict_sameCounts (b : BlockId) : SameCounts pool (pool.maybeEvictCachedBlock b) := by
  unfold BlockPool.maybeEvictCachedBlock
  split
  · exact .refl pool
  · dsimp only
    split
    · refine ⟨rfl, rfl, rfl, rfl, rfl, fun c => ?_⟩
      by_cases hc : c = b <;> simp [BlockPool.update, Function.update, hc]
    · exact ⟨rfl, rfl, rfl, rfl, rfl, fun _ => rfl⟩

theorem Indexed.maybeEvict_hash (h : Indexed pool) (b c : BlockId) :
    ((pool.maybeEvictCachedBlock b).blocks c).blockHash =
      if c = b then none else (pool.blocks c).blockHash := by
  unfold BlockPool.maybeEvictCachedBlock
  cases hhash : (pool.blocks b).blockHash with
  | none => by_cases hc : c = b <;> simp [hc, hhash]
  | some key =>
      have hfound : (pool.cachedBlockHashToBlock.pop key b).2 = true :=
        BlockHashToBlockMap.pop_found.mpr ((h.mem_cachedAt key b).mpr hhash)
      by_cases hc : c = b <;> simp [hfound, BlockPool.update, Function.update, hc]

theorem Indexed.maybeEvict (h : Indexed pool) (b : BlockId) :
    Indexed (pool.maybeEvictCachedBlock b) := by
  have hsame : SameCounts pool (pool.maybeEvictCachedBlock b) := maybeEvict_sameCounts b
  constructor
  case mem_cachedAt =>
    intro key c
    rw [h.maybeEvict_hash]
    unfold BlockPool.maybeEvictCachedBlock
    cases hhash : (pool.blocks b).blockHash with
    | none =>
        by_cases hc : c = b
        · simp [hc, h.mem_cachedAt, hhash]
        · simp [hc, h.mem_cachedAt]
    | some key' =>
        have hfound : (pool.cachedBlockHashToBlock.pop key' b).2 = true :=
          BlockHashToBlockMap.pop_found.mpr ((h.mem_cachedAt key' b).mpr hhash)
        simp only [hfound, if_true, BlockHashToBlockMap.mem_cachedAt_pop, h.mem_cachedAt]
        by_cases hc : c = b
        · subst hc
          simp [hhash, eq_comm]
        · simp [hc]
  case hashed =>
    intro c hne
    rw [h.maybeEvict_hash] at hne
    by_cases hc : c = b
    · simp [hc] at hne
    · rw [hsame.numGpuBlocks_eq]
      exact h.hashed c (by simpa [hc] using hne)
  case disabled =>
    intro hoff c
    rw [h.maybeEvict_hash, h.disabled (hsame.enableCaching_eq ▸ hoff) c]
    split <;> rfl

theorem Indexed.evictBlocks (h : Indexed pool) (blockIds : List BlockId) :
    Ensures (fun e => e = .assertion) (fun pool' => Indexed pool' ∧ SameCounts pool pool' ∧
      ∀ b, (pool'.blocks b).blockHash = none ∨
        (pool'.blocks b).blockHash = (pool.blocks b).blockHash) (pool.evictBlocks blockIds) := by
  refine Ensures.foldlM (I := fun _ pool' => Indexed pool' ∧ SameCounts pool pool' ∧
    ∀ b, (pool'.blocks b).blockHash = none ∨
      (pool'.blocks b).blockHash = (pool.blocks b).blockHash) ?_ blockIds pool
    ⟨h, .refl pool, fun _ => .inr rfl⟩
  rintro b rest pool' ⟨hindexed, hsame, hhash⟩
  split
  · refine .ok ⟨hindexed.maybeEvict b, hsame.trans (maybeEvict_sameCounts b), fun c => ?_⟩
    rw [hindexed.maybeEvict_hash]
    split
    · exact .inl rfl
    · exact hhash c
  · exact .error rfl

/-! ### Caching one block -/

omit [DecidableEq η] in
@[simp] theorem update_blocks (f : KVCacheBlock η → KVCacheBlock η) (c : BlockId) :
    (pool.update b f).blocks c = if c = b then f (pool.blocks c) else pool.blocks c := by
  by_cases hc : c = b
  · subst hc
    simp [BlockPool.update]
  · simp [BlockPool.update, hc]

theorem cacheBlock_sameCounts : SameCounts pool (pool.cacheBlock b key) := by
  refine ⟨rfl, rfl, rfl, rfl, rfl, fun c => ?_⟩
  by_cases hc : c = b <;> simp [BlockPool.cacheBlock, hc]

theorem cacheBlock_hash (c : BlockId) : ((pool.cacheBlock b key).blocks c).blockHash =
    if c = b then some key else (pool.blocks c).blockHash := by
  by_cases hc : c = b <;> simp [BlockPool.cacheBlock, hc]

theorem Indexed.cacheBlock (h : Indexed pool) (hfree : (pool.blocks b).blockHash = none)
    (hnull : b ≠ nullBlock) (hlt : b < pool.numGpuBlocks) (hcaching : pool.enableCaching = true) :
    Indexed (pool.cacheBlock b key) where
  mem_cachedAt := by
    intro key' c
    rw [cacheBlock_hash]
    simp only [BlockPool.cacheBlock, BlockHashToBlockMap.mem_cachedAt_insertBlock]
    change (_ ∨ c ∈ cachedAt pool.cachedBlockHashToBlock key') ↔ _
    rw [h.mem_cachedAt]
    by_cases hc : c = b
    · subst hc
      simp [hfree, eq_comm]
    · simp [hc]
  hashed := by
    intro c hne
    by_cases hc : c = b
    · subst hc
      exact ⟨hnull, hlt⟩
    · rw [cacheBlock_hash, if_neg hc] at hne
      exact h.hashed c hne
  disabled := fun hoff => absurd (hcaching.symm.trans hoff) (by decide)

/-- The loop of `cache_full_blocks`: it meets no block that has a hash, and gives hashes to
blocks of its list only. -/
theorem Indexed.cacheFullBlock_loop {hashes : List η} {scale groupId : ℕ}
    (items : List ((BlockId × Bool) × ℕ)) (h : Indexed pool)
    (hcaching : pool.enableCaching = true)
    (hnodup : ∀ b, b ≠ nullBlock → (items.map fun item => item.1.1).count b ≤ 1)
    (hfree : ∀ item ∈ items, item.1.1 ≠ nullBlock →
      item.1.1 < pool.numGpuBlocks ∧ (pool.blocks item.1.1).blockHash = none) :
    Ensures (fun e => e = .indexError)
      (fun pool' => Indexed pool' ∧ SameCounts pool pool' ∧
        ∀ b, b ∉ items.map (fun item => item.1.1) →
          (pool'.blocks b).blockHash = (pool.blocks b).blockHash)
      (items.foldlM (BlockPool.cacheFullBlock hashes scale groupId) pool) := by
  induction items generalizing pool with
  | nil => exact .ok ⟨h, .refl pool, fun _ _ => rfl⟩
  | cons item items ih =>
      obtain ⟨⟨b, keep⟩, i⟩ := item
      rw [List.foldlM_cons]
      have hnodup' : ∀ c, c ≠ nullBlock → (items.map fun item => item.1.1).count c ≤ 1 := by
        intro c hc
        have := hnodup c hc
        rw [List.map_cons, List.count_cons] at this
        omega
      have hfree' : ∀ item ∈ items, item.1.1 ≠ nullBlock →
          item.1.1 < pool.numGpuBlocks ∧ (pool.blocks item.1.1).blockHash = none :=
        fun item hitem => hfree item (List.mem_cons_of_mem _ hitem)
      by_cases hskip : b = nullBlock ∨ keep = false
      · rw [show BlockPool.cacheFullBlock hashes scale groupId pool ((b, keep), i) = .ok pool by
          simp [BlockPool.cacheFullBlock, hskip]]
        refine (ih h hcaching hnodup' hfree').mono fun pool' hpool' => ?_
        exact ⟨hpool'.1, hpool'.2.1, fun c hc => hpool'.2.2 c fun hmem =>
          hc (List.mem_cons_of_mem _ hmem)⟩
      · have hnull : b ≠ nullBlock := fun heq => hskip (.inl heq)
        obtain ⟨hlt, hnone⟩ := hfree _ (List.mem_cons_self ..) hnull
        cases hhash : BlockPool.groupHash hashes scale i with
        | none =>
            rw [show BlockPool.cacheFullBlock hashes scale groupId pool ((b, keep), i) =
              .error .indexError by simp [BlockPool.cacheFullBlock, hskip, hnone, hhash]]
            exact .error rfl
        | some hash =>
            rw [show BlockPool.cacheFullBlock hashes scale groupId pool ((b, keep), i) =
              .ok (pool.cacheBlock b (hash, groupId)) by
                simp [BlockPool.cacheFullBlock, hskip, hnone, hhash]]
            have hnot : b ∉ items.map fun item => item.1.1 := by
              have := hnodup b hnull
              rw [List.map_cons, List.count_cons_self] at this
              exact List.count_eq_zero.mp (by omega)
            have hsame : SameCounts pool (pool.cacheBlock b (hash, groupId)) :=
              cacheBlock_sameCounts
            have hcached : Indexed (pool.cacheBlock b (hash, groupId)) :=
              h.cacheBlock hnone hnull hlt hcaching
            have hfree'' : ∀ item ∈ items, item.1.1 ≠ nullBlock →
                item.1.1 < (pool.cacheBlock b (hash, groupId)).numGpuBlocks ∧
                  ((pool.cacheBlock b (hash, groupId)).blocks item.1.1).blockHash = none := by
              intro item hitem hne
              have hother : item.1.1 ≠ b := fun heq => hnot (heq ▸ List.mem_map_of_mem hitem)
              rw [cacheBlock_hash, if_neg hother]
              exact hfree' item hitem hne
            refine (ih hcached hcaching hnodup' hfree'').mono fun pool' hpool' => ?_
            refine ⟨hpool'.1, hsame.trans hpool'.2.1, fun c hc => ?_⟩
            rw [List.map_cons, List.mem_cons, not_or] at hc
            rw [hpool'.2.2 c hc.2, cacheBlock_hash, if_neg hc.1]

end TokenCake.KV
