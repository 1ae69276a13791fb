import TokenCake.Verification.KVCache.Pool

/-! # The ledger of the block pool

`n b` counts the table entries that hold block `b`, and `u b` those among them that have not
been offered to the prefix cache. The ledger of a pool says what these counts determine: the
reference counts, the free queue, and which blocks carry no hash. -/

namespace TokenCake.KV

open BlockPool (SameCounts)

variable {η : Type} [DecidableEq η] {pool pool' : BlockPool η} {n n' u u' : BlockId → ℕ}

/-- How far the counter of the free queue is ahead of the queue. -/
def drift (pool : BlockPool η) : ℤ := pool.numFreeBlocks - pool.freeBlockQueue.length

structure Ledger (pool : BlockPool η) (n u : BlockId → ℕ) : Prop where
  indexed : Indexed pool
  refCnt_eq : ∀ b, b ≠ nullBlock → (pool.blocks b).refCnt = n b
  held_lt : ∀ b, b ≠ nullBlock → 0 < n b → b < pool.numGpuBlocks
  queue_nodup : pool.freeBlockQueue.Nodup
  mem_queue : ∀ b, b ∈ pool.freeBlockQueue ↔ b ≠ nullBlock ∧ b < pool.numGpuBlocks ∧ n b = 0
  drift_nonneg : 0 ≤ drift pool
  uncached_le : ∀ b, b ≠ nullBlock → u b ≤ n b
  uncached_one : ∀ b, b ≠ nullBlock → u b ≤ 1
  uncached_hash : ∀ b, b ≠ nullBlock → 0 < u b → (pool.blocks b).blockHash = none

namespace Ledger

/-- Only the counts of real blocks matter, and fewer blocks may count as uncached. -/
theorem congr (h : Ledger pool n u) (hn : ∀ b, b ≠ nullBlock → n' b = n b)
    (hu : ∀ b, b ≠ nullBlock → u' b ≤ u b) : Ledger pool n' u' where
  indexed := h.indexed
  refCnt_eq := fun b hb => by rw [h.refCnt_eq b hb, hn b hb]
  held_lt := fun b hb hpos => h.held_lt b hb (hn b hb ▸ hpos)
  queue_nodup := h.queue_nodup
  mem_queue := by
    intro b
    rw [h.mem_queue b]
    exact and_congr_right fun hb => by rw [hn b hb]
  drift_nonneg := h.drift_nonneg
  uncached_le := fun b hb => (hu b hb).trans ((h.uncached_le b hb).trans_eq (hn b hb).symm)
  uncached_one := fun b hb => (hu b hb).trans (h.uncached_one b hb)
  uncached_hash := fun b hb hpos => h.uncached_hash b hb (hpos.trans_le (hu b hb))

/-- An operation on hashes that keeps the index and takes no hash to an uncached block. -/
theorem rehash (h : Ledger pool n u) (hindexed : Indexed pool') (hsame : SameCounts pool pool')
    (hu : ∀ b, b ≠ nullBlock → u' b ≤ u b)
    (hhash : ∀ b, b ≠ nullBlock → 0 < u' b → (pool'.blocks b).blockHash = none) :
    Ledger pool' n u' where
  indexed := hindexed
  refCnt_eq := fun b hb => (hsame.refCnt_eq b).trans (h.refCnt_eq b hb)
  held_lt := fun b hb hpos => hsame.numGpuBlocks_eq ▸ h.held_lt b hb hpos
  queue_nodup := hsame.queue_eq ▸ h.queue_nodup
  mem_queue := by
    rw [hsame.queue_eq, hsame.numGpuBlocks_eq]
    exact h.mem_queue
  drift_nonneg := by
    rw [drift, hsame.counter_eq, hsame.queue_eq]
    exact h.drift_nonneg
  uncached_le := fun b hb => (hu b hb).trans (h.uncached_le b hb)
  uncached_one := fun b hb => (hu b hb).trans (h.uncached_one b hb)
  uncached_hash := hhash

theorem evictBlocks (h : Ledger pool n u) (blockIds : List BlockId) :
    Ensures (fun e => e = .assertion) (fun pool' => Ledger pool' n u ∧ SameCounts pool pool')
      (pool.evictBlocks blockIds) := by
  refine (h.indexed.evictBlocks blockIds).mono fun pool' hpool' => ⟨?_, hpool'.2.1⟩
  refine h.rehash hpool'.1 hpool'.2.1 (fun _ _ => le_rfl) fun b hb hpos => ?_
  rcases hpool'.2.2 b with hnone | hold
  · exact hnone
  · exact hold.trans (h.uncached_hash b hb hpos)

theorem resetPrefixCache (h : Ledger pool n u) : Ledger pool.resetPrefixCache.1 n u := by
  unfold BlockPool.resetPrefixCache
  split
  · exact h
  · refine h.rehash ⟨?_, ?_, ?_⟩ ⟨rfl, rfl, rfl, rfl, rfl, fun _ => rfl⟩ (fun _ _ => le_rfl)
      fun _ _ _ => rfl
    · simp [cachedAt]
    · simp
    · simp

end Ledger

/-! ## Touching and freeing blocks -/

/-- What an operation that only moves counts leaves unchanged. -/
structure SameHashes (pool pool' : BlockPool η) : Prop where
  numGpuBlocks_eq : pool'.numGpuBlocks = pool.numGpuBlocks
  enableCaching_eq : pool'.enableCaching = pool.enableCaching
  hashBlockSize_eq : pool'.hashBlockSize = pool.hashBlockSize
  cache_eq : pool'.cachedBlockHashToBlock = pool.cachedBlockHashToBlock
  hash_eq : ∀ b, (pool'.blocks b).blockHash = (pool.blocks b).blockHash

namespace SameHashes

omit [DecidableEq η] in
theorem refl (pool : BlockPool η) : SameHashes pool pool := ⟨rfl, rfl, rfl, rfl, fun _ => rfl⟩

omit [DecidableEq η] in
theorem trans {pool₁ pool₂ pool₃ : BlockPool η} (h : SameHashes pool₁ pool₂)
    (h' : SameHashes pool₂ pool₃) : SameHashes pool₁ pool₃ :=
  ⟨h'.1.trans h.1, h'.2.trans h.2, h'.3.trans h.3, h'.4.trans h.4, fun b => (h'.5 b).trans (h.5 b)⟩

omit [DecidableEq η] in
/-- A reference count moves. -/
theorem update (pool : BlockPool η) (b : BlockId) {f : KVCacheBlock η → KVCacheBlock η}
    (hf : ∀ block, (f block).blockHash = block.blockHash) : SameHashes pool (pool.update b f) := by
  refine ⟨rfl, rfl, rfl, rfl, fun c => ?_⟩
  rw [update_blocks]
  split
  · exact hf _
  · rfl

theorem indexed (h : SameHashes pool pool') (hindexed : Indexed pool) : Indexed pool' where
  mem_cachedAt := by
    rw [h.cache_eq]
    intro key b
    rw [h.hash_eq]
    exact hindexed.mem_cachedAt key b
  hashed := by
    intro b hne
    rw [h.hash_eq] at hne
    rw [h.numGpuBlocks_eq]
    exact hindexed.hashed b hne
  disabled := by
    rw [h.enableCaching_eq]
    intro hoff b
    rw [h.hash_eq]
    exact hindexed.disabled hoff b

end SameHashes

namespace Ledger

/-- An operation on counts: the new ledger from the new counts and the new queue. -/
theorem recount (h : Ledger pool n u) (hsame : SameHashes pool pool')
    (hrefs : ∀ b, b ≠ nullBlock → (pool'.blocks b).refCnt = n' b)
    (hlt : ∀ b, b ≠ nullBlock → 0 < n' b → b < pool.numGpuBlocks)
    (hnodup : pool'.freeBlockQueue.Nodup)
    (hqueue : ∀ b, b ∈ pool'.freeBlockQueue ↔ b ≠ nullBlock ∧ b < pool.numGpuBlocks ∧ n' b = 0)
    (hdrift : drift pool' = drift pool)
    (hu : ∀ b, b ≠ nullBlock → u' b ≤ u b) (hle : ∀ b, b ≠ nullBlock → u' b ≤ n' b) :
    Ledger pool' n' u' where
  indexed := hsame.indexed h.indexed
  refCnt_eq := hrefs
  held_lt := fun b hb hpos => hsame.numGpuBlocks_eq ▸ hlt b hb hpos
  queue_nodup := hnodup
  mem_queue := hsame.numGpuBlocks_eq ▸ hqueue
  drift_nonneg := hdrift ▸ h.drift_nonneg
  uncached_le := hle
  uncached_one := fun b hb => (hu b hb).trans (h.uncached_one b hb)
  uncached_hash := fun b hb hpos =>
    (hsame.hash_eq b).trans (h.uncached_hash b hb (hpos.trans_le (hu b hb)))

theorem touchBlock (h : Ledger pool n u) {b : BlockId}
    (hlt : b ≠ nullBlock → b < pool.numGpuBlocks) :
    ∃ pool', pool.touchBlock b = .ok pool' ∧ SameHashes pool pool' ∧
      Ledger pool' (fun c => n c + [b].count c) u ∧
      pool'.freeBlockQueue = pool.freeBlockQueue.filter (· ≠ b) ∧ drift pool' = drift pool := by
  have hhash := (SameHashes.update pool b
    (f := fun block => { block with refCnt := block.refCnt + 1 }) fun _ => rfl).hash_eq
  have hrefs : ∀ c, c ≠ nullBlock → ((pool.update b fun block =>
      { block with refCnt := block.refCnt + 1 }).blocks c).refCnt =
        ((n c + [b].count c : ℕ) : ℤ) := by
    intro c hc
    rw [update_blocks]
    by_cases hcb : c = b
    · simp [hcb, hcb ▸ h.refCnt_eq c hc]
    · simp [hcb, h.refCnt_eq c hc, Ne.symm hcb]
  have hheld : ∀ c, c ≠ nullBlock → 0 < n c + [b].count c → c < pool.numGpuBlocks := by
    intro c hc hpos
    by_cases hcb : c = b
    · exact hcb ▸ hlt (hcb ▸ hc)
    · exact h.held_lt c hc (by simpa [List.count_singleton, Ne.symm hcb] using hpos)
  have hqueue : ∀ c, c ∈ pool.freeBlockQueue.filter (· ≠ b) ↔
      c ≠ nullBlock ∧ c < pool.numGpuBlocks ∧ n c + [b].count c = 0 := by
    intro c
    rw [List.mem_filter, h.mem_queue c]
    by_cases hcb : c = b
    · simp [hcb]
    · simp [hcb, Ne.symm hcb]
  have hle : ∀ c, c ≠ nullBlock → u c ≤ n c + [b].count c := fun c hc =>
    (h.uncached_le c hc).trans (Nat.le_add_right ..)
  have hnodup := h.queue_nodup.filter (· ≠ b)
  by_cases hfree : (pool.blocks b).refCnt = 0 ∧ b ≠ nullBlock
  · have hmem : b ∈ pool.freeBlockQueue := by
      refine (h.mem_queue b).mpr ⟨hfree.2, hlt hfree.2, ?_⟩
      exact_mod_cast (h.refCnt_eq b hfree.2).symm.trans hfree.1
    have herase : pool.freeBlockQueue.erase b = pool.freeBlockQueue.filter (· ≠ b) :=
      (h.queue_nodup.erase_eq_filter b).trans (List.filter_congr fun c _ => by
        rcases eq_or_ne c b with hc | hc <;> simp [hc])
    have hdrift : drift { pool.update b (fun block => { block with refCnt := block.refCnt + 1 }) with
        freeBlockQueue := pool.freeBlockQueue.erase b
        numFreeBlocks := pool.numFreeBlocks - 1 } = drift pool := by
      have := List.length_erase_of_mem hmem
      have := List.length_pos_of_mem hmem
      simp only [drift]
      omega
    refine ⟨_, (if_pos hfree).trans (if_pos hmem), ⟨rfl, rfl, rfl, rfl, hhash⟩, ?_, herase, hdrift⟩
    refine h.recount ⟨rfl, rfl, rfl, rfl, hhash⟩ hrefs hheld ?_ ?_ hdrift (fun _ _ => le_rfl) hle
    · exact herase ▸ hnodup
    · exact herase ▸ hqueue
  · have hkeep : pool.freeBlockQueue.filter (· ≠ b) = pool.freeBlockQueue := by
      refine List.filter_eq_self.mpr fun c hc => ?_
      simp only [ne_eq, decide_eq_true_eq]
      rintro rfl
      obtain ⟨hnull, _, hzero⟩ := (h.mem_queue c).mp hc
      exact hfree ⟨by rw [h.refCnt_eq c hnull, hzero]; rfl, hnull⟩
    refine ⟨_, if_neg hfree, ⟨rfl, rfl, rfl, rfl, hhash⟩, ?_, hkeep.symm, rfl⟩
    refine h.recount ⟨rfl, rfl, rfl, rfl, hhash⟩ hrefs hheld h.queue_nodup ?_ rfl
      (fun _ _ => le_rfl) hle
    exact hkeep ▸ hqueue

theorem touch (blocks : List BlockId) (h : Ledger pool n u)
    (hlt : ∀ b ∈ blocks, b ≠ nullBlock → b < pool.numGpuBlocks) :
    ∃ pool', pool.touch blocks = .ok pool' ∧ SameHashes pool pool' ∧
      Ledger pool' (fun c => n c + blocks.count c) u ∧
      pool'.freeBlockQueue = pool.freeBlockQueue.filter (· ∉ blocks) ∧
      drift pool' = drift pool := by
  induction blocks generalizing pool n with
  | nil =>
      exact ⟨pool, rfl, .refl pool, by simpa using h, by simp, rfl⟩
  | cons b blocks ih =>
      obtain ⟨pool₁, hstep, hsame₁, hledger₁, hqueue₁, hdrift₁⟩ :=
        h.touchBlock (hlt b (List.mem_cons_self ..))
      have hlt₁ : ∀ c ∈ blocks, c ≠ nullBlock → c < pool₁.numGpuBlocks := by
        rw [hsame₁.numGpuBlocks_eq]
        exact fun c hc => hlt c (List.mem_cons_of_mem _ hc)
      obtain ⟨pool₂, hloop, hsame₂, hledger₂, hqueue₂, hdrift₂⟩ := ih hledger₁ hlt₁
      refine ⟨pool₂, ?_, hsame₁.trans hsame₂, hledger₂.congr (fun c _ => ?_) fun _ _ => le_rfl, ?_,
        hdrift₂.trans hdrift₁⟩
      · rw [BlockPool.touch, List.foldlM_cons, hstep]
        exact hloop
      · simp only [List.count_cons, List.count_nil]
        omega
      · rw [hqueue₂, hqueue₁, List.filter_filter]
        refine List.filter_congr fun c _ => ?_
        rcases eq_or_ne c b with hc | hc <;> simp [hc]

/-- Returning blocks that are all held, none of them twice. -/
theorem freeBlocks (h : Ledger pool n u) (blocks : List BlockId) (n' u' : BlockId → ℕ)
    (hn : ∀ b, b ≠ nullBlock → n b = n' b + blocks.count b)
    (hone : ∀ b, b ≠ nullBlock → blocks.count b ≤ 1)
    (hu : ∀ b, b ≠ nullBlock → u' b ≤ u b) (hle : ∀ b, b ≠ nullBlock → u' b ≤ n' b) :
    SameHashes pool (pool.freeBlocks blocks) ∧ drift (pool.freeBlocks blocks) = drift pool ∧
      Ledger (pool.freeBlocks blocks) n' u' := by
  -- All counts are lowered before the queue is touched.
  have hloop : ∀ (bs : List BlockId) (p : BlockPool η),
      let p' := bs.foldl (fun p b => p.update b fun block =>
        { block with refCnt := block.refCnt - 1 }) p
      SameHashes p p' ∧ p'.freeBlockQueue = p.freeBlockQueue ∧
        p'.numFreeBlocks = p.numFreeBlocks ∧
        ∀ c, (p'.blocks c).refCnt = (p.blocks c).refCnt - bs.count c := by
    intro bs
    induction bs with
    | nil => exact fun p => ⟨.refl p, rfl, rfl, fun c => by simp⟩
    | cons b bs ih =>
        intro p
        obtain ⟨hsame, hqueue, hcounter, hrefs⟩ := ih (p.update b fun block =>
          { block with refCnt := block.refCnt - 1 })
        have hstep := SameHashes.update p b
          (f := fun block => { block with refCnt := block.refCnt - 1 }) fun _ => rfl
        refine ⟨hstep.trans hsame, hqueue, hcounter, fun c => ?_⟩
        rw [List.foldl_cons, hrefs, update_blocks, List.count_cons]
        by_cases hc : c = b
        · simp only [hc, if_true, beq_self_eq_true, Nat.cast_add, Nat.cast_one]
          omega
        · simp [hc, Ne.symm hc]
  obtain ⟨hsame, hqueue, hcounter, hrefs⟩ := hloop blocks pool
  have hrefs' : ∀ c, c ≠ nullBlock → ((pool.freeBlocks blocks).blocks c).refCnt = n' c := by
    intro c hc
    change ((blocks.foldl _ pool).blocks c).refCnt = _
    rw [hrefs, h.refCnt_eq c hc, hn c hc]
    push_cast
    omega
  have hsame' : SameHashes pool (pool.freeBlocks blocks) :=
    ⟨hsame.1, hsame.2, hsame.3, hsame.4, hsame.5⟩
  have hqueue' : (pool.freeBlocks blocks).freeBlockQueue = pool.freeBlockQueue ++
      blocks.filter fun b => decide (((pool.freeBlocks blocks).blocks b).refCnt = 0 ∧
        b ≠ nullBlock) := congrArg (· ++ _) hqueue
  have hmem_freed : ∀ c, c ∈ blocks.filter (fun b =>
      decide (((pool.freeBlocks blocks).blocks b).refCnt = 0 ∧ b ≠ nullBlock)) ↔
        c ≠ nullBlock ∧ c ∈ blocks ∧ n' c = 0 := by
    intro c
    rw [List.mem_filter, decide_eq_true_eq]
    refine ⟨fun ⟨hmem, hzero, hc⟩ => ⟨hc, hmem, ?_⟩, fun ⟨hc, hmem, hzero⟩ => ⟨hmem, ?_, hc⟩⟩
    · exact_mod_cast (hrefs' c hc).symm.trans hzero
    · rw [hrefs' c hc, hzero]
      rfl
  have hdrift : drift (pool.freeBlocks blocks) = drift pool := by
    rw [drift, hqueue', List.length_append]
    change (blocks.foldl _ pool).numFreeBlocks + _ - _ = _
    rw [hcounter]
    push_cast
    exact add_sub_add_right_eq_sub ..
  refine ⟨hsame', hdrift, h.recount hsame' hrefs' ?_ ?_ ?_ hdrift hu hle⟩
  · intro c hc hpos
    exact h.held_lt c hc (by rw [hn c hc]; omega)
  · rw [hqueue']
    refine List.nodup_append.mpr ⟨h.queue_nodup, ?_, ?_⟩
    · refine List.nodup_iff_count_le_one.mpr fun c => ?_
      by_cases hc : c = nullBlock
      · subst hc
        rw [List.count_eq_zero_of_not_mem fun hmem => ((hmem_freed _).mp hmem).1 rfl]
        exact Nat.zero_le 1
      · exact (List.filter_sublist.count_le c).trans (hone c hc)
    · rintro a ha c hc rfl
      obtain ⟨hnull, _, hzero⟩ := (h.mem_queue a).mp ha
      have hcount := List.count_pos_iff.mpr ((hmem_freed a).mp hc).2.1
      rw [hn a hnull] at hzero
      omega
  · intro c
    rw [hqueue', List.mem_append, h.mem_queue, hmem_freed]
    constructor
    · rintro (⟨hc, hlt, hzero⟩ | ⟨hc, hmem, hzero⟩)
      · exact ⟨hc, hlt, by rw [hn c hc] at hzero; omega⟩
      · refine ⟨hc, h.held_lt c hc ?_, hzero⟩
        rw [hn c hc]
        have := List.count_pos_iff.mpr hmem
        omega
    · rintro ⟨hc, hlt, hzero⟩
      by_cases hmem : c ∈ blocks
      · exact .inr ⟨hc, hmem, hzero⟩
      · refine .inl ⟨hc, hlt, ?_⟩
        rw [hn c hc, hzero, List.count_eq_zero_of_not_mem hmem]

end Ledger

/-! ## New blocks -/

/-- One block of `get_new_blocks`: it loses its hash and gains a reference. -/
theorem Indexed.takeBlock (h : Indexed pool) {b : BlockId} (hfree : (pool.blocks b).refCnt = 0) :
    ∃ pool', pool.takeBlock b = .ok pool' ∧ Indexed pool' ∧
      pool'.numGpuBlocks = pool.numGpuBlocks ∧ pool'.enableCaching = pool.enableCaching ∧
      pool'.hashBlockSize = pool.hashBlockSize ∧
      pool'.freeBlockQueue = pool.freeBlockQueue ∧ pool'.numFreeBlocks = pool.numFreeBlocks ∧
      (∀ c, (pool'.blocks c).refCnt = (pool.blocks c).refCnt + [b].count c) ∧
      ∀ c, (pool'.blocks c).blockHash = if c = b then none else (pool.blocks c).blockHash := by
  -- The pool after the eviction, which does nothing when caching is off.
  obtain ⟨evicted, hevicted, hindexed, hsame, hhash⟩ : ∃ evicted,
      (if pool.enableCaching then pool.maybeEvictCachedBlock b else pool) = evicted ∧
        Indexed evicted ∧ SameCounts pool evicted ∧
        ∀ c, (evicted.blocks c).blockHash = if c = b then none else (pool.blocks c).blockHash := by
    cases hcaching : pool.enableCaching with
    | true => exact ⟨_, rfl, h.maybeEvict b, maybeEvict_sameCounts b, h.maybeEvict_hash b⟩
    | false =>
        refine ⟨pool, rfl, h, .refl pool, fun c => ?_⟩
        rw [h.disabled hcaching c]
        split <;> rfl
  have hsameHashes := SameHashes.update evicted b
    (f := fun block => { block with refCnt := block.refCnt + 1 }) fun _ => rfl
  refine ⟨evicted.update b fun block => { block with refCnt := block.refCnt + 1 }, ?_,
    hsameHashes.indexed hindexed, hsame.numGpuBlocks_eq, hsame.enableCaching_eq,
    hsame.hashBlockSize_eq, hsame.queue_eq, hsame.counter_eq, fun c => ?_, fun c => ?_⟩
  · unfold BlockPool.takeBlock
    rw [hevicted]
    exact if_neg (by rw [hsame.refCnt_eq, hfree]; exact fun hne => hne rfl)
  · rw [update_blocks]
    by_cases hc : c = b
    · simp [hc, hsame.refCnt_eq]
    · simp [hc, hsame.refCnt_eq, Ne.symm hc]
  · rw [hsameHashes.hash_eq, hhash]

theorem Indexed.takeBlocks (blocks : List BlockId) (h : Indexed pool) (hnodup : blocks.Nodup)
    (hfree : ∀ b ∈ blocks, (pool.blocks b).refCnt = 0) :
    ∃ pool', blocks.foldlM BlockPool.takeBlock pool = .ok pool' ∧ Indexed pool' ∧
      pool'.numGpuBlocks = pool.numGpuBlocks ∧ pool'.enableCaching = pool.enableCaching ∧
      pool'.hashBlockSize = pool.hashBlockSize ∧
      pool'.freeBlockQueue = pool.freeBlockQueue ∧ pool'.numFreeBlocks = pool.numFreeBlocks ∧
      (∀ c, (pool'.blocks c).refCnt = (pool.blocks c).refCnt + blocks.count c) ∧
      ∀ c, (pool'.blocks c).blockHash = if c ∈ blocks then none else (pool.blocks c).blockHash := by
  induction blocks generalizing pool with
  | nil => exact ⟨pool, rfl, h, rfl, rfl, rfl, rfl, rfl, fun c => by simp, fun c => by simp⟩
  | cons b blocks ih =>
      obtain ⟨hnot, hnodup⟩ := List.nodup_cons.mp hnodup
      obtain ⟨pool₁, hstep, h₁, hnum₁, hcaching₁, hsize₁, hqueue₁, hcounter₁, hrefs₁, hhash₁⟩ :=
        h.takeBlock (hfree b (List.mem_cons_self ..))
      have hfree₁ : ∀ c ∈ blocks, (pool₁.blocks c).refCnt = 0 := by
        intro c hc
        have hcb : b ≠ c := fun heq => hnot (heq ▸ hc)
        rw [hrefs₁, hfree c (List.mem_cons_of_mem _ hc), List.count_singleton]
        simp [hcb]
      obtain ⟨pool₂, hloop, h₂, hnum₂, hcaching₂, hsize₂, hqueue₂, hcounter₂, hrefs₂, hhash₂⟩ :=
        ih h₁ hnodup hfree₁
      refine ⟨pool₂, ?_, h₂, hnum₂.trans hnum₁, hcaching₂.trans hcaching₁, hsize₂.trans hsize₁,
        hqueue₂.trans hqueue₁, hcounter₂.trans hcounter₁, fun c => ?_, fun c => ?_⟩
      · rw [List.foldlM_cons, hstep]
        exact hloop
      · rw [hrefs₂, hrefs₁]
        simp only [List.count_cons, List.count_nil]
        push_cast
        omega
      · rw [hhash₂, hhash₁]
        by_cases hc : c = b <;> simp [hc]

/-- The exceptions other than the two assertions on the state of a block. -/
def KVError.Ordinary (e : KVError) : Prop := e ≠ .refCntAssertion ∧ e ≠ .blockHashAssertion

/-- What `get_new_blocks` does when the pool is in order: the blocks come from the front of the
queue and have no hash. A negative count yields no blocks and lets the counter drift. -/
structure NewBlocks (pool : BlockPool η) (k : ℤ) (n u : BlockId → ℕ)
    (result : List BlockId × BlockPool η) : Prop where
  blocks_eq : result.1 = pool.freeBlockQueue.take k.toNat
  queue_eq : result.2.freeBlockQueue = pool.freeBlockQueue.drop k.toNat
  length_eq : result.1.length = k.toNat
  ledger : Ledger result.2 (fun b => n b + result.1.count b) (fun b => u b + result.1.count b)
  unhashed : ∀ b ∈ result.1, (result.2.blocks b).blockHash = none
  drift_eq : drift result.2 = drift pool + (-k).toNat
  numGpuBlocks_eq : result.2.numGpuBlocks = pool.numGpuBlocks
  enableCaching_eq : result.2.enableCaching = pool.enableCaching
  hashBlockSize_eq : result.2.hashBlockSize = pool.hashBlockSize

/-- The pool whose queue has lost its front. -/
def popped (pool : BlockPool η) (k : ℤ) : BlockPool η :=
  { pool with
    freeBlockQueue := pool.freeBlockQueue.drop k.toNat
    numFreeBlocks := pool.numFreeBlocks - k }

omit [DecidableEq η] in
theorem popleftN_eq {k : ℤ} (hcounter : ¬ pool.numFreeBlocks < k)
    (hk : k.toNat ≤ pool.freeBlockQueue.length) :
    pool.popleftN k = .ok (pool.freeBlockQueue.take k.toNat, popped pool k) := by
  by_cases hzero : k = 0
  · subst hzero
    simp [BlockPool.popleftN, popped]
  · have hlong : ¬ (pool.numFreeBlocks < k ∨ pool.freeBlockQueue.length < k.toNat) :=
      not_or.mpr ⟨hcounter, Nat.not_lt.mpr hk⟩
    rw [BlockPool.popleftN, if_neg hzero, if_neg hlong]
    rfl

/-- Taking the blocks that have left the queue. -/
theorem Ledger.takeBlocks (h : Ledger pool n u) {k : ℤ}
    (hk : k.toNat ≤ pool.freeBlockQueue.length) :
    ∃ pool', (pool.freeBlockQueue.take k.toNat).foldlM BlockPool.takeBlock (popped pool k) =
        .ok pool' ∧
      NewBlocks pool k n u (pool.freeBlockQueue.take k.toNat, pool') := by
  have hfront : ∀ b ∈ pool.freeBlockQueue.take k.toNat, ((popped pool k).blocks b).refCnt = 0 := by
    intro b hb
    obtain ⟨hnull, _, hzero⟩ := (h.mem_queue b).mp (List.mem_of_mem_take hb)
    exact (h.refCnt_eq b hnull).trans (by rw [hzero]; rfl)
  have hnodup : (pool.freeBlockQueue.take k.toNat).Nodup :=
    h.queue_nodup.sublist (List.take_sublist ..)
  have hpopped : Indexed (popped pool k) :=
    ⟨h.indexed.mem_cachedAt, h.indexed.hashed, h.indexed.disabled⟩
  obtain ⟨pool', hloop, hindexed, hnum, hcaching, hsize, hqueue, hcount, hrefs, hhash⟩ :=
    hpopped.takeBlocks _ hnodup hfront
  have hcount_le : ∀ b, (pool.freeBlockQueue.take k.toNat).count b ≤ 1 :=
    fun b => List.nodup_iff_count_le_one.mp hnodup b
  have hsplit : ∀ b, b ∈ pool.freeBlockQueue ↔
      b ∈ pool.freeBlockQueue.take k.toNat ∨ b ∈ pool.freeBlockQueue.drop k.toNat := by
    intro b
    rw [← List.mem_append, List.take_append_drop]
  have hdisjoint : ∀ b ∈ pool.freeBlockQueue.take k.toNat, b ∉ pool.freeBlockQueue.drop k.toNat := by
    have := h.queue_nodup
    rw [← List.take_append_drop k.toNat pool.freeBlockQueue] at this
    exact fun b hb hb' => (List.nodup_append.mp this).2.2 b hb b hb' rfl
  have hdrift : drift pool' = drift pool + (-k).toNat := by
    rw [drift, hcount, hqueue]
    change pool.numFreeBlocks - k - ((pool.freeBlockQueue.drop k.toNat).length : ℤ) = _
    rw [List.length_drop, drift]
    omega
  have hledger : Ledger pool' (fun b => n b + (pool.freeBlockQueue.take k.toNat).count b)
      (fun b => u b + (pool.freeBlockQueue.take k.toNat).count b) := by
    constructor
    case indexed => exact hindexed
    case refCnt_eq =>
      intro b hb
      rw [hrefs]
      push_cast
      exact congrArg (· + _) (h.refCnt_eq b hb)
    case held_lt =>
      intro b hb hpos
      rw [hnum]
      by_cases hmem : b ∈ pool.freeBlockQueue.take k.toNat
      · exact ((h.mem_queue b).mp (List.mem_of_mem_take hmem)).2.1
      · rw [List.count_eq_zero_of_not_mem hmem] at hpos
        exact h.held_lt b hb hpos
    case queue_nodup => exact hqueue ▸ h.queue_nodup.sublist (List.drop_sublist ..)
    case mem_queue =>
      intro b
      rw [hqueue, hnum]
      change b ∈ pool.freeBlockQueue.drop k.toNat ↔ b ≠ nullBlock ∧ b < pool.numGpuBlocks ∧ _
      constructor
      · intro hmem
        obtain ⟨hnull, hlt, hzero⟩ := (h.mem_queue b).mp ((hsplit b).mpr (.inr hmem))
        refine ⟨hnull, hlt, ?_⟩
        rw [hzero, List.count_eq_zero_of_not_mem fun hb => hdisjoint b hb hmem]
      · rintro ⟨hnull, hlt, hzero⟩
        have hq := (h.mem_queue b).mpr ⟨hnull, hlt, by omega⟩
        refine ((hsplit b).mp hq).resolve_left fun hb => ?_
        have := List.count_pos_iff.mpr hb
        omega
    case drift_nonneg => exact hdrift ▸ add_nonneg h.drift_nonneg (Int.natCast_nonneg _)
    case uncached_le => exact fun b hb => Nat.add_le_add_right (h.uncached_le b hb) _
    case uncached_one =>
      intro b hb
      by_cases hmem : b ∈ pool.freeBlockQueue.take k.toNat
      · have hzero := ((h.mem_queue b).mp (List.mem_of_mem_take hmem)).2.2
        have := h.uncached_le b hb
        have := hcount_le b
        omega
      · rw [List.count_eq_zero_of_not_mem hmem]
        exact h.uncached_one b hb
    case uncached_hash =>
      intro b hb hpos
      rw [hhash]
      split
      · rfl
      · next hmem =>
          rw [List.count_eq_zero_of_not_mem hmem] at hpos
          exact h.uncached_hash b hb hpos
  exact ⟨pool', hloop, rfl, hqueue, List.length_take_of_le hk, hledger,
    fun b hb => by rw [hhash, if_pos hb], hdrift, hnum, hcaching, hsize⟩

/-- `get_new_blocks` fails only when the queue is too short. -/
theorem Ledger.getNewBlocks (h : Ledger pool n u) (k : ℤ) :
    Ensures (fun e => e.Ordinary ∧ pool.freeBlockQueue.length < k.toNat)
      (NewBlocks pool k n u) (pool.getNewBlocks k) := by
  have hahead := h.drift_nonneg
  unfold drift at hahead
  unfold BlockPool.getNewBlocks
  by_cases hcounter : pool.numFreeBlocks < k
  · rw [if_pos hcounter]
    exact .error ⟨⟨by decide, by decide⟩, by omega⟩
  · rw [if_neg hcounter]
    by_cases hk : k.toNat ≤ pool.freeBlockQueue.length
    · obtain ⟨pool', hloop, hnew⟩ := h.takeBlocks hk
      rw [popleftN_eq hcounter hk]
      change Ensures _ _ ((pool.freeBlockQueue.take k.toNat).foldlM BlockPool.takeBlock _ >>= _)
      exact .bind_ok hloop hnew
    · have hshort : pool.popleftN k = .error .assertion := by
        rw [BlockPool.popleftN, if_neg (by omega), if_pos (.inr (by omega))]
      rw [hshort]
      exact .error ⟨⟨by decide, by decide⟩, by omega⟩

end TokenCake.KV
