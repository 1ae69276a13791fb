import TokenCake.Verification.Control.Occupied

/-! # The cache manager under the controller

The calls that the controller and the scheduler make together keep the cache manager consistent,
and move blocks between the queue and the tables of the request that they are for. -/

namespace TokenCake.KV

variable {η β : Type} [DecidableEq η] {hash : η → β → η} {base : η} {pool pool' : BlockPool η}

open KVCacheManager

/-- The queue of a pool has only grown. -/
structure Returned (pool pool' : BlockPool η) : Prop where
  numGpuBlocks_eq : pool'.numGpuBlocks = pool.numGpuBlocks
  queue_eq : ∃ freed, pool'.freeBlockQueue = pool.freeBlockQueue ++ freed

omit [DecidableEq η] in
theorem Returned.occupied (h : Returned pool pool') {b : BlockId} (hb : Occupied pool' b) :
    Occupied pool b := by
  obtain ⟨freed, hqueue⟩ := h.queue_eq
  obtain ⟨hnull, hlt, hnot⟩ := hb
  refine ⟨hnull, h.numGpuBlocks_eq ▸ hlt, fun hmem => hnot ?_⟩
  rw [hqueue]
  exact List.mem_append_left _ hmem

omit [DecidableEq η] in
theorem Returned.numFree_le (h : Returned pool pool') (hdrift : drift pool = 0)
    (hdrift' : drift pool' = 0) : pool.numFreeBlocks ≤ pool'.numFreeBlocks := by
  obtain ⟨freed, hqueue⟩ := h.queue_eq
  have hsum := congrArg List.length hqueue
  rw [List.length_append] at hsum
  unfold drift at hdrift hdrift'
  omega

omit [DecidableEq η] in
theorem OnlyFreed.returned {S : BlockId → Prop} (h : OnlyFreed S pool pool')
    (hnum : pool'.numGpuBlocks = pool.numGpuBlocks) : Returned pool pool' :=
  ⟨hnum, h.queue_eq.imp fun _ hfreed => hfreed.1⟩

namespace KVCacheManager

variable {M M' : KVCacheManager η} {r : String} {n : ℕ}

omit [DecidableEq η] in
theorem free_onlyFreed (M : KVCacheManager η) (request : Request η) :
    OnlyFreed (fun _ => True) M.blockPool (M.free request).blockPool := by
  refine (forManagers_forall₂ (Q := OnlyFreed (fun _ => True) M.blockPool) (R := fun _ _ => True)
    (fun pool m _ pool' m' hpool h => ?_) (M.singleTypeManagers.map fun _ => ())
    (.inl (List.length_map _).ge) (.refl _ _)
    (mapManagers_eq fun pool manager => manager.free pool request.requestId)).1
  obtain ⟨rfl, rfl⟩ := Prod.mk.inj (Except.ok.inj h)
  exact ⟨hpool.trans (OnlyFreed.freeBlocks _ _ fun _ _ => trivial), trivial⟩

omit [DecidableEq η] in
/-- Where the windows have slid, what a call needs does not depend on sliding them again. -/
theorem getNumBlocksToAllocate_slid (hpool : M'.blockPool = M.blockPool)
    (hgroups : List.Forall₂ (Passed r n) M.singleTypeManagers M'.singleTypeManagers)
    (numTokens : ℕ) (blocks : List (List BlockId)) (numComputed : ℕ) :
    M'.getNumBlocksToAllocate r numTokens blocks numComputed false =
      M.getNumBlocksToAllocate r numTokens blocks numComputed false := by
  unfold getNumBlocksToAllocate
  rw [hpool]
  generalize M.singleTypeManagers = ms at hgroups ⊢
  generalize M'.singleTypeManagers = ms' at hgroups ⊢
  generalize (0 : ℕ) = sum
  induction hgroups generalizing blocks sum with
  | nil => rfl
  | cons hfirst _ ih =>
      cases blocks with
      | nil => rfl
      | cons hits blocks =>
          rw [List.zip_cons_cons, List.zip_cons_cons, List.foldlM_cons, List.foldlM_cons]
          have hone : ∀ sum : ℕ, _ := fun sum => ih blocks sum
          unfold SingleTypeKVCacheManager.getNumBlocksToAllocate
            SingleTypeKVCacheManager.blockSize
          simp only [hfirst.spec_eq, hfirst.numCachedBlock_same, hfirst.length_eq]
          congr 1
          funext sum
          exact hone sum

omit [DecidableEq η] in
/-- Every call passes some request by. -/
theorem exists_bypasses (op : CacheOp η) : ∃ id, op.Bypasses id := by
  have hother : ∀ r : String, r ≠ r ++ "a" := by
    intro r h
    have hlength := congrArg String.length h
    rw [String.length_append] at hlength
    have hone : "a".length = 1 := by decide
    omega
  cases op with
  | allocateSlots request args => exact ⟨_, hother request.requestId⟩
  | cacheBlocks request n => exact ⟨_, hother request.requestId⟩
  | free request => exact ⟨_, hother request.requestId⟩
  | removeSkippedBlocks | evictBlocks | resetPrefixCache => exact ⟨"", trivial⟩

/-- Why a call is refused, and what a call that is served has checked. -/
theorem allocateSlots_verdict {request : Request η} {args : SlotArgs}
    {result : Option (List (List BlockId))} (h : M.allocateSlots request args = .ok (M', result)) :
    (result = none ∧ M' = M ∧ M.fullSequenceFits request args = .ok false) ∨
    ∃ k, (M.removeSkippedBlocks request.requestId
        (M.totalComputedTokens request args)).numBlocksToAllocate request args = .ok k ∧
      ((result = none ∧ M' = M.removeSkippedBlocks request.requestId
            (M.totalComputedTokens request args) ∧ M'.blockPool.numFreeBlocks < k) ∨
        ∃ blocks, result = some blocks ∧ (k : ℤ) ≤ (M.removeSkippedBlocks request.requestId
          (M.totalComputedTokens request args)).blockPool.numFreeBlocks) := by
  unfold allocateSlots at h
  split at h
  · cases h
  · cases hfits : M.fullSequenceFits request args with
    | error e =>
        rw [hfits] at h
        cases h
    | ok fits =>
        rw [hfits] at h
        dsimp only [bind, Except.bind] at h
        split at h
        · next hnot =>
            cases h
            refine .inl ⟨rfl, rfl, ?_⟩
            cases fits with
            | false => rfl
            | true => exact absurd hnot (by decide)
        · generalize M.removeSkippedBlocks request.requestId
            (M.totalComputedTokens request args) = M₁ at h ⊢
          cases hnum : M₁.numBlocksToAllocate request args with
          | error e =>
              rw [hnum] at h
              cases h
          | ok k =>
              refine .inr ⟨k, rfl, ?_⟩
              rw [hnum] at h
              dsimp only at h
              split at h
              · next hshort =>
                  cases h
                  exact .inl ⟨rfl, rfl, hshort⟩
              · next hroom =>
                  refine .inr ?_
                  have hroom : (k : ℤ) ≤ M₁.blockPool.numFreeBlocks := not_lt.mp hroom
                  cases result with
                  | some blocks => exact ⟨blocks, rfl, hroom⟩
                  | none =>
                      -- Behind the checks there is no refusal.
                      exfalso
                      cases hchecked : M₁.allocateChecked request args with
                      | error e =>
                          rw [hchecked] at h
                          cases h
                      | ok taken =>
                          rw [hchecked] at h
                          dsimp only at h
                          split at h
                          · cases h
                          · cases hcache : taken.1.cacheCoordinatedBlocks request
                              (min (M.totalComputedTokens request args + args.numNewTokens)
                                request.numTokens) with
                            | error e =>
                                rw [hcache] at h
                                cases h
                            | ok M₃ =>
                                rw [hcache] at h
                                cases h

theorem perform_reserved (hreserved : NullReserved M.blockPool) {op : CacheOp η}
    (h : M.perform op = .ok M') :
    NullReserved M'.blockPool ∧ M'.maxModelLen = M.maxModelLen := by
  obtain ⟨id, hbypasses⟩ := exists_bypasses op
  obtain ⟨hpool, hlen, -⟩ := perform_bypassed hreserved hbypasses h
  exact ⟨hpool, hlen⟩

end KVCacheManager

/-! ## Consistency -/

namespace CacheState

variable {m : KVCacheManager η} {s t : CacheState η} {calls : List (PoolCall η)}
  {request : Request η} {args : SlotArgs} {r : String} {n : ℕ}

/-- The state of a run whose calls fit. -/
structure Consistent (s : CacheState η) : Prop extends s.InOrder where
  drift_eq : drift s.manager.blockPool = 0
  reserved : NullReserved s.manager.blockPool

theorem Consistent.start {config : KVCacheConfig} (hnew : KVCacheManager.new config = .ok m) :
    Consistent { manager := m } where
  toInOrder := .start hnew
  drift_eq := (KVCacheManager.new_managed hnew).2
  reserved := by
    have hqueue := (KVCacheManager.new_managed hnew).1.balanced.ledger.mem_queue nullBlock
    refine ⟨fun hmem => (hqueue.mp hmem).1 rfl, fun key hmem => ?_⟩
    unfold KVCacheManager.new at hnew
    dsimp only at hnew
    split at hnew
    · obtain rfl := Except.ok.inj hnew
      simp [BlockPool.new, cachedAt] at hmem
    · cases hnew

theorem Consistent.step (h : s.Consistent) (hfree : CollisionFree hash base) {call : PoolCall η}
    (hissued : s.Issued hash base call) (hfits : s.Fits call) (ht : s.step call = .ok t) :
    t.Consistent := by
  obtain ⟨hs, hdrift⟩ := (h.toInOrder.step hfree hissued fun _ : True => hfits).of_eq_ok ht
  refine ⟨hs, (hdrift trivial).trans h.drift_eq, ?_⟩
  cases call with
  | getComputedBlocks request =>
      change (s.manager.getComputedBlocks request >>= _) = _ at ht
      cases hlookup : s.manager.getComputedBlocks request with
      | error e =>
          rw [hlookup] at ht
          cases ht
      | ok result =>
          rw [hlookup] at ht
          cases ht
          exact h.reserved
  | perform op =>
      change (s.manager.perform op >>= _) = _ at ht
      cases hperform : s.manager.perform op with
      | error e =>
          rw [hperform] at ht
          cases ht
      | ok manager =>
          rw [hperform] at ht
          cases ht
          exact (perform_reserved h.reserved hperform).1

/-- A call of the manager from a consistent state. -/
theorem Consistent.perform (h : s.Consistent) (hfree : CollisionFree hash base)
    (op : CacheOp η) {manager : KVCacheManager η} (hissued : s.Issued hash base (.perform op))
    (hfits : s.Fits (.perform op)) (hop : s.manager.perform op = .ok manager) :
    Consistent { s with manager := manager } ∧
      manager.blockPool.numGpuBlocks = s.manager.blockPool.numGpuBlocks ∧
      manager.maxModelLen = s.manager.maxModelLen := by
  have ht : s.step (.perform op) = .ok { s with manager := manager } := by
    change (s.manager.perform op >>= _) = _
    rw [hop]
    rfl
  refine ⟨h.step hfree hissued hfits ht, ?_, (perform_reserved h.reserved hop).2⟩
  exact ((h.toInOrder.perform (P := False) hissued False.elim).of_eq_ok hop).setup.numGpuBlocks_eq

theorem Consistent.slide (h : s.Consistent) (hfree : CollisionFree hash base) (r : String)
    (n : ℕ) :
    Consistent { s with manager := s.manager.removeSkippedBlocks r n } ∧
      Returned s.manager.blockPool (s.manager.removeSkippedBlocks r n).blockPool := by
  obtain ⟨ht, hnum, -⟩ := h.perform hfree (.removeSkippedBlocks r n) trivial trivial rfl
  exact ⟨ht, (removeSkippedBlocks_slidOnly s.manager r n).pool.returned hnum⟩

theorem Consistent.free (h : s.Consistent) (hfree : CollisionFree hash base)
    (request : Request η) :
    Consistent { s with manager := s.manager.free request } ∧
      Returned s.manager.blockPool (s.manager.free request).blockPool := by
  obtain ⟨ht, hnum, -⟩ := h.perform hfree (.free request) trivial trivial rfl
  exact ⟨ht, (free_onlyFreed s.manager request).returned hnum⟩

theorem Consistent.occupied_iff (h : s.Consistent) {b : BlockId} (hb : b ≠ nullBlock) :
    Occupied s.manager.blockPool b ↔ 0 < (s.manager.blockPool.blocks b).refCnt :=
  h.managed.occupied_iff hb

/-! ## Allocation -/

/-- A block that a call has taken lies in the tables of its request. -/
theorem Consistent.taken_held (h : s.Consistent) (hfree : CollisionFree hash base)
    {manager : KVCacheManager η} {result : Option (List (List BlockId))}
    (hissued : s.Issued hash base (.perform (.allocateSlots request args)))
    (hfits : s.Fits (.perform (.allocateSlots request args)))
    (hslots : s.manager.allocateSlots request args = .ok (manager, result)) {b : BlockId}
    (hb : b ∈ s.manager.blockPool.freeBlockQueue) (hb' : Occupied manager.blockPool b) :
    b ∈ manager.singleTypeManagers.flatMap (·.table request.requestId) := by
  have hop : s.manager.perform (.allocateSlots request args) = .ok manager := by
    rw [KVCacheManager.perform, hslots]
    rfl
  obtain ⟨ht, -, -⟩ := h.perform hfree _ hissued hfits hop
  obtain ⟨-, -, hframed⟩ := allocateSlots_framed h.reserved hslots
  obtain ⟨g, hg, r, hr⟩ := (ht.managed.occupied_iff_held hb'.1).mp hb'
  by_cases hid : r = request.requestId
  · exact List.mem_flatMap.mpr ⟨g, hg, hid ▸ hr⟩
  · have hheld : ∀ g' ∈ manager.singleTypeManagers, b ∈ g'.table r →
        ∃ g ∈ s.manager.singleTypeManagers, b ∈ g.table r := by
      intro g' hg' hmem
      obtain ⟨g, hg, hframe⟩ := forall₂_left hframed.flip g' hg'
      exact ⟨g, hg, hframe.other_eq r hid ▸ hmem⟩
    obtain ⟨g', hg', hmem⟩ := hheld g hg hr
    have hoccupied := (h.managed.occupied_iff_held hb'.1).mpr ⟨g', hg', r, hmem⟩
    exact absurd hb hoccupied.2.2

/-- What an allocation takes off the queue, if the windows of the request have slid. -/
theorem Consistent.allocate (h : s.Consistent)
    {manager : KVCacheManager η} {blocks : List (List BlockId)}
    (hissued : s.Issued hash base (.perform (.allocateSlots request args)))
    (hready : s.manager.Ready request args)
    (hslid : ∀ g ∈ s.manager.singleTypeManagers,
      HasSlid request.requestId (s.manager.totalComputedTokens request args) g)
    (hslots : s.manager.allocateSlots request args = .ok (manager, some blocks)) :
    ∃ k, s.manager.numBlocksToAllocate request args = .ok k ∧
      manager.blockPool.freeBlockQueue.Sublist s.manager.blockPool.freeBlockQueue ∧
      s.manager.blockPool.freeBlockQueue.length ≤ manager.blockPool.freeBlockQueue.length + k := by
  have hpool : (s.slid request args).blockPool = s.manager.blockPool :=
    removeSkippedBlocks_pool _ _ hslid
  obtain ⟨k, hk, hspend⟩ := h.toInOrder.spend h.drift_eq hissued hready
  have hsame : s.manager.numBlocksToAllocate request args = .ok k := by
    rw [← hk]
    exact (getNumBlocksToAllocate_slid hpool (h.toInOrder.slid request args).2.groups _ _ _).symm
  obtain ⟨M₂, hchecked, hcached⟩ := allocateSlots_some hslots
  have hroom : (k : ℤ) ≤ (s.slid request args).blockPool.numFreeBlocks := by
    rcases allocateSlots_verdict hslots with ⟨hnone, -⟩ | ⟨k', hk', ⟨hnone, -⟩ | ⟨_, -, hroom⟩⟩
    · cases hnone
    · cases hnone
    · obtain rfl : k' = k := Except.ok.inj (hk'.symm.trans hk)
      exact hroom
  have htaken := (hspend hroom).of_eq_ok hchecked
  have hqueue : manager.blockPool.freeBlockQueue = M₂.blockPool.freeBlockQueue := by
    rcases hcached with rfl | ⟨n, hn⟩
    · rfl
    · exact cacheCoordinatedBlocks_queue hn
  rw [← hpool, hqueue]
  exact ⟨k, hsame, htaken.sublist, htaken.length_le⟩

end CacheState

end TokenCake.KV
