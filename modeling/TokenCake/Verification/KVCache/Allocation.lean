import TokenCake.Verification.Growth.Serving
import TokenCake.Verification.KVCache.Prediction

/-! # What a call of `allocate_slots` takes

In every state of a run, the allocation of a call takes the blocks that were predicted for it, and
a call that is refused only gives back what lies before a window. -/

namespace TokenCake.KV

variable {η β : Type} [DecidableEq η] {hash : η → β → η} {base : η} {pool pool' : BlockPool η}

/-! ## Giving back blocks -/

/-- The pool has only got back blocks that satisfy `S`. -/
structure OnlyFreed (S : BlockId → Prop) (pool pool' : BlockPool η) : Prop where
  cache_eq : pool'.cachedBlockHashToBlock = pool.cachedBlockHashToBlock
  hash_eq : ∀ b, (pool'.blocks b).blockHash = (pool.blocks b).blockHash
  refCnt_eq : ∀ b, ¬S b → (pool'.blocks b).refCnt = (pool.blocks b).refCnt
  queue_eq : ∃ freed, pool'.freeBlockQueue = pool.freeBlockQueue ++ freed ∧ ∀ b ∈ freed, S b

namespace OnlyFreed

variable {S : BlockId → Prop}

omit [DecidableEq η] in
theorem refl (S : BlockId → Prop) (pool : BlockPool η) : OnlyFreed S pool pool :=
  ⟨rfl, fun _ => rfl, fun _ _ => rfl, [], by simp⟩

omit [DecidableEq η] in
theorem trans {pool₁ pool₂ pool₃ : BlockPool η} (h : OnlyFreed S pool₁ pool₂)
    (h' : OnlyFreed S pool₂ pool₃) : OnlyFreed S pool₁ pool₃ where
  cache_eq := h'.cache_eq.trans h.cache_eq
  hash_eq b := (h'.hash_eq b).trans (h.hash_eq b)
  refCnt_eq b hb := (h'.refCnt_eq b hb).trans (h.refCnt_eq b hb)
  queue_eq := by
    obtain ⟨freed, hqueue, hfreed⟩ := h.queue_eq
    obtain ⟨freed', hqueue', hfreed'⟩ := h'.queue_eq
    refine ⟨freed ++ freed', by rw [hqueue', hqueue, List.append_assoc], fun b hb => ?_⟩
    exact (List.mem_append.mp hb).elim (hfreed b) (hfreed' b)

omit [DecidableEq η] in
theorem mono {S' : BlockId → Prop} (h : OnlyFreed S pool pool')
    (hS : ∀ b, S b → S' b) : OnlyFreed S' pool pool' where
  cache_eq := h.cache_eq
  hash_eq := h.hash_eq
  refCnt_eq b hb := h.refCnt_eq b fun hs => hb (hS b hs)
  queue_eq := by
    obtain ⟨freed, hqueue, hfreed⟩ := h.queue_eq
    exact ⟨freed, hqueue, fun b hb => hS b (hfreed b hb)⟩

omit [DecidableEq η] in
theorem freeBlocks (pool : BlockPool η) (blocks : List BlockId) (h : ∀ b ∈ blocks, S b) :
    OnlyFreed S pool (pool.freeBlocks blocks) := by
  have hloop : OnlyFreed S pool (blocks.foldl (fun pool b => pool.update b fun block =>
      { block with refCnt := block.refCnt - 1 }) pool) := by
    induction blocks generalizing pool with
    | nil => exact .refl S pool
    | cons b blocks ih =>
        obtain ⟨hb, hblocks⟩ := List.forall_mem_cons.mp h
        have hstep : OnlyFreed S pool (pool.update b fun block =>
            { block with refCnt := block.refCnt - 1 }) := by
          refine ⟨rfl, (SameHashes.update pool b
            (f := fun block => { block with refCnt := block.refCnt - 1 }) fun _ => rfl).hash_eq,
            fun c hc => ?_, [], ?_⟩
          · rw [update_blocks, if_neg]
            rintro rfl
            exact hc hb
          · exact ⟨(List.append_nil _).symm, fun c hc => absurd hc List.not_mem_nil⟩
        exact hstep.trans (ih _ hblocks)
  refine hloop.trans ⟨rfl, fun _ => rfl, fun _ _ => rfl, _, rfl, fun b hb => ?_⟩
  exact h b (List.mem_filter.mp hb).1

end OnlyFreed

/-! ## Letting the windows slide -/

section Slide

open SingleTypeKVCacheManager

variable {m m' : SingleTypeKVCacheManager} {r : String} {numComputedTokens : ℕ}

/-- The table of a request has lost entries before its window, and nothing else has changed. -/
structure Passed (r : String) (numComputedTokens : ℕ) (m m' : SingleTypeKVCacheManager) : Prop
    extends SameGroup r m m' where
  numCachedBlock_same : m'.numCachedBlock = m.numCachedBlock
  removed : ∃ removed, Removed (m.table r) (Sound.numSkippedBlocks m numComputedTokens) removed
    (m'.table r)

theorem Passed.refl (r : String) (n : ℕ) (m : SingleTypeKVCacheManager) : Passed r n m m :=
  ⟨.refl r m, rfl, [], .refl _ _⟩

theorem Passed.length_eq (h : Passed r numComputedTokens m m') :
    (m'.table r).length = (m.table r).length := by
  obtain ⟨removed, hremoved⟩ := h.removed
  exact hremoved.length_eq

omit [DecidableEq η] in
theorem removeSkippedBlocks_passed (m : SingleTypeKVCacheManager) (pool : BlockPool η) (r : String)
    (n : ℕ) :
    Passed r n m (m.removeSkippedBlocks pool r n).2 ∧
      OnlyFreed (fun b => ∃ i < Sound.numSkippedBlocks m n, (m.table r)[i]? = some b) pool
        (m.removeSkippedBlocks pool r n).1 := by
  unfold SingleTypeKVCacheManager.removeSkippedBlocks
  by_cases hzero : m.spec.getNumSkippedTokens n = 0
  · rw [if_pos hzero]
    exact ⟨.refl r n m, .refl _ pool⟩
  · rw [if_neg hzero]
    have hremoved := (removeBelow_removed (m.table r)
      (min (Sound.numSkippedBlocks m n) (m.table r).length)).mono (Nat.min_le_left ..)
    refine ⟨⟨.setTable _, rfl, (removeBelow (m.table r)
      (min (Sound.numSkippedBlocks m n) (m.table r).length)).1, ?_⟩,
      OnlyFreed.freeBlocks pool _ hremoved.removed_below⟩
    rw [table_setTable, if_pos rfl]
    exact hremoved

end Slide

namespace KVCacheManager

variable {M M' : KVCacheManager η} {request : Request η} {args : SlotArgs} {r : String} {n : ℕ}
  {P : Prop}

/-- The blocks of a request that lie before a window. -/
def Outside (M : KVCacheManager η) (r : String) (n : ℕ) (b : BlockId) : Prop :=
  ∃ m ∈ M.singleTypeManagers, ∃ i < Sound.numSkippedBlocks m n, (m.table r)[i]? = some b

/-- What is left of a manager when the windows of a request slide. -/
structure SlidOnly (r : String) (n : ℕ) (M M' : KVCacheManager η) : Prop where
  groups : List.Forall₂ (Passed r n) M.singleTypeManagers M'.singleTypeManagers
  pool : OnlyFreed (M.Outside r n) M.blockPool M'.blockPool

omit [DecidableEq η] in
theorem SlidOnly.refl (r : String) (n : ℕ) (M : KVCacheManager η) : SlidOnly r n M M :=
  ⟨List.forall₂_same.mpr fun m _ => .refl r n m, .refl _ _⟩

omit [DecidableEq η] in
theorem removeSkippedBlocks_slidOnly (M : KVCacheManager η) (r : String) (n : ℕ) :
    SlidOnly r n M (M.removeSkippedBlocks r n) := by
  have hitems : List.Forall₂ (fun m (_ : Unit) => m ∈ M.singleTypeManagers) M.singleTypeManagers
      (M.singleTypeManagers.map fun _ => ()) := by
    rw [List.forall₂_map_right_iff]
    exact List.forall₂_same.mpr fun m hm => hm
  obtain ⟨hpool, hgroups⟩ := forManagers_items (Q := OnlyFreed (M.Outside r n) M.blockPool)
    (R := Passed r n) (fun pool m _ pool' m' hpool hm h => by
      obtain ⟨rfl, rfl⟩ := Prod.mk.inj (Except.ok.inj h)
      obtain ⟨hpassed, hfreed⟩ := removeSkippedBlocks_passed m pool r n
      exact ⟨hpool.trans (hfreed.mono fun b hb => ⟨m, hm, hb⟩), hpassed⟩)
    hitems (.refl _ _) (mapManagers_eq fun pool manager => manager.removeSkippedBlocks pool r n)
  exact ⟨hgroups, hpool⟩

/-- Items of the groups before and after. -/
theorem mem_zip_of_forall₂ {α : Type} {R : SingleTypeKVCacheManager → SingleTypeKVCacheManager → Prop}
    {ms ms' : List SingleTypeKVCacheManager} {as : List α} (h : List.Forall₂ R ms ms')
    {item : SingleTypeKVCacheManager × α} (hitem : item ∈ ms'.zip as) :
    ∃ m, (m, item.2) ∈ ms.zip as ∧ R m item.1 := by
  induction h generalizing as with
  | nil => simp at hitem
  | cons hfirst _ ih =>
      cases as with
      | nil => simp at hitem
      | cons a as =>
          rw [List.zip_cons_cons] at hitem ⊢
          rcases List.mem_cons.mp hitem with rfl | hitem
          · exact ⟨_, List.mem_cons_self .., hfirst⟩
          · obtain ⟨m, hm, hR⟩ := ih hitem
            exact ⟨m, List.mem_cons_of_mem _ hm, hR⟩

theorem Passed.numSkippedBlocks_eq {m m' : SingleTypeKVCacheManager} (h : Passed r n m m') (k : ℕ) :
    Sound.numSkippedBlocks m' k = Sound.numSkippedBlocks m k := by
  unfold Sound.numSkippedBlocks SingleTypeKVCacheManager.blockSize
  rw [h.spec_eq]

omit [DecidableEq η] in
theorem Ready.slid (h : M.Ready request args) (hslid : SlidOnly request.requestId n M M')
    (hlen : M'.maxModelLen = M.maxModelLen) (hcaching : M'.enableCaching = M.enableCaching) :
    M'.Ready request args where
  within := hlen ▸ h.within
  hitsForNew := by
    intro item hitem hcached
    obtain ⟨m, hm, hpassed⟩ := mem_zip_of_forall₂ hslid.groups hitem
    rw [hpassed.numCachedBlock_same] at hcached
    exact h.hitsForNew (m, item.2) hm hcached
  first := by
    intro hbrings item hitem hcached
    obtain ⟨m, hm, hpassed⟩ := mem_zip_of_forall₂ hslid.groups hitem
    rw [hpassed.numCachedBlock_same] at hcached
    obtain ⟨htable, hhits⟩ := h.first hbrings (m, item.2) hm hcached
    refine ⟨List.eq_nil_of_length_eq_zero ?_, hcaching ▸ hhits⟩
    rw [hpassed.length_eq, htable, List.length_nil]
  slots := by
    intro hbrings
    refine forall₂_right hslid.groups (fun m m' hm hpassed => ?_) (h.slots hbrings)
    intro hcached
    rw [hpassed.numCachedBlock_same] at hcached
    rw [Passed.numSkippedBlocks_eq hpassed, hpassed.length_eq]
    exact hm hcached

end KVCacheManager

/-! ## A call in a run -/

namespace CacheState

open KVCacheManager

variable {m : KVCacheManager η} {s : CacheState η} {calls : List (PoolCall η)}
  {request : Request η} {args : SlotArgs}

/-- The manager when `allocate_slots` predicts the blocks of a call. -/
def slid (s : CacheState η) (request : Request η) (args : SlotArgs) : KVCacheManager η :=
  s.manager.removeSkippedBlocks request.requestId (s.manager.totalComputedTokens request args)

theorem InOrder.slid (h : s.InOrder) (request : Request η) (args : SlotArgs) :
    s.manager.Advanced True (s.slid request args) ∧
      SlidOnly request.requestId (s.manager.totalComputedTokens request args) s.manager
        (s.slid request args) :=
  ⟨(h.managed.removeSkippedBlocks ..).1, removeSkippedBlocks_slidOnly ..⟩

theorem InOrder.spend (h : s.InOrder) (hdrift : drift s.manager.blockPool = 0)
    (hissued : s.Issued hash base (.perform (.allocateSlots request args)))
    (hready : s.manager.Ready request args) :
    ∃ n, (s.slid request args).numBlocksToAllocate request args = .ok n ∧
      (n ≤ (s.slid request args).blockPool.numFreeBlocks →
        Ensures (fun _ => False) (fun result => Taken (Spared args) n (s.slid request args) result.1)
          ((s.slid request args).allocateChecked request args)) := by
  obtain ⟨hadvanced, hslid⟩ := h.slid request args
  have hready' := hready.slid hslid rfl rfl
  refine ⟨_, getNumBlocksToAllocate_demand hready'.hitsForNew, fun hroom => ?_⟩
  have hzero := (hadvanced.setup.drift_eq trivial).trans hdrift
  unfold drift at hzero
  have hlists := (h.lists hissued).1.advanced hadvanced
  have hspend := hadvanced.managed.spendChecked (P := False) hready' hlists False.elim
  exact (hspend (by omega)).mono fun result hresult => hresult.2

/-- In a run whose calls all fit: a call that passes its capacity checks takes no more blocks off
the queue than `get_num_blocks_to_allocate` said, and never fails on the way. It takes exactly as
many if it brings no external tokens, or if there is only one group. A call that is refused has
returned blocks from before the windows of its request at most. -/
theorem allocateSlots_predicted {config : KVCacheConfig}
    (hfree : CollisionFree hash base) (hnew : KVCacheManager.new config = .ok m)
    (hrun : Run (fun s call t => Next hash base s call t ∧ s.Fits call) { manager := m } calls s)
    (hissued : s.Issued hash base (.perform (.allocateSlots request args)))
    (hready : s.manager.Ready request args) :
    (∃ n, (s.slid request args).numBlocksToAllocate request args = .ok n ∧
      (n ≤ (s.slid request args).blockPool.numFreeBlocks →
        ∃ next blocks, (s.slid request args).allocateChecked request args = .ok (next, blocks) ∧
          (s.slid request args).blockPool.freeBlockQueue.length ≤
            next.blockPool.freeBlockQueue.length + n ∧
          (args.numExternalComputedTokens = 0 ∨ s.manager.singleTypeManagers.length ≤ 1 →
            (s.slid request args).blockPool.freeBlockQueue.length =
              next.blockPool.freeBlockQueue.length + n))) ∧
    ∀ next, s.manager.allocateSlots request args = .ok (next, none) →
      SlidOnly request.requestId (s.manager.totalComputedTokens request args) s.manager next := by
  obtain ⟨hs, hdrift⟩ := InOrder.run_fits hfree hnew hrun
  constructor
  · obtain ⟨n, hnum, hspend⟩ := hs.spend hdrift hissued hready
    refine ⟨n, hnum, fun hroom => ?_⟩
    have hensures := hspend hroom
    cases hchecked : (s.slid request args).allocateChecked request args with
    | error e => exact (hensures.of_eq_error hchecked).elim
    | ok result =>
        have htaken := hensures.of_eq_ok hchecked
        refine ⟨result.1, result.2, rfl, htaken.length_le, fun hspared => htaken.length_eq ?_⟩
        obtain ⟨hlists, hapart⟩ := hs.lists hissued
        rcases hspared with hzero | hone
        · exact hapart.imp fun hdisjoint => ⟨hzero, hdisjoint⟩
        · have hshort : args.newComputedBlocks.length ≤ 1 := hlists.1.trans_le hone
          unfold Spared
          generalize args.newComputedBlocks = blocks at hshort
          cases blocks with
          | nil => exact .nil
          | cons hits blocks =>
              rw [List.eq_nil_of_length_eq_zero (Nat.le_zero.mp (Nat.le_of_succ_le_succ hshort))]
              exact List.pairwise_singleton ..
  · intro next hnext
    rcases allocateSlots_stages hnext with ⟨-, rfl | rfl⟩ | ⟨_, _, hsome, -⟩
    · exact .refl ..
    · exact removeSkippedBlocks_slidOnly ..
    · cases hsome

/-! ## A call that is served -/

instance (args : SlotArgs) : Decidable (KVCacheManager.Brings args) :=
  inferInstanceAs (Decidable ((∃ hits ∈ args.newComputedBlocks, hits ≠ []) ∨
    0 < args.numExternalComputedTokens))

instance (M : KVCacheManager η) (request : Request η) (args : SlotArgs) :
    Decidable (M.Ready request args) :=
  decidable_of_iff
    ((numLocalComputedTokens request args + args.numExternalComputedTokens ≤ M.maxModelLen ∧
      ∀ item ∈ M.singleTypeManagers.zip args.newComputedBlocks,
        item.1.numCachedBlock.contains request.requestId = true → item.2 = []) ∧
      (KVCacheManager.Brings args → ∀ item ∈ M.singleTypeManagers.zip args.newComputedBlocks,
        item.1.numCachedBlock.contains request.requestId = false →
          item.1.table request.requestId = [] ∧ (M.enableCaching = true ∨ item.2 = [])) ∧
      (¬KVCacheManager.Brings args → ∀ m ∈ M.singleTypeManagers,
        m.numCachedBlock.contains request.requestId = false →
          Sound.numSkippedBlocks m (numLocalComputedTokens request args) ≤
            (m.table request.requestId).length))
    ⟨fun h => ⟨h.1.1, h.1.2, h.2.1, h.2.2⟩,
      fun h => ⟨⟨h.within, h.hitsForNew⟩, h.first, h.slots⟩⟩

/-- The third request of `sharedCalls`. -/
def sharedRequest : Request (List ℕ) :=
  listRequest "r" [1, 2, 3, 7] 0

/-- The hits of its lookup, and three external tokens. -/
def sharedArgs : SlotArgs where
  numNewTokens := 1
  newComputedBlocks := [[], [5, 6, 7], []]
  numExternalComputedTokens := 3

/-- Ten blocks are predicted for the last call of `sharedCalls`, and no more leave the queue. -/
theorem sharedRun_predicted : ∃ m s, KVCacheManager.new KVCacheManager.twoFullConfig = .ok m ∧
    Run (fun s call t => Next KVCacheManager.listHash [] s call t ∧ s.Fits call) { manager := m }
      (sharedCalls.take 6) s ∧
    (s.slid sharedRequest sharedArgs).numBlocksToAllocate sharedRequest sharedArgs = .ok 10 ∧
    ∃ next blocks,
      (s.slid sharedRequest sharedArgs).allocateChecked sharedRequest sharedArgs =
        .ok (next, blocks) ∧ 12 ≤ next.blockPool.freeBlockQueue.length + 10 := by
  have hcomputed : (KVCacheManager.new (η := List ℕ) KVCacheManager.twoFullConfig).toOption.any
      (fun m => ((sharedCalls.take 6).foldlM follow { manager := m }).any fun s => decide
        (s.manager.Ready sharedRequest sharedArgs ∧
        sharedArgs.newComputedBlocks ∈ s.reported ∧
        ((s.slid sharedRequest sharedArgs).numBlocksToAllocate sharedRequest
          sharedArgs).toOption = some 10 ∧
        (s.slid sharedRequest sharedArgs).blockPool.numFreeBlocks = 12 ∧
        (s.slid sharedRequest sharedArgs).blockPool.freeBlockQueue.length = 12)) = true := by
    decide +kernel
  obtain ⟨m, hm, hrest⟩ := (Option.any_eq_true _ _).mp hcomputed
  obtain ⟨s, hs, hfacts⟩ := (Option.any_eq_true _ _).mp hrest
  obtain ⟨hready, hreported, hten, hfree, hqueue⟩ := of_decide_eq_true hfacts
  have hnew := Ensures.eq_ok_of_toOption_eq_some hm
  have hrun : Run (fun s call t => Next KVCacheManager.listHash [] s call t ∧ s.Fits call)
      { manager := m } (sharedCalls.take 6) s := .of_foldlM (fun _ _ _ h => follow_next h) hs
  obtain ⟨⟨n, hnum, hserved⟩, -⟩ := allocateSlots_predicted KVCacheManager.listHash_collisionFree
    hnew hrun (.inr hreported) hready
  have hn : n = 10 := by
    rw [hnum] at hten
    exact Option.some.inj hten
  subst hn
  obtain ⟨next, blocks, hchecked, hle, -⟩ := hserved (by omega)
  exact ⟨m, s, hnew, hrun, hnum, next, blocks, hchecked, by omega⟩

end CacheState

end TokenCake.KV
