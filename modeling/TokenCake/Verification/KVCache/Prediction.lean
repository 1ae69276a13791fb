import TokenCake.Verification.KVCache.Representation

/-! # The predicted number of blocks

`get_num_blocks_to_allocate` and the allocation count the same blocks: those that a table lacks,
and the hits that are still in the free queue. -/

namespace TokenCake.KV

variable {η : Type} [DecidableEq η] {pool pool' : BlockPool η} {o v n u : BlockId → ℕ}
  {m m' : SingleTypeKVCacheManager} {r : String} {hits : List BlockId}
  {numTokens numLocal numExternal : ℕ} {P : Prop}

/-! ## One group -/

section Group

open SingleTypeKVCacheManager Sound

/-- The blocks that the table of a request lacks for a number of tokens. -/
def lacks (m : SingleTypeKVCacheManager) (r : String) (numTokens : ℕ) : ℕ :=
  numTokens ⌈/⌉ m.blockSize - (m.table r).length

/-- What `get_num_blocks_to_allocate` returns for a group. -/
def predicted (m : SingleTypeKVCacheManager) (pool : BlockPool η) (r : String) (numTokens : ℕ)
    (hits : List BlockId) (numComputedTokens : ℕ) : ℕ :=
  if m.numCachedBlock.contains r then lacks m r numTokens
  else
    numTokens ⌈/⌉ m.blockSize -
        max (numSkippedBlocks m numComputedTokens) (hits.length + (m.table r).length) +
      numEvictableBlocks pool
        (hits.drop (numSkippedBlocks m numComputedTokens - (m.table r).length))

omit [DecidableEq η] in
theorem getNumBlocksToAllocate_eq {numComputedTokens : ℕ}
    (h : m.numCachedBlock.contains r = true → hits = []) :
    m.getNumBlocksToAllocate pool r numTokens hits numComputedTokens false =
      .ok (predicted m pool r numTokens hits numComputedTokens) := by
  unfold SingleTypeKVCacheManager.getNumBlocksToAllocate predicted lacks
  dsimp only
  cases hcached : m.numCachedBlock.contains r with
  | true => rw [if_pos rfl, if_pos rfl, if_pos (h hcached)]
  | false => simp [numSkippedBlocks]

/-- The hits that can be evicted are those in the free queue. -/
theorem Ledger.numEvictableBlocks_add (h : Ledger pool n u)
    (hhits : HitList pool.numGpuBlocks hits) :
    (pool.freeBlockQueue.filter (· ∉ hits)).length + numEvictableBlocks pool hits =
      pool.freeBlockQueue.length := by
  have hfree : ∀ b ∈ hits, ((pool.blocks b).refCnt = 0 ∧ b ≠ nullBlock) ↔
      b ∈ pool.freeBlockQueue := by
    intro b hb
    rw [h.mem_queue]
    constructor
    · rintro ⟨hzero, hnull⟩
      rw [h.refCnt_eq b hnull, Nat.cast_eq_zero] at hzero
      exact ⟨hnull, hhits.lt b hb hnull, hzero⟩
    · rintro ⟨hnull, -, hzero⟩
      rw [h.refCnt_eq b hnull, hzero]
      exact ⟨rfl, hnull⟩
  have hevictable : numEvictableBlocks pool hits =
      (hits.filter fun b => decide (b ∈ pool.freeBlockQueue)).length := by
    unfold numEvictableBlocks
    rw [List.countP_eq_length_filter]
    congr 1
    refine List.filter_congr fun b hb => ?_
    simp only [hfree b hb]
  have hnodup : (hits.filter fun b => decide (b ∈ pool.freeBlockQueue)).Nodup := by
    refine List.nodup_iff_count_le_one.mpr fun b => ?_
    by_cases hb : b = nullBlock
    · have hnot : b ∉ hits.filter fun b => decide (b ∈ pool.freeBlockQueue) := by
        rw [List.mem_filter, hb]
        intro hmem
        exact ((h.mem_queue _).mp (of_decide_eq_true hmem.2)).1 rfl
      rw [List.count_eq_zero_of_not_mem hnot]
      exact Nat.zero_le 1
    · exact (List.filter_sublist.count_le b).trans (hhits.one b hb)
  have hperm : (hits.filter fun b => decide (b ∈ pool.freeBlockQueue)).Perm
      (pool.freeBlockQueue.filter fun b => decide (b ∈ hits)) := by
    refine (List.perm_ext_iff_of_nodup hnodup (h.queue_nodup.filter _)).mpr fun b => ?_
    simp only [List.mem_filter, decide_eq_true_eq, and_comm]
  rw [hevictable, hperm.length_eq]
  have hsplit := List.length_eq_countP_add_countP (fun b => decide (b ∈ hits))
    (l := pool.freeBlockQueue)
  simp only [List.countP_eq_length_filter] at hsplit
  rw [hsplit, Nat.add_comm]
  congr 2
  refine List.filter_congr fun b _ => ?_
  simp

/-- A queue that holds fewer of the hits makes fewer of them evictable. -/
theorem Ledger.numEvictableBlocks_le {n' u' : BlockId → ℕ} (h : Ledger pool n u)
    (h' : Ledger pool' n' u') (hhits : HitList pool.numGpuBlocks hits)
    (hnum : pool'.numGpuBlocks = pool.numGpuBlocks)
    (hsub : ∀ b ∈ hits, b ∈ pool'.freeBlockQueue → b ∈ pool.freeBlockQueue) :
    numEvictableBlocks pool' hits ≤ numEvictableBlocks pool hits := by
  unfold numEvictableBlocks
  refine List.countP_mono_left fun b hb hfree => ?_
  have hlt := hhits.lt b hb
  rw [decide_eq_true_eq] at hfree ⊢
  refine ⟨?_, hfree.2⟩
  have hzero := hfree.1
  rw [h'.refCnt_eq b hfree.2, Nat.cast_eq_zero] at hzero
  have hmem := hsub b hb ((h'.mem_queue b).mpr ⟨hfree.2, hnum ▸ hlt hfree.2, hzero⟩)
  rw [h.refCnt_eq b hfree.2, ((h.mem_queue b).mp hmem).2.2]
  rfl

/-- What is predicted for a group does not grow when blocks leave the queue. -/
theorem Ledger.predicted_le {n' u' : BlockId → ℕ} {numComputedTokens : ℕ} (h : Ledger pool n u)
    (h' : Ledger pool' n' u') (hhits : HitList pool.numGpuBlocks hits)
    (hnum : pool'.numGpuBlocks = pool.numGpuBlocks)
    (hsub : pool'.freeBlockQueue.Sublist pool.freeBlockQueue) :
    predicted m pool' r numTokens hits numComputedTokens ≤
      predicted m pool r numTokens hits numComputedTokens := by
  unfold predicted
  split
  · exact le_rfl
  · exact Nat.add_le_add_left (h.numEvictableBlocks_le h' (hhits.drop _) hnum fun b _ hb => hsub.subset hb) _

/-- It does not shrink when none of the hits leaves it. -/
theorem Ledger.predicted_ge {n' u' : BlockId → ℕ} {numComputedTokens : ℕ} (h : Ledger pool n u)
    (h' : Ledger pool' n' u') (hhits : HitList pool.numGpuBlocks hits)
    (hnum : pool'.numGpuBlocks = pool.numGpuBlocks)
    (hkeep : ∀ b ∈ hits, b ∈ pool.freeBlockQueue → b ∈ pool'.freeBlockQueue) :
    predicted m pool r numTokens hits numComputedTokens ≤
      predicted m pool' r numTokens hits numComputedTokens := by
  unfold predicted
  split
  · exact le_rfl
  · refine Nat.add_le_add_left ?_ _
    rw [← hnum] at hhits
    have hdrop := hhits.drop (numSkippedBlocks m numComputedTokens - (m.table r).length)
    exact h'.numEvictableBlocks_le h hdrop hnum.symm fun b hb =>
      hkeep b (List.mem_of_mem_drop hb)

omit [DecidableEq η] in
/-- Without hits, a request whose computed tokens have slots needs what its table lacks. -/
theorem predicted_nil {numComputedTokens : ℕ} (h : m.numCachedBlock.contains r = false →
    numSkippedBlocks m numComputedTokens ≤ (m.table r).length) :
    predicted m pool r numTokens [] numComputedTokens = lacks m r numTokens := by
  unfold predicted lacks
  cases hcached : m.numCachedBlock.contains r with
  | true => rw [if_pos rfl]
  | false =>
      have := h hcached
      rw [if_neg Bool.false_ne_true, List.drop_nil, List.length_nil, Nat.zero_add,
        Nat.max_eq_right this]
      rfl

/-- A turn of a group takes blocks off the queue, and what it takes and what the table then lacks
is what was predicted. Without external tokens it takes nothing but the hits. -/
structure Spent (r : String) (hits : List BlockId) (numExternal numTokens cost : ℕ)
    (pool : BlockPool η) (result : BlockPool η × SingleTypeKVCacheManager) : Prop where
  sublist : result.1.freeBlockQueue.Sublist pool.freeBlockQueue
  length_eq : pool.freeBlockQueue.length + lacks result.2 r numTokens =
    result.1.freeBlockQueue.length + cost
  kept : numExternal = 0 → ∀ b ∈ pool.freeBlockQueue, b ∉ hits → b ∈ result.1.freeBlockQueue

/-- The hits and the external tokens of a request that has no blocks. -/
theorem Sound.spendFirst (h : Sound o v pool m) (hnew : m.numCachedBlock.contains r = false)
    (htable : m.table r = []) (hhits : HitList pool.numGpuBlocks hits)
    (hcaching : pool.enableCaching = true ∨ hits = []) (hle : numLocal + numExternal ≤ numTokens)
    (hroom : predicted m pool r numTokens hits (numLocal + numExternal) ≤
      pool.freeBlockQueue.length)
    (hP : P → 0 < usedExternal m (numLocal + numExternal) numExternal →
      0 ≤ externalBlocks m hits (numLocal + numExternal)) :
    Ensures (fun _ => False)
      (fun result => Kept o v P r pool m result ∧ Spent r hits numExternal numTokens
        (predicted m pool r numTokens hits (numLocal + numExternal)) pool result)
      (m.allocateNewComputedBlocks pool r hits numLocal numExternal) := by
  have hused : pool.enableCaching = true ∨ usedHits m hits (numLocal + numExternal) = [] := by
    refine hcaching.imp_right fun hnil => ?_
    rw [usedHits, hnil, List.drop_nil]
  have hrule := h.allocateFirst hnew htable hhits hused hP
  set numTotal := numLocal + numExternal with hnumTotal
  have hlength : (firstTable m hits numTotal).length =
      max (numSkippedBlocks m numTotal) hits.length := by
    unfold firstTable usedHits
    rw [List.length_append, List.length_replicate, List.length_drop]
    omega
  have hceil : numTotal ⌈/⌉ m.blockSize ≤ numTokens ⌈/⌉ m.blockSize :=
    (gc_mul_ceilDiv m.spec.blockSize_pos).monotone_l hle
  have hexternal : numExternalBlocks m hits numTotal numExternal ≤
      numTokens ⌈/⌉ m.blockSize - (firstTable m hits numTotal).length := by
    unfold numExternalBlocks externalBlocks
    split <;> omega
  have hevictable := h.ledger.numEvictableBlocks_add (hhits.drop (numSkippedBlocks m numTotal))
  have hpredicted : predicted m pool r numTokens hits numTotal =
      numTokens ⌈/⌉ m.blockSize - (firstTable m hits numTotal).length +
        numEvictableBlocks pool (hits.drop (numSkippedBlocks m numTotal)) := by
    unfold predicted
    rw [if_neg (by simp [hnew]), htable, hlength, List.length_nil, Nat.add_zero, Nat.sub_zero]
  rw [hpredicted] at hroom ⊢
  refine (hrule.imp_error ?_).mono ?_
  · intro e he
    have hshort := he.2
    unfold usedHits at hshort
    omega
  · intro result hresult
    obtain ⟨hkept, -, blocks, htable', hblocks, hqueue⟩ := hresult
    refine ⟨hkept, ?_, ?_, ?_⟩
    · rw [hqueue]
      exact (List.drop_sublist ..).trans List.filter_sublist
    · have hsize : result.2.blockSize = m.blockSize :=
        congrArg KVCacheSpec.blockSize hkept.group.spec_eq
      unfold usedHits at hqueue
      rw [hqueue, List.length_drop]
      unfold lacks
      rw [hsize, htable', List.length_append]
      omega
    · intro hnone b hb hnot
      have hzero : numExternalBlocks m hits numTotal numExternal = 0 := by
        unfold numExternalBlocks usedExternal
        rw [hnone]
        simp
      rw [hqueue, hblocks, hzero, List.drop_zero, List.mem_filter]
      refine ⟨hb, decide_eq_true fun hmem => hnot ?_⟩
      exact List.mem_of_mem_drop hmem

/-- A group that knows the request has nothing to do. -/
theorem Sound.spendCached (h : Sound o v pool m) (hcached : m.numCachedBlock.contains r = true)
    (hnil : hits = []) :
    Ensures (fun _ => False)
      (fun result => Kept o v P r pool m result ∧ Spent r hits numExternal numTokens
        (predicted m pool r numTokens hits (numLocal + numExternal)) pool result)
      (m.allocateNewComputedBlocks pool r hits numLocal numExternal) := by
  unfold SingleTypeKVCacheManager.allocateNewComputedBlocks predicted
  rw [if_pos hcached, if_pos hnil, if_pos hcached]
  exact .ok ⟨⟨h, .refl r m, .refl pool⟩, List.Sublist.refl _, rfl, fun _ _ hb _ => hb⟩

/-- The blocks that a table lacks. -/
theorem Sound.spendNew (h : Sound o v pool m)
    (hroom : lacks m r numTokens ≤ pool.freeBlockQueue.length) :
    Ensures (fun _ => False)
      (fun result => Kept o v P r pool m result ∧
        result.1.freeBlockQueue.Sublist pool.freeBlockQueue ∧
        pool.freeBlockQueue.length = result.1.freeBlockQueue.length + lacks m r numTokens)
      ((m.allocateNewBlocks pool r numTokens).map fun result => (result.1, result.2.1)) := by
  have hlacks : (lacking m r numTokens).toNat = lacks m r numTokens := by
    unfold lacking lacks
    omega
  rw [Ensures.map_iff]
  refine ((h.allocateNewBlocks r numTokens (P := P)).imp_error ?_).mono ?_
  · intro e he
    have hshort := he.2
    omega
  · intro result hresult
    obtain ⟨hkept, hqueue, -⟩ := hresult
    refine ⟨hkept, ?_, ?_⟩
    · rw [hqueue]
      exact List.drop_sublist ..
    · rw [hqueue, hlacks, List.length_drop]
      omega

end Group

/-! ## The loop over the groups -/

section Groups

variable {α : Type} {ms : List SingleTypeKVCacheManager} {as : List α}
  {cost : BlockPool η → SingleTypeKVCacheManager → α → ℕ} {k : SingleTypeKVCacheManager → ℕ}
  {D : α → α → Prop} {R : SingleTypeKVCacheManager → SingleTypeKVCacheManager → Prop}

def totalCost (cost : BlockPool η → SingleTypeKVCacheManager → α → ℕ) (pool : BlockPool η)
    (ms : List SingleTypeKVCacheManager) (as : List α) : ℕ :=
  ((ms.zip as).map fun item => cost pool item.1 item.2).sum

/-- What the turns of all groups leave; `spared` says that no turn takes the hits of another. -/
structure SpentAll (spared : Prop) (total : ℕ) (rest : SingleTypeKVCacheManager → ℕ)
    (pool : BlockPool η) (result : BlockPool η × List SingleTypeKVCacheManager) : Prop where
  sublist : result.1.freeBlockQueue.Sublist pool.freeBlockQueue
  length_le : pool.freeBlockQueue.length + (result.2.map rest).sum ≤
    result.1.freeBlockQueue.length + total
  length_eq : spared → pool.freeBlockQueue.length + (result.2.map rest).sum =
    result.1.freeBlockQueue.length + total

/-- What one turn leaves: a later turn costs no more than before, and just as much if the two are
apart. -/
structure SpentTurn (cost : BlockPool η → SingleTypeKVCacheManager → α → ℕ)
    (rest : SingleTypeKVCacheManager → ℕ) (apart : α → α → Prop) (items : List α)
    (m : SingleTypeKVCacheManager) (a : α) (pool : BlockPool η)
    (result : BlockPool η × SingleTypeKVCacheManager) : Prop where
  sublist : result.1.freeBlockQueue.Sublist pool.freeBlockQueue
  length_eq : pool.freeBlockQueue.length + rest result.2 =
    result.1.freeBlockQueue.length + cost pool m a
  later_le : ∀ m', ∀ a' ∈ items, cost result.1 m' a' ≤ cost pool m' a'
  later_eq : ∀ m', ∀ a' ∈ items, apart a a' → cost result.1 m' a' = cost pool m' a'

/-- The rule for turns that take blocks off the queue: if the queue holds what all turns cost, no
turn fails. -/
theorem Balanced.spendAll (h : Balanced o v pool ms) (hlength : ms.length ≤ as.length)
    (hroom : totalCost cost pool ms as ≤ pool.freeBlockQueue.length)
    {f : BlockPool η → SingleTypeKVCacheManager → α →
      Except KVError (BlockPool η × SingleTypeKVCacheManager)}
    (hf : ∀ o v pool' m a, (m, a) ∈ ms.zip as → Setup P pool pool' → Sound o v pool' m →
      cost pool' m a ≤ pool'.freeBlockQueue.length →
      Ensures (fun _ => False) (fun result => Sound o v result.1 result.2 ∧
        Setup P pool' result.1 ∧ R m result.2 ∧ SpentTurn cost k D as m a pool' result)
        (f pool' m a)) :
    Ensures (fun _ => False) (fun result => Balanced o v result.1 result.2 ∧
        Setup P pool result.1 ∧ List.Forall₂ R ms result.2 ∧
        SpentAll (as.Pairwise D) (totalCost cost pool ms as) k pool result)
      (KVCacheManager.forManagers f pool ms as) := by
  induction ms generalizing o v pool as with
  | nil => exact .ok ⟨h, .refl pool, .nil, List.Sublist.refl _, by simp [totalCost],
      fun _ => by simp [totalCost]⟩
  | cons m ms ih =>
      cases as with
      | nil => exact absurd hlength (by simp)
      | cons a as =>
          have htotal : totalCost cost pool (m :: ms) (a :: as) =
              cost pool m a + totalCost cost pool ms as := by
            simp [totalCost]
          rw [htotal] at hroom ⊢
          have hfirst := hf _ _ pool m a (by simp) (.refl pool) h.head (by omega)
          refine hfirst.bind fun first hfirst => ?_
          obtain ⟨hsound, hsetup, hR, hturn⟩ := hfirst
          have hspent := hturn.length_eq
          have hle : totalCost cost first.1 ms as ≤ totalCost cost pool ms as :=
            List.sum_le_sum fun item hitem =>
              hturn.later_le item.1 item.2 (List.mem_cons_of_mem _ (List.of_mem_zip hitem).2)
          have heq : (a :: as).Pairwise D →
              totalCost cost first.1 ms as = totalCost cost pool ms as := by
            intro hapart
            unfold totalCost
            congr 1
            refine List.map_congr_left fun item hitem => ?_
            have hmem := (List.of_mem_zip hitem).2
            exact hturn.later_eq item.1 item.2 (List.mem_cons_of_mem _ hmem)
              ((List.pairwise_cons.mp hapart).1 item.2 hmem)
          have hrest := ih (Balanced.tail hsound
            (fun m' hm' => h.one m' (List.mem_cons_of_mem _ hm')) h.others_le)
            (Nat.le_of_succ_le_succ hlength) (by omega)
            fun o v pool' m' a' hmem hsetup' hsound' hroom' =>
              (hf o v pool' m' a' (List.mem_cons_of_mem _ hmem) (hsetup.trans hsetup') hsound'
                hroom').mono fun result hresult => ?_
          · refine hrest.bind fun last hlast => .ok ?_
            obtain ⟨hbalanced, hsetup', hRs, hspentAll⟩ := hlast
            refine ⟨hbalanced.cons hsound.one h.others_le, hsetup.trans hsetup', .cons hR hRs,
              hspentAll.sublist.trans hturn.sublist, ?_, fun hapart => ?_⟩
            · have := hspentAll.length_le
              simp only [List.map_cons, List.sum_cons]
              omega
            · have := hspentAll.length_eq (List.pairwise_cons.mp hapart).2
              have := heq hapart
              simp only [List.map_cons, List.sum_cons]
              omega
          · obtain ⟨hsound'', hsetup'', hR', hturn'⟩ := hresult
            exact ⟨hsound'', hsetup'', hR', hturn'.sublist, hturn'.length_eq,
              fun m' a' ha => hturn'.later_le m' a' (List.mem_cons_of_mem _ ha),
              fun m' a' ha => hturn'.later_eq m' a' (List.mem_cons_of_mem _ ha)⟩

end Groups

/-! ## The manager -/

namespace KVCacheManager

variable {M M' : KVCacheManager η} {request : Request η} {args : SlotArgs}

/-- What `get_num_blocks_to_allocate` of the coordinator returns. -/
def demand (M : KVCacheManager η) (r : String) (numTokens : ℕ) (blocks : List (List BlockId))
    (numComputedTokens : ℕ) : ℕ :=
  totalCost (fun pool m hits => predicted m pool r numTokens hits numComputedTokens) M.blockPool
    M.singleTypeManagers blocks

/-- Groups that know a request get no hits for it. -/
def HitsForNew (M : KVCacheManager η) (r : String) (blocks : List (List BlockId)) : Prop :=
  ∀ item ∈ M.singleTypeManagers.zip blocks, item.1.numCachedBlock.contains r = true → item.2 = []

omit [DecidableEq η] in
theorem getNumBlocksToAllocate_demand {r : String} {blocks : List (List BlockId)}
    {numComputedTokens : ℕ} (h : M.HitsForNew r blocks) :
    M.getNumBlocksToAllocate r numTokens blocks numComputedTokens false =
      .ok (M.demand r numTokens blocks numComputedTokens) := by
  unfold getNumBlocksToAllocate demand totalCost
  unfold HitsForNew at h
  generalize M.singleTypeManagers.zip blocks = items at h ⊢
  have hloop : ∀ sum, items.foldlM (fun sum item =>
      (item.1.getNumBlocksToAllocate M.blockPool r numTokens item.2 numComputedTokens false).map
        (sum + ·)) sum = (.ok (sum + (items.map fun item =>
          predicted item.1 M.blockPool r numTokens item.2 numComputedTokens).sum) :
            Except KVError ℕ) := by
    induction items with
    | nil => exact fun sum => rfl
    | cons item items ih =>
        intro sum
        rw [List.foldlM_cons, getNumBlocksToAllocate_eq (h item (List.mem_cons_self ..))]
        refine (ih (fun i hi => h i (List.mem_cons_of_mem _ hi)) _).trans ?_
        rw [List.map_cons, List.sum_cons, Nat.add_assoc]
  exact (hloop 0).trans (by rw [Nat.zero_add])

omit [DecidableEq η] in
/-- Without hits, the demand is what the tables lack. -/
theorem demand_eq_lacks {r : String} {blocks : List (List BlockId)} {numComputedTokens : ℕ}
    (hnil : ∀ hits ∈ blocks, hits = []) (hlength : blocks.length = M.singleTypeManagers.length)
    (hslots : ∀ m ∈ M.singleTypeManagers, m.numCachedBlock.contains r = false →
      Sound.numSkippedBlocks m numComputedTokens ≤ (m.table r).length) :
    M.demand r numTokens blocks numComputedTokens =
      (M.singleTypeManagers.map (lacks · r numTokens)).sum := by
  unfold demand totalCost
  generalize M.singleTypeManagers = ms at hslots hlength ⊢
  induction ms generalizing blocks with
  | nil => simp
  | cons m ms ih =>
      cases blocks with
      | nil => cases hlength
      | cons hits blocks =>
          obtain ⟨rfl, hrest⟩ := List.forall_mem_cons.mp hnil
          obtain ⟨hslot, hslots⟩ := List.forall_mem_cons.mp hslots
          have htail := ih hrest hslots (Nat.succ.inj hlength)
          rw [List.zip_cons_cons, List.map_cons, List.map_cons, List.sum_cons, List.sum_cons, htail]
          exact congrArg (· + _) (predicted_nil hslot)

/-- The hits or the external tokens of a call. -/
def Brings (args : SlotArgs) : Prop :=
  (∃ hits ∈ args.newComputedBlocks, hits ≠ []) ∨ 0 < args.numExternalComputedTokens

/-- What the scheduler passes: hits and external tokens come for a request without blocks, the
tokens of any other request have slots, and no request is longer than the model allows. -/
structure Ready (M : KVCacheManager η) (request : Request η) (args : SlotArgs) : Prop where
  within : numLocalComputedTokens request args + args.numExternalComputedTokens ≤ M.maxModelLen
  hitsForNew : M.HitsForNew request.requestId args.newComputedBlocks
  first : Brings args → ∀ item ∈ M.singleTypeManagers.zip args.newComputedBlocks,
    item.1.numCachedBlock.contains request.requestId = false →
      item.1.table request.requestId = [] ∧ (M.enableCaching = true ∨ item.2 = [])
  slots : ¬Brings args → ∀ m ∈ M.singleTypeManagers,
    m.numCachedBlock.contains request.requestId = false →
      Sound.numSkippedBlocks m (numLocalComputedTokens request args) ≤
        (m.table request.requestId).length

/-- No turn of a group takes the hits of another one. -/
def Spared (args : SlotArgs) : Prop :=
  args.newComputedBlocks.Pairwise fun hits hits' =>
    args.numExternalComputedTokens = 0 ∧ ∀ b ∈ hits, b ≠ nullBlock → b ∉ hits'

/-- Blocks leave the queue, at most as many as predicted, and exactly as many if no turn takes the
hits of another. -/
structure Taken (spared : Prop) (n : ℕ) (M M' : KVCacheManager η) : Prop where
  sublist : M'.blockPool.freeBlockQueue.Sublist M.blockPool.freeBlockQueue
  length_le : M.blockPool.freeBlockQueue.length ≤ M'.blockPool.freeBlockQueue.length + n
  length_eq : spared → M.blockPool.freeBlockQueue.length =
    M'.blockPool.freeBlockQueue.length + n

theorem Managed.spendNewBlocks (h : M.Managed) (r : String)
    (hroom : (M.singleTypeManagers.map (lacks · r numTokens)).sum ≤
      M.blockPool.freeBlockQueue.length) :
    Ensures (fun _ => False) (fun result => M.Advanced P result.1 ∧
        Taken True (M.singleTypeManagers.map (lacks · r numTokens)).sum M result.1)
      (M.allocateNewBlocks r numTokens) := by
  have htotal : totalCost (fun (_ : BlockPool η) m (_ : Unit) => lacks m r numTokens) M.blockPool
      M.singleTypeManagers (M.singleTypeManagers.map fun _ => ()) =
        (M.singleTypeManagers.map (lacks · r numTokens)).sum := by
    unfold totalCost
    rw [List.zip_map_right, List.map_map]
    generalize M.singleTypeManagers = ms
    induction ms with
    | nil => rfl
    | cons m ms ih => simpa using ih
  rw [← htotal] at hroom ⊢
  suffices hfirst : Ensures (fun _ => False) (fun M' => M.Advanced P M' ∧ Taken True
      (totalCost (fun (_ : BlockPool η) m (_ : Unit) => lacks m r numTokens) M.blockPool
        M.singleTypeManagers (M.singleTypeManagers.map fun _ => ())) M M')
      ((M.allocateNewBlocks r numTokens).map Prod.fst) from Ensures.map_iff.mp hfirst
  rw [allocateNewBlocks_eq, Ensures.map_iff]
  refine (h.balanced.spendAll (P := P) (k := fun _ => 0) (D := fun _ _ => True)
    (R := SameKey) (List.length_map _).ge hroom ?_).mono fun result hresult => ?_
  · intro o v pool m a _ _ hsound hroom
    refine (hsound.spendNew (P := P) hroom).mono fun result hresult => ?_
    obtain ⟨hkept, hsub, hlength⟩ := hresult
    exact ⟨hkept.sound, hkept.setup, hkept.group.sameKey,
      ⟨hsub, hlength, fun _ _ _ => le_rfl, fun _ _ _ _ => rfl⟩⟩
  · obtain ⟨hbalanced, hsetup, hspecs, hspent⟩ := hresult
    have hlength := hspent.length_eq (List.pairwise_of_forall fun _ _ => trivial)
    have hzero : (result.2.map fun _ => 0).sum = 0 := by simp
    rw [hzero, Nat.add_zero] at hlength
    exact ⟨h.advanceGroups hbalanced hsetup hspecs, hspent.sublist,
      hlength.le, fun _ => hlength⟩

theorem Managed.spendComputedBlocks (h : M.Managed) (hready : M.Ready request args)
    (hbrings : Brings args) (hhits : M.HitLists args.newComputedBlocks)
    (hfits : P → M.SlotsFit request args)
    (hle : numLocalComputedTokens request args + args.numExternalComputedTokens ≤ numTokens)
    (hroom : M.demand request.requestId numTokens args.newComputedBlocks
      (numLocalComputedTokens request args + args.numExternalComputedTokens) ≤
        M.blockPool.freeBlockQueue.length) :
    Ensures (fun _ => False) (fun M' => M.Advanced P M' ∧ SpentAll (Spared args)
        (M.demand request.requestId numTokens args.newComputedBlocks
          (numLocalComputedTokens request args + args.numExternalComputedTokens))
        (lacks · request.requestId numTokens) M.blockPool
        (M'.blockPool, M'.singleTypeManagers) ∧ M'.maxModelLen = M.maxModelLen)
      (M.allocateNewComputedBlocks request.requestId args.newComputedBlocks
        (numLocalComputedTokens request args) args.numExternalComputedTokens) := by
  unfold KVCacheManager.allocateNewComputedBlocks
  refine (h.balanced.spendAll (P := P) (k := (lacks · request.requestId numTokens))
    (D := fun hits hits' =>
      args.numExternalComputedTokens = 0 ∧ ∀ b ∈ hits, b ≠ nullBlock → b ∉ hits')
    (R := SameKey) hhits.1.ge hroom ?_).bind fun result hresult => .ok ?_
  · intro o v pool m hits hmem hsetup hsound hroom
    have hlist : ∀ hits ∈ args.newComputedBlocks, Sound.HitList pool.numGpuBlocks hits := by
      rw [hsetup.numGpuBlocks_eq]
      exact hhits.2
    have hhit := hlist hits (List.of_mem_zip hmem).2
    have hturn : Ensures (fun _ => False) (fun result =>
        Kept o v P request.requestId pool m result ∧
        Spent request.requestId hits args.numExternalComputedTokens numTokens
          (predicted m pool request.requestId numTokens hits
            (numLocalComputedTokens request args + args.numExternalComputedTokens)) pool result)
        (m.allocateNewComputedBlocks pool request.requestId hits
          (numLocalComputedTokens request args) args.numExternalComputedTokens) := by
      cases hcached : m.numCachedBlock.contains request.requestId with
      | true => exact hsound.spendCached hcached (hready.hitsForNew (m, hits) hmem hcached)
      | false =>
          obtain ⟨htable, hcaching⟩ := hready.first hbrings (m, hits) hmem hcached
          rw [← h.caching_eq, ← hsetup.enableCaching_eq] at hcaching
          exact hsound.spendFirst hcached htable hhit hcaching hle hroom
            fun hP => hfits hP (m, hits) hmem hcached
    refine hturn.mono fun result hresult => ?_
    obtain ⟨hkept, hspent⟩ := hresult
    have hnum := hkept.setup.numGpuBlocks_eq
    refine ⟨hkept.sound, hkept.setup, hkept.group.sameKey, hspent.sublist, hspent.length_eq,
      fun m' a' ha' => ?_, fun m' a' ha' hapart => ?_⟩
    · exact hsound.ledger.predicted_le hkept.sound.ledger (hlist a' ha') hnum hspent.sublist
    · refine le_antisymm
        (hsound.ledger.predicted_le hkept.sound.ledger (hlist a' ha') hnum hspent.sublist) ?_
      refine hsound.ledger.predicted_ge hkept.sound.ledger (hlist a' ha') hnum fun b hb hmem => ?_
      have hnull := ((hsound.ledger.mem_queue b).mp hmem).1
      exact hspent.kept hapart.1 b hmem fun hbits => hapart.2 b hbits hnull hb
  · obtain ⟨hbalanced, hsetup, hspecs, hspent⟩ := hresult
    exact ⟨h.advanceGroups hbalanced hsetup hspecs, hspent, rfl⟩

omit [DecidableEq η] in
theorem Ready.le_numTokensNeedSlot (h : M.Ready request args) :
    numLocalComputedTokens request args + args.numExternalComputedTokens ≤
      M.numTokensNeedSlot request args := by
  have := h.within
  unfold numTokensNeedSlot totalComputedTokens
  omega

/-- The blocks that the allocation of a call takes are those that were predicted, and if the queue
holds them, the call does not fail. -/
theorem Managed.spendChecked (h : M.Managed) (hready : M.Ready request args)
    (hhits : M.HitLists args.newComputedBlocks) (hfits : P → M.SlotsFit request args)
    (hroom : M.demand request.requestId (M.numTokensNeedSlot request args) args.newComputedBlocks
      (numLocalComputedTokens request args + args.numExternalComputedTokens) ≤
        M.blockPool.freeBlockQueue.length) :
    Ensures (fun _ => False) (fun result => M.Advanced P result.1 ∧ Taken (Spared args)
        (M.demand request.requestId (M.numTokensNeedSlot request args) args.newComputedBlocks
          (numLocalComputedTokens request args + args.numExternalComputedTokens)) M result.1)
      (M.allocateChecked request args) := by
  unfold KVCacheManager.allocateChecked
  dsimp only
  by_cases hbrings : Brings args
  · have hcond := hbrings
    unfold Brings at hcond
    rw [if_pos hcond]
    refine (h.spendComputedBlocks hready hbrings hhits hfits hready.le_numTokensNeedSlot
      hroom).bind fun M₁ h₁ => ?_
    obtain ⟨hadvanced, hspent, hlen⟩ := h₁
    have hlength := hspent.length_le
    dsimp only at hlength
    refine (hadvanced.managed.spendNewBlocks (P := P) request.requestId (by omega)).mono
      fun result hresult => ?_
    obtain ⟨hadvanced', htaken⟩ := hresult
    have hnew := htaken.length_eq trivial
    refine ⟨hadvanced.trans hadvanced', htaken.sublist.trans hspent.sublist, by omega,
      fun hspared => ?_⟩
    have := hspent.length_eq hspared
    dsimp only at this
    omega
  · have hnone := hbrings
    unfold Brings at hnone
    rw [if_neg hnone]
    change Ensures _ _ (M.allocateNewBlocks request.requestId _)
    rw [not_or, not_exists] at hnone
    have hexternal : args.numExternalComputedTokens = 0 := by omega
    have hnil : ∀ hits ∈ args.newComputedBlocks, hits = [] := by
      intro hits hmem
      by_contra hne
      exact hnone.1 hits ⟨hmem, hne⟩
    rw [hexternal, Nat.add_zero] at hroom ⊢
    rw [demand_eq_lacks hnil hhits.1 (hready.slots hbrings)] at hroom ⊢
    refine (h.spendNewBlocks (P := P) request.requestId hroom).mono fun result hresult => ?_
    exact ⟨hresult.1, hresult.2.sublist, hresult.2.length_le,
      fun _ => hresult.2.length_eq trivial⟩

end KVCacheManager

end TokenCake.KV
