import Mathlib
import TokenCake.Lib.Ensures
import TokenCake.Verification.Growth.Tables

/-! # A call of `allocate_slots` from the point of view of one request

For every group, the call first lets the window slide and then appends what the table lacks. -/

namespace TokenCake.KV

variable {η : Type} [DecidableEq η]

/-! ## The pool keeps its placeholder to itself -/

section Pool

variable {pool pool' : BlockPool η}

/-- The placeholder is neither handed out nor cached. -/
structure NullReserved (pool : BlockPool η) : Prop where
  queue : nullBlock ∉ pool.freeBlockQueue
  uncached : ∀ key, nullBlock ∉ cachedAt pool.cachedBlockHashToBlock key

/-- The queue is the same, and the placeholder is not cached anew. -/
structure SameNull (pool pool' : BlockPool η) : Prop where
  queue_eq : pool'.freeBlockQueue = pool.freeBlockQueue
  cached : ∀ key, nullBlock ∈ cachedAt pool'.cachedBlockHashToBlock key →
    nullBlock ∈ cachedAt pool.cachedBlockHashToBlock key

theorem SameNull.refl (pool : BlockPool η) : SameNull pool pool := ⟨rfl, fun _ h => h⟩

theorem SameNull.trans {pool₁ pool₂ pool₃ : BlockPool η} (h : SameNull pool₁ pool₂)
    (h' : SameNull pool₂ pool₃) : SameNull pool₁ pool₃ :=
  ⟨h'.queue_eq.trans h.queue_eq, fun key hmem => h.cached key (h'.cached key hmem)⟩

theorem NullReserved.same (h : NullReserved pool) (h' : SameNull pool pool') :
    NullReserved pool' :=
  ⟨h'.queue_eq.symm ▸ h.queue, fun key hmem => h.uncached key (h'.cached key hmem)⟩

theorem NullReserved.freeBlocks (h : NullReserved pool) (blocks : List BlockId) :
    NullReserved (pool.freeBlocks blocks) := by
  have hsame : ∀ (blocks : List BlockId) (pool : BlockPool η),
      SameNull pool (blocks.foldl (fun pool b => pool.update b fun block =>
        { block with refCnt := block.refCnt - 1 }) pool) := by
    intro blocks
    induction blocks with
    | nil => exact .refl
    | cons b blocks ih =>
        intro pool
        rw [List.foldl_cons]
        refine SameNull.trans ?_ (ih _)
        exact ⟨rfl, fun _ h => h⟩
  have hupdated := h.same (hsame blocks pool)
  refine ⟨fun hmem => ?_, hupdated.uncached⟩
  rcases List.mem_append.mp hmem with hold | hfreed
  · exact hupdated.queue hold
  · have := of_decide_eq_true (List.mem_filter.mp hfreed).2
    exact this.2 rfl

theorem maybeEvict_sameNull (b : BlockId) : SameNull pool (pool.maybeEvictCachedBlock b) := by
  refine ⟨(maybeEvict_sameCounts b).queue_eq, fun key hmem => ?_⟩
  unfold BlockPool.maybeEvictCachedBlock at hmem
  split at hmem
  · exact hmem
  · dsimp only at hmem
    split at hmem
    · exact (BlockHashToBlockMap.mem_cachedAt_pop.mp hmem).2
    · exact (BlockHashToBlockMap.mem_cachedAt_pop.mp hmem).2

theorem takeBlock_sameNull {b : BlockId} (h : pool.takeBlock b = .ok pool') :
    SameNull pool pool' := by
  have hevicted : SameNull pool (if pool.enableCaching then pool.maybeEvictCachedBlock b
      else pool) := by
    split
    · exact maybeEvict_sameNull b
    · exact .refl pool
  unfold BlockPool.takeBlock at h
  dsimp only at h
  generalize (if pool.enableCaching then pool.maybeEvictCachedBlock b else pool) = evicted
    at h hevicted
  by_cases hzero : (evicted.blocks b).refCnt ≠ 0
  · rw [if_pos hzero] at h
    cases h
  · rw [if_neg hzero] at h
    obtain rfl := Except.ok.inj h
    exact hevicted.trans ⟨rfl, fun _ h => h⟩

theorem takeBlocks_sameNull (blocks : List BlockId)
    (h : blocks.foldlM BlockPool.takeBlock pool = .ok pool') : SameNull pool pool' := by
  induction blocks generalizing pool with
  | nil =>
      obtain rfl := Except.ok.inj h
      exact .refl pool
  | cons b blocks ih =>
      rw [List.foldlM_cons] at h
      cases hstep : pool.takeBlock b with
      | error e =>
          rw [hstep] at h
          cases h
      | ok next =>
          rw [hstep] at h
          exact (takeBlock_sameNull hstep).trans (ih h)

/-- New blocks come from the front of the queue. -/
theorem getNewBlocks_ok {k : ℤ} {blocks : List BlockId}
    (h : pool.getNewBlocks k = .ok (blocks, pool')) :
    blocks = pool.freeBlockQueue.take k.toNat ∧ blocks.length = k.toNat ∧
      SameNull (popped pool k) pool' := by
  unfold BlockPool.getNewBlocks at h
  by_cases hcounter : pool.numFreeBlocks < k
  · rw [if_pos hcounter] at h
    cases h
  · rw [if_neg hcounter] at h
    by_cases hshort : pool.freeBlockQueue.length < k.toNat
    · have herror : pool.popleftN k = .error .assertion := by
        have hzero : k ≠ 0 := by
          rintro rfl
          exact absurd hshort (Nat.not_lt_zero _)
        rw [BlockPool.popleftN, if_neg hzero, if_pos (.inr hshort)]
      rw [herror] at h
      cases h
    · rw [popleftN_eq hcounter (Nat.not_lt.mp hshort)] at h
      dsimp only [bind, Except.bind] at h
      cases htake : (pool.freeBlockQueue.take k.toNat).foldlM BlockPool.takeBlock
          (popped pool k) with
      | error e =>
          rw [htake] at h
          cases h
      | ok next =>
          rw [htake] at h
          obtain ⟨rfl, rfl⟩ := Prod.mk.inj (Except.ok.inj h)
          refine ⟨rfl, ?_, takeBlocks_sameNull _ htake⟩
          rw [List.length_take]
          omega

theorem NullReserved.getNewBlocks (hreserved : NullReserved pool) {k : ℤ} {blocks : List BlockId}
    (h : pool.getNewBlocks k = .ok (blocks, pool')) :
    nullBlock ∉ blocks ∧ NullReserved pool' := by
  obtain ⟨hblocks, -, hsame⟩ := getNewBlocks_ok h
  have hpopped : NullReserved (popped pool k) :=
    ⟨fun hmem => hreserved.queue (List.mem_of_mem_drop hmem), hreserved.uncached⟩
  refine ⟨fun hmem => ?_, hpopped.same hsame⟩
  rw [hblocks] at hmem
  exact hreserved.queue (List.mem_of_mem_take hmem)

theorem NullReserved.touch (h : NullReserved pool) (blocks : List BlockId)
    (htouch : pool.touch blocks = .ok pool') : NullReserved pool' := by
  unfold BlockPool.touch at htouch
  induction blocks generalizing pool with
  | nil =>
      obtain rfl := Except.ok.inj htouch
      exact h
  | cons b blocks ih =>
      rw [List.foldlM_cons] at htouch
      cases hstep : pool.touchBlock b with
      | error e =>
          rw [hstep] at htouch
          cases htouch
      | ok next =>
          rw [hstep] at htouch
          refine ih ?_ htouch
          unfold BlockPool.touchBlock at hstep
          dsimp only at hstep
          split at hstep
          · split at hstep
            · obtain rfl := Except.ok.inj hstep
              exact ⟨fun hmem => h.queue (List.mem_of_mem_erase hmem), h.uncached⟩
            · cases hstep
          · obtain rfl := Except.ok.inj hstep
            exact ⟨h.queue, h.uncached⟩

theorem cacheFullBlock_sameNull {hashes : List η} {scale groupId : ℕ}
    {item : (BlockId × Bool) × ℕ}
    (h : BlockPool.cacheFullBlock hashes scale groupId pool item = .ok pool') :
    SameNull pool pool' := by
  unfold BlockPool.cacheFullBlock at h
  dsimp only at h
  split at h
  · obtain rfl := Except.ok.inj h
    exact .refl pool
  · next hskip =>
      split at h
      · cases h
      · split at h
        · cases h
        · obtain rfl := Except.ok.inj h
          refine ⟨rfl, fun key hmem => ?_⟩
          rcases BlockHashToBlockMap.mem_cachedAt_insertBlock.mp hmem with ⟨-, hnull⟩ | hold
          · exact absurd (.inl hnull.symm) hskip
          · exact hold

theorem cacheFullBlocks_sameNull {hashes : List η} {blocks : List BlockId}
    {numCached numFull blockSize groupId : ℕ} {mask : Option (List Bool)}
    (h : pool.cacheFullBlocks hashes blocks numCached numFull blockSize groupId mask =
      .ok pool') : SameNull pool pool' := by
  have hloop : ∀ (scale : ℕ) (items : List ((BlockId × Bool) × ℕ)) (pool pool' : BlockPool η),
      items.foldlM (BlockPool.cacheFullBlock hashes scale groupId) pool = .ok pool' →
        SameNull pool pool' := by
    intro scale items
    induction items with
    | nil =>
        intro pool pool' h
        obtain rfl := Except.ok.inj h
        exact .refl pool
    | cons item items ih =>
        intro pool pool' h
        rw [List.foldlM_cons] at h
        cases hstep : BlockPool.cacheFullBlock hashes scale groupId pool item with
        | error e =>
            rw [hstep] at h
            cases h
        | ok next =>
            rw [hstep] at h
            exact (cacheFullBlock_sameNull hstep).trans (ih next pool' h)
  unfold BlockPool.cacheFullBlocks at h
  split at h
  · obtain rfl := Except.ok.inj h
    exact .refl pool
  · dsimp only at h
    split at h
    · cases h
    · split at h
      · cases h
      · exact hloop _ _ _ _ h

end Pool

/-! ## One group -/

section Group

open SingleTypeKVCacheManager

variable {m m' : SingleTypeKVCacheManager} {pool pool' : BlockPool η} {id : String}

/-- What no operation changes in a group. -/
structure SameSpec (m m' : SingleTypeKVCacheManager) : Prop where
  spec_eq : m'.spec = m.spec
  cap_eq : m'.maxAdmissionBlocksPerRequest = m.maxAdmissionBlocksPerRequest
  groupId_eq : m'.groupId = m.groupId

theorem SameSpec.refl (m : SingleTypeKVCacheManager) : SameSpec m m := ⟨rfl, rfl, rfl⟩

theorem SameSpec.trans {m₁ m₂ m₃ : SingleTypeKVCacheManager} (h : SameSpec m₁ m₂)
    (h' : SameSpec m₂ m₃) : SameSpec m₁ m₃ :=
  ⟨h'.spec_eq.trans h.spec_eq, h'.cap_eq.trans h.cap_eq, h'.groupId_eq.trans h.groupId_eq⟩

theorem SameSpec.blockSize_eq (h : SameSpec m m') : m'.blockSize = m.blockSize :=
  congrArg KVCacheSpec.blockSize h.spec_eq

/-- A call for the request `r` leaves the entries of all others alone. -/
structure Framed (r : String) (m m' : SingleTypeKVCacheManager) : Prop where
  sameSpec : SameSpec m m'
  other_eq : ∀ r', r' ≠ r → m'.table r' = m.table r'
  cached_eq : ∀ r', r' ≠ r → m'.numCachedBlock.get? r' = m.numCachedBlock.get? r'

theorem Framed.refl (r : String) (m : SingleTypeKVCacheManager) : Framed r m m :=
  ⟨.refl m, fun _ _ => rfl, fun _ _ => rfl⟩

theorem Framed.trans {m₁ m₂ m₃ : SingleTypeKVCacheManager} (h : Framed id m₁ m₂)
    (h' : Framed id m₂ m₃) : Framed id m₁ m₃ :=
  ⟨h.sameSpec.trans h'.sameSpec, fun r hr => (h'.other_eq r hr).trans (h.other_eq r hr),
    fun r hr => (h'.cached_eq r hr).trans (h.cached_eq r hr)⟩

theorem Framed.setTable (blocks : List BlockId) : Framed id m (m.setTable id blocks) :=
  ⟨⟨rfl, rfl, rfl⟩, fun r hr => by rw [table_setTable, if_neg hr], fun _ _ => rfl⟩

theorem Framed.setNumCachedBlock (n : ℕ) : Framed id m (m.setNumCachedBlock id n) :=
  ⟨⟨rfl, rfl, rfl⟩, fun _ _ => rfl, fun r hr => by
    simp [SingleTypeKVCacheManager.setNumCachedBlock, OrdDict.get?_insert, hr]⟩

/-- A call for the request `r` that changes no table. -/
structure Unchanged (r : String) (m m' : SingleTypeKVCacheManager) : Prop
    extends Framed r m m' where
  table_eq : m'.table r = m.table r

/-- The blocks that lie before the window for a number of computed tokens. -/
def slidBlocks (m : SingleTypeKVCacheManager) (numComputedTokens : ℕ) : ℕ :=
  m.spec.getNumSkippedTokens numComputedTokens / m.blockSize

/-- The window of a group slides. -/
structure Slid (id : String) (numComputedTokens : ℕ) (m m' : SingleTypeKVCacheManager) : Prop
    extends Framed id m m' where
  numCachedBlock_eq : m'.numCachedBlock = m.numCachedBlock
  length_eq : (m'.table id).length = (m.table id).length
  held_le : numHeld (m'.table id) ≤ numHeld (m.table id)
  null : NullFirst (m.table id) → NullFirst (m'.table id) ∧
    ∀ i < min (slidBlocks m numComputedTokens) (m.table id).length,
      (m'.table id)[i]? = some nullBlock

theorem removeSkippedBlocks_slid (hreserved : NullReserved pool) (id : String) (n : ℕ) :
    Slid id n m (m.removeSkippedBlocks pool id n).2 ∧
      NullReserved (m.removeSkippedBlocks pool id n).1 := by
  unfold SingleTypeKVCacheManager.removeSkippedBlocks
  by_cases hzero : m.spec.getNumSkippedTokens n = 0
  · rw [if_pos hzero]
    refine ⟨⟨.refl id m, rfl, rfl, le_rfl, fun hnull => ⟨hnull, fun i hi => ?_⟩⟩, hreserved⟩
    rw [slidBlocks, hzero, Nat.zero_div, Nat.zero_min] at hi
    exact absurd hi (Nat.not_lt_zero i)
  · rw [if_neg hzero]
    have htable := removeBelow_table (m.table id) (min (slidBlocks m n) (m.table id).length)
    refine ⟨⟨.setTable _, rfl, ?_, ?_, fun hnull => ?_⟩, hreserved.freeBlocks _⟩
    · rw [table_setTable, if_pos rfl]
      exact htable.1
    · rw [table_setTable, if_pos rfl]
      exact htable.2
    · obtain ⟨hbelow, habove⟩ := removeBelow_null (n := min (slidBlocks m n) (m.table id).length)
        (fun i j hij _ => hnull i j hij) (Nat.min_le_right ..)
      rw [table_setTable, if_pos rfl]
      refine ⟨fun i j hij hj => ?_, hbelow⟩
      by_cases hi : i < min (slidBlocks m n) (m.table id).length
      · exact hbelow i hi
      · change (removeBelow (m.table id)
          (min (slidBlocks m n) (m.table id).length)).2[i]? = some nullBlock
        change (removeBelow (m.table id)
          (min (slidBlocks m n) (m.table id).length)).2[j]? = some nullBlock at hj
        rw [habove i (by omega)]
        rw [habove j (by omega)] at hj
        exact hnull i j hij hj

/-- New blocks are appended to the table of a request. -/
structure Extended (id : String) (length : ℕ) (m m' : SingleTypeKVCacheManager) : Prop
    extends Framed id m m' where
  table_eq : ∃ new, m'.table id = m.table id ++ new ∧ nullBlock ∉ new ∧
    new.length = length - (m.table id).length

theorem allocateNewBlocks_extended (hreserved : NullReserved pool) {numTokens : ℕ}
    {blocks : List BlockId}
    (h : m.allocateNewBlocks pool id numTokens = .ok (pool', m', blocks)) :
    Extended id (numTokens ⌈/⌉ m.blockSize) m m' ∧ NullReserved pool' := by
  unfold SingleTypeKVCacheManager.allocateNewBlocks at h
  dsimp only at h
  by_cases hle : ((numTokens ⌈/⌉ m.blockSize : ℕ) : ℤ) - ((m.table id).length : ℤ) ≤ 0
  · rw [if_pos hle] at h
    cases h
    refine ⟨⟨.setTable _, [], ?_, List.not_mem_nil, ?_⟩, hreserved⟩
    · simp
    · rw [List.length_nil]
      omega
  · rw [if_neg hle] at h
    cases hget : pool.getNewBlocks
        (((numTokens ⌈/⌉ m.blockSize : ℕ) : ℤ) - ((m.table id).length : ℤ)) with
    | error e =>
        rw [hget] at h
        cases h
    | ok result =>
        obtain ⟨new, next⟩ := result
        rw [hget] at h
        cases h
        obtain ⟨hnull, hnext⟩ := hreserved.getNewBlocks hget
        refine ⟨⟨.setTable _, new, by simp, hnull, ?_⟩, hnext⟩
        rw [(getNewBlocks_ok hget).2.1]
        omega

theorem cacheBlocks_table {request : Request η} {numTokens : ℕ} {alignment : Option ℕ}
    (h : m.cacheBlocks pool request numTokens alignment = .ok (pool', m')) :
    Unchanged request.requestId m m' ∧ SameNull pool pool' := by
  unfold SingleTypeKVCacheManager.cacheBlocks at h
  dsimp only at h
  split at h
  · cases h
    exact ⟨⟨.refl _ _, rfl⟩, .refl _⟩
  · -- The mask does not matter for the tables.
    have hrest : ∀ mask, (do
        let pool ← pool.cacheFullBlocks request.blockHashes (m.table request.requestId)
          ((m.numCachedBlock.get? request.requestId).getD 0) (numTokens / m.blockSize)
          m.blockSize m.groupId mask
        return (pool, (m.setTable request.requestId
          (m.table request.requestId)).setNumCachedBlock request.requestId
            (numTokens / m.blockSize)) : Except KVError _) = .ok (pool', m') →
        Unchanged request.requestId m m' ∧ SameNull pool pool' := by
      intro mask h
      cases hcache : pool.cacheFullBlocks request.blockHashes (m.table request.requestId)
          ((m.numCachedBlock.get? request.requestId).getD 0) (numTokens / m.blockSize)
          m.blockSize m.groupId mask with
      | error e =>
          rw [hcache] at h
          cases h
      | ok next =>
          rw [hcache] at h
          cases h
          refine ⟨⟨(Framed.setTable _).trans (.setNumCachedBlock _), ?_⟩,
            cacheFullBlocks_sameNull hcache⟩
          rw [table_setNumCachedBlock, table_setTable, if_pos rfl]
    cases alignment with
    | none => exact hrest none h
    | some a =>
        dsimp only at h
        split at h
        · exact hrest none h
        · cases hmask : m.spec.cacheBlockMask
            ((m.numCachedBlock.get? request.requestId).getD 0) (numTokens / m.blockSize) a with
          | error e =>
              rw [hmask] at h
              cases h
          | ok mask =>
              rw [hmask] at h
              exact hrest mask h

theorem allocateNewComputedBlocks_framed (hreserved : NullReserved pool)
    {hits : List BlockId} {numLocal numExternal : ℕ}
    (h : m.allocateNewComputedBlocks pool id hits numLocal numExternal = .ok (pool', m')) :
    Framed id m m' ∧ NullReserved pool' := by
  have hexternal : ∀ (pool : BlockPool η) (m : SingleTypeKVCacheManager) (n k : ℕ),
      NullReserved pool → m.allocateExternal pool id n k = .ok (pool', m') →
        Framed id m m' ∧ NullReserved pool' := by
    intro pool m n k hreserved h
    unfold SingleTypeKVCacheManager.allocateExternal at h
    dsimp only at h
    split at h
    · cases hget : pool.getNewBlocks
          (((n ⌈/⌉ m.blockSize : ℕ) : ℤ) - ((m.table id).length : ℤ)) with
      | error e =>
          rw [hget] at h
          cases h
      | ok result =>
          rw [hget] at h
          cases h
          exact ⟨.setTable _, (hreserved.getNewBlocks hget).2⟩
    · cases h
      exact ⟨.refl id _, hreserved⟩
  unfold SingleTypeKVCacheManager.allocateNewComputedBlocks at h
  split at h
  · split at h
    · cases h
      exact ⟨.refl id m, hreserved⟩
    · cases h
  · split at h
    · cases h
    · -- The hits that are used are touched, then the external tokens get their blocks.
      have hrest : ∀ (used : List BlockId) (n : ℕ), (do
          let pool ← if pool.enableCaching then pool.touch used
            else if used = [] then .ok pool else .error .assertion
          ((m.setTable id (List.replicate (m.spec.getNumSkippedTokens (numLocal + numExternal) /
            m.blockSize) nullBlock ++ used)).setNumCachedBlock id
              (List.replicate (m.spec.getNumSkippedTokens (numLocal + numExternal) /
                m.blockSize) nullBlock ++ used).length).allocateExternal pool id
                  (numLocal + numExternal) n : Except KVError _) = .ok (pool', m') →
          Framed id m m' ∧ NullReserved pool' := by
        intro used n h
        have hfinish : ∀ next, NullReserved next → ((m.setTable id
            (List.replicate (m.spec.getNumSkippedTokens (numLocal + numExternal) / m.blockSize)
              nullBlock ++ used)).setNumCachedBlock id
                (List.replicate (m.spec.getNumSkippedTokens (numLocal + numExternal) /
                  m.blockSize) nullBlock ++ used).length).allocateExternal next id
                    (numLocal + numExternal) n = .ok (pool', m') →
            Framed id m m' ∧ NullReserved pool' := by
          intro next hnext h
          obtain ⟨hframed, hpool⟩ := hexternal next _ _ n hnext h
          exact ⟨((Framed.setTable _).trans (.setNumCachedBlock _)).trans hframed, hpool⟩
        dsimp only [bind, Except.bind] at h
        split at h
        · cases htouch : pool.touch used with
          | error e =>
              rw [htouch] at h
              cases h
          | ok next =>
              rw [htouch] at h
              exact hfinish next (hreserved.touch used htouch) h
        · split at h
          · exact hfinish pool hreserved h
          · cases h
      dsimp only at h
      by_cases hskipped : 0 < m.spec.getNumSkippedTokens (numLocal + numExternal) / m.blockSize
      · rw [if_pos hskipped] at h
        exact hrest _ _ h
      · rw [if_neg hskipped] at h
        exact hrest _ _ h

end Group

/-! ## All groups -/

section Groups

open KVCacheManager

variable {M M' : KVCacheManager η} {request : Request η} {args : SlotArgs}

/-- What a call does to the table of the request in every group. -/
structure Served (id : String) (numComputedTokens numTokens : ℕ)
    (m m' : SingleTypeKVCacheManager) : Prop extends Framed id m m' where
  tables : ∃ slid : SingleTypeKVCacheManager, Slid id numComputedTokens m slid ∧
    Extended id (numTokens ⌈/⌉ m.blockSize) slid m'

theorem forall₂_comp {α β γ : Type} {R : α → β → Prop} {S : β → γ → Prop} {T : α → γ → Prop}
    (hT : ∀ a b c, R a b → S b c → T a c) {as : List α} {bs : List β} {cs : List γ}
    (h : List.Forall₂ R as bs) (h' : List.Forall₂ S bs cs) :
    List.Forall₂ T as cs := by
  induction h generalizing cs with
  | nil =>
      cases h'
      exact .nil
  | cons hab _ ih =>
      cases h' with
      | cons hbc hrest => exact .cons (hT _ _ _ hab hbc) (ih hrest)

theorem removeSkippedBlocks_forall₂ (hreserved : NullReserved M.blockPool) (id : String)
    (n : ℕ) : NullReserved (M.removeSkippedBlocks id n).blockPool ∧
      List.Forall₂ (Slid id n) M.singleTypeManagers
        (M.removeSkippedBlocks id n).singleTypeManagers := by
  refine forManagers_forall₂ (fun pool m _ pool' m' hpool h => ?_)
    (M.singleTypeManagers.map fun _ => ()) (by simp) hreserved
    (mapManagers_eq fun pool manager => manager.removeSkippedBlocks pool id n)
  obtain ⟨rfl, rfl⟩ := Prod.mk.inj (Except.ok.inj h)
  exact (removeSkippedBlocks_slid hpool id n).symm

theorem allocateNewBlocks_forall₂ (hreserved : NullReserved M.blockPool) {id : String} {n : ℕ}
    {blocks : List (List BlockId)} (h : M.allocateNewBlocks id n = .ok (M', blocks)) :
    NullReserved M'.blockPool ∧ M'.maxModelLen = M.maxModelLen ∧
      List.Forall₂ (fun m m' => Extended id (n ⌈/⌉ m.blockSize) m m')
        M.singleTypeManagers M'.singleTypeManagers := by
  have hmap := allocateNewBlocks_eq (M := M) id n
  rw [h] at hmap
  obtain ⟨result, hloop, hM'⟩ := Ensures.exists_of_map_eq_ok hmap.symm
  obtain rfl : M' = { M with blockPool := result.1, singleTypeManagers := result.2 } := hM'.symm
  obtain ⟨hpool, hall⟩ := forManagers_forall₂ (Q := NullReserved)
    (R := fun m m' => Extended id (n ⌈/⌉ m.blockSize) m m')
    (fun pool m _ pool' m' hpool h => by
      obtain ⟨one, hone, hresult⟩ := Ensures.exists_of_map_eq_ok h
      obtain ⟨rfl, rfl⟩ := Prod.mk.inj hresult
      exact (allocateNewBlocks_extended hpool hone).symm)
    (M.singleTypeManagers.map fun _ => ()) (by simp) hreserved hloop
  exact ⟨hpool, rfl, hall⟩

theorem cacheCoordinatedBlocks_forall₂ (hreserved : NullReserved M.blockPool) {n : ℕ}
    (h : M.cacheCoordinatedBlocks request n = .ok M') :
    NullReserved M'.blockPool ∧ M'.maxModelLen = M.maxModelLen ∧
      List.Forall₂ (Unchanged request.requestId) M.singleTypeManagers M'.singleTypeManagers := by
  unfold cacheCoordinatedBlocks at h
  generalize (if M.isHybrid then (n / M.lcmBlockSize * M.lcmBlockSize, some M.lcmBlockSize)
    else (n, none)) = tokens at h
  obtain ⟨numTokens, alignment⟩ := tokens
  dsimp only at h
  cases hloop : forManagers (fun pool manager _ =>
      manager.cacheBlocks pool request numTokens alignment) M.blockPool M.singleTypeManagers
      (M.singleTypeManagers.map fun _ => ()) with
  | error e =>
      rw [hloop] at h
      cases h
  | ok result =>
      rw [hloop] at h
      obtain rfl := Except.ok.inj h
      obtain ⟨hpool, hall⟩ := forManagers_forall₂ (Q := NullReserved)
        (R := Unchanged request.requestId)
        (fun pool m _ pool' m' hpool h => by
          obtain ⟨hsame, hnull⟩ := cacheBlocks_table h
          exact ⟨hpool.same hnull, hsame⟩)
        (M.singleTypeManagers.map fun _ => ()) (by simp) hreserved hloop
      exact ⟨hpool, rfl, hall⟩

theorem allocateNewComputedBlocks_forall₂ (hreserved : NullReserved M.blockPool) {id : String}
    {hits : List (List BlockId)} {numLocal numExternal : ℕ}
    (h : M.allocateNewComputedBlocks id hits numLocal numExternal = .ok M') :
    NullReserved M'.blockPool ∧ M'.maxModelLen = M.maxModelLen ∧
      List.Forall₂ (Framed id) M.singleTypeManagers M'.singleTypeManagers := by
  unfold KVCacheManager.allocateNewComputedBlocks at h
  cases hloop : forManagers (fun pool manager hits =>
      manager.allocateNewComputedBlocks pool id hits numLocal numExternal) M.blockPool
      M.singleTypeManagers hits with
  | error e =>
      rw [hloop] at h
      cases h
  | ok result =>
      rw [hloop] at h
      obtain rfl := Except.ok.inj h
      obtain ⟨hpool, hall⟩ := forManagers_forall₂ (Q := NullReserved) (R := Framed id)
        (fun pool m _ pool' m' hpool h => (allocateNewComputedBlocks_framed hpool h).symm)
        hits (.inr fun m => .refl id m) hreserved hloop
      exact ⟨hpool, rfl, hall⟩

/-- The stages of a call. A call without blocks may have let the window slide. -/
theorem allocateSlots_stages {result : Option (List (List BlockId))}
    (h : M.allocateSlots request args = .ok (M', result)) :
    (result = none ∧ (M' = M ∨
      M' = M.removeSkippedBlocks request.requestId (M.totalComputedTokens request args))) ∨
    ∃ M₂ blocks, result = some blocks ∧ (M.removeSkippedBlocks request.requestId
        (M.totalComputedTokens request args)).allocateChecked request args = .ok (M₂, blocks) ∧
      (M' = M₂ ∨ ∃ n, M₂.cacheCoordinatedBlocks request n = .ok M') := by
  unfold allocateSlots at h
  split at h
  · cases h
  · cases hfits : M.fullSequenceFits request args with
    | error e =>
        rw [hfits] at h
        cases h
    | ok fits =>
        rw [hfits] at h
        dsimp only [bind, Except.bind] at h
        split at h
        · cases h
          exact .inl ⟨rfl, .inl rfl⟩
        · generalize M.removeSkippedBlocks request.requestId
            (M.totalComputedTokens request args) = M₁ at h ⊢
          cases hnum : M₁.numBlocksToAllocate request args with
          | error e =>
              rw [hnum] at h
              cases h
          | ok n =>
              rw [hnum] at h
              dsimp only at h
              split at h
              · cases h
                exact .inl ⟨rfl, .inr rfl⟩
              · cases hchecked : M₁.allocateChecked request args with
                | error e =>
                    rw [hchecked] at h
                    cases h
                | ok result =>
                    obtain ⟨M₂, new⟩ := result
                    rw [hchecked] at h
                    dsimp only at h
                    split at h
                    · cases h
                      exact .inr ⟨M', new, rfl, rfl, .inl rfl⟩
                    · cases hcache : M₂.cacheCoordinatedBlocks request
                        (min (M.totalComputedTokens request args + args.numNewTokens)
                          request.numTokens) with
                      | error e =>
                          rw [hcache] at h
                          cases h
                      | ok M₃ =>
                          rw [hcache] at h
                          cases h
                          exact .inr ⟨M₂, new, rfl, rfl, .inr ⟨_, hcache⟩⟩

/-- The stages of a call that succeeds. -/
theorem allocateSlots_some {blocks : List (List BlockId)}
    (h : M.allocateSlots request args = .ok (M', some blocks)) :
    ∃ M₂, (M.removeSkippedBlocks request.requestId
        (M.totalComputedTokens request args)).allocateChecked request args = .ok (M₂, blocks) ∧
      (M' = M₂ ∨ ∃ n, M₂.cacheCoordinatedBlocks request n = .ok M') := by
  rcases allocateSlots_stages h with ⟨hnone, -⟩ | ⟨M₂, new, hsome, hstages⟩
  · cases hnone
  · cases hsome
    exact ⟨M₂, hstages⟩

/-- A call for a running request. -/
theorem allocateSlots_served (hreserved : NullReserved M.blockPool)
    (hhits : args.newComputedBlocks = M.singleTypeManagers.map fun _ => [])
    (hexternal : args.numExternalComputedTokens = 0) {blocks : List (List BlockId)}
    (h : M.allocateSlots request args = .ok (M', some blocks)) :
    NullReserved M'.blockPool ∧ M'.maxModelLen = M.maxModelLen ∧
      List.Forall₂ (Served request.requestId (M.totalComputedTokens request args)
        (M.numTokensNeedSlot request args)) M.singleTypeManagers M'.singleTypeManagers := by
  obtain ⟨M₂, hchecked, hcached⟩ := allocateSlots_some h
  obtain ⟨hpool₁, hslid⟩ := removeSkippedBlocks_forall₂ hreserved request.requestId
    (M.totalComputedTokens request args)
  have hnone : ¬((∃ hits ∈ args.newComputedBlocks, hits ≠ []) ∨
      0 < args.numExternalComputedTokens) := by
    rw [hhits, hexternal]
    simp
  unfold allocateChecked at hchecked
  rw [if_neg hnone] at hchecked
  obtain ⟨hpool₂, hlen₂, hextended⟩ := allocateNewBlocks_forall₂ hpool₁ hchecked
  have hserved : List.Forall₂ (Served request.requestId (M.totalComputedTokens request args)
      (M.numTokensNeedSlot request args)) M.singleTypeManagers M₂.singleTypeManagers := by
    refine forall₂_comp (fun m slid m' hslid hextended => ?_) hslid hextended
    refine ⟨hslid.toFramed.trans hextended.toFramed, slid, hslid, ?_⟩
    rw [hslid.sameSpec.blockSize_eq] at hextended
    exact hextended
  rcases hcached with rfl | ⟨n, hcached⟩
  · exact ⟨hpool₂, hlen₂, hserved⟩
  · obtain ⟨hpool₃, hlen₃, htables⟩ :=
      cacheCoordinatedBlocks_forall₂ hpool₂ hcached
    refine ⟨hpool₃, hlen₃.trans hlen₂, ?_⟩
    refine forall₂_comp (fun m m' m'' hserved hsame => ?_) hserved htables
    obtain ⟨hframed, slid, hslid, hslidFramed, hext⟩ := hserved
    refine ⟨hframed.trans hsame.toFramed, slid, hslid, hslidFramed.trans hsame.toFramed, ?_⟩
    rw [hsame.table_eq]
    exact hext

/-- Any call leaves slots for the tokens it was asked for. -/
theorem allocateSlots_covers (hreserved : NullReserved M.blockPool)
    {blocks : List (List BlockId)}
    (h : M.allocateSlots request args = .ok (M', some blocks)) :
    NullReserved M'.blockPool ∧ M'.maxModelLen = M.maxModelLen ∧
      List.Forall₂ (fun m m' => Framed request.requestId m m' ∧
        M.numTokensNeedSlot request args ⌈/⌉ m.blockSize ≤
          (m'.table request.requestId).length) M.singleTypeManagers M'.singleTypeManagers := by
  obtain ⟨M₂, hchecked, hcached⟩ := allocateSlots_some h
  obtain ⟨hpool₁, hslid⟩ := removeSkippedBlocks_forall₂ hreserved request.requestId
    (M.totalComputedTokens request args)
  have hneed : (M.removeSkippedBlocks request.requestId
      (M.totalComputedTokens request args)).numTokensNeedSlot request args =
        M.numTokensNeedSlot request args := rfl
  have hcovers : NullReserved M₂.blockPool ∧ M₂.maxModelLen = M.maxModelLen ∧
      List.Forall₂ (fun m m' => Framed request.requestId m m' ∧
        M.numTokensNeedSlot request args ⌈/⌉ m.blockSize ≤
          (m'.table request.requestId).length) M.singleTypeManagers M₂.singleTypeManagers := by
    have hlen₁ : (M.removeSkippedBlocks request.requestId
        (M.totalComputedTokens request args)).maxModelLen = M.maxModelLen := rfl
    generalize M.removeSkippedBlocks request.requestId
      (M.totalComputedTokens request args) = M₁ at hchecked hpool₁ hslid hneed hlen₁
    -- The groups after the hits and the external tokens of a new request.
    obtain ⟨M₁', hpool₁', hlen₁', hframed, hnew⟩ : ∃ M₁' : KVCacheManager η,
        NullReserved M₁'.blockPool ∧ M₁'.maxModelLen = M₁.maxModelLen ∧
          List.Forall₂ (Framed request.requestId) M₁.singleTypeManagers M₁'.singleTypeManagers ∧
          M₁'.allocateNewBlocks request.requestId (M₁'.numTokensNeedSlot request args) =
            .ok (M₂, blocks) := by
      unfold allocateChecked at hchecked
      split at hchecked
      · cases hcomputed : M₁.allocateNewComputedBlocks request.requestId args.newComputedBlocks
            (numLocalComputedTokens request args) args.numExternalComputedTokens with
        | error e =>
            rw [hcomputed] at hchecked
            cases hchecked
        | ok M₁' =>
            rw [hcomputed] at hchecked
            obtain ⟨hpool, hlen, hframed⟩ := allocateNewComputedBlocks_forall₂ hpool₁
              hcomputed
            refine ⟨M₁', hpool, hlen, hframed, ?_⟩
            rw [numTokensNeedSlot, totalComputedTokens, hlen]
            exact hchecked
      · refine ⟨M₁, hpool₁, rfl, ?_, hchecked⟩
        exact List.forall₂_same.mpr fun m _ => .refl _ m
    obtain ⟨hpool₂, hlen₂, hextended⟩ := allocateNewBlocks_forall₂ hpool₁' hnew
    have hneed' : M₁'.numTokensNeedSlot request args = M.numTokensNeedSlot request args := by
      rw [← hneed, numTokensNeedSlot, numTokensNeedSlot, totalComputedTokens,
        totalComputedTokens, hlen₁']
    rw [hneed'] at hextended
    refine ⟨hpool₂, hlen₂.trans (hlen₁'.trans hlen₁), ?_⟩
    have hfirst : List.Forall₂ (Framed request.requestId) M.singleTypeManagers
        M₁'.singleTypeManagers :=
      forall₂_comp (fun m m₁ m₁' hslid hframed => hslid.toFramed.trans hframed) hslid hframed
    refine forall₂_comp (fun m m₁ m₂ hframed hextended => ?_) hfirst hextended
    refine ⟨hframed.trans hextended.toFramed, ?_⟩
    obtain ⟨new, htable, -, hlength⟩ := hextended.table_eq
    rw [hframed.sameSpec.blockSize_eq] at hlength
    rw [htable, List.length_append]
    omega
  rcases hcached with rfl | ⟨n, hcached⟩
  · exact hcovers
  · obtain ⟨hpool₃, hlen₃, htables⟩ :=
      cacheCoordinatedBlocks_forall₂ hcovers.1 hcached
    refine ⟨hpool₃, hlen₃.trans hcovers.2.1, ?_⟩
    refine forall₂_comp (fun m m' m'' hcovers hsame => ?_) hcovers.2.2 htables
    exact ⟨hcovers.1.trans hsame.toFramed, (hsame.table_eq).symm ▸ hcovers.2⟩

end Groups

end TokenCake.KV
