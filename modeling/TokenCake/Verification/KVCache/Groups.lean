import TokenCake.Model.KVCacheManager
import TokenCake.Verification.KVCache.Ledger

/-! # The tables of one group

Every operation of a group's manager keeps the ledger, whatever the other groups hold. -/

namespace TokenCake.KV

variable {η : Type} [DecidableEq η] {pool pool' : BlockPool η} {o v : BlockId → ℕ}

namespace SingleTypeKVCacheManager

variable {m : SingleTypeKVCacheManager} {r : String} {l : List BlockId}

def numCached (m : SingleTypeKVCacheManager) (r : String) : ℕ := (m.numCachedBlock.get? r).getD 0

/-- How often the tables of the group hold a block. -/
def held (m : SingleTypeKVCacheManager) (b : BlockId) : ℕ :=
  m.reqToBlocks.sum fun _ l => l.count b

/-- How often they hold it at an index that has not been offered to the prefix cache. -/
def uncached (m : SingleTypeKVCacheManager) (b : BlockId) : ℕ :=
  m.reqToBlocks.sum fun r l => (l.drop (m.numCached r)).count b

/-! ## Sums over the tables -/

section Sums

variable {f g : String → List BlockId → ℕ}

theorem sum_setTable (hf : f r [] = 0) :
    (m.setTable r l).reqToBlocks.sum f + f r (m.table r) = m.reqToBlocks.sum f + f r l := by
  unfold setTable table
  cases hget : m.reqToBlocks.get? r with
  | none => simp [OrdDict.sum_insert_new hget, hf]
  | some old => simpa using OrdDict.sum_insert_add hget l f

theorem sum_erase (hf : f r [] = 0) :
    (m.reqToBlocks.erase r).sum f + f r (m.table r) = m.reqToBlocks.sum f := by
  unfold table
  cases hget : m.reqToBlocks.get? r with
  | none => simp [OrdDict.erase_of_get?_eq_none hget, hf]
  | some old => exact OrdDict.sum_erase_add hget f

/-- Two weights that agree on all other requests. -/
theorem sum_change (hf : f r [] = 0) (hg : g r [] = 0) (hother : ∀ r' l, r' ≠ r → f r' l = g r' l) :
    m.reqToBlocks.sum f + g r (m.table r) = m.reqToBlocks.sum g + f r (m.table r) := by
  have hrest : (m.reqToBlocks.erase r).sum f = (m.reqToBlocks.erase r).sum g := by
    refine OrdDict.sum_congr fun r' l hget => hother r' l ?_
    rintro rfl
    simp [OrdDict.get?_erase] at hget
  have hsum := sum_erase (m := m) hf
  have hsum' := sum_erase (m := m) hg
  omega

end Sums

@[simp] theorem table_setTable (r' : String) :
    (m.setTable r l).table r' = if r' = r then l else m.table r' := by
  simp only [table, setTable, OrdDict.get?_insert]
  split <;> rfl

@[simp] theorem numCached_setTable (r' : String) : (m.setTable r l).numCached r' = m.numCached r' :=
  rfl

@[simp] theorem table_setNumCachedBlock (n : ℕ) (r' : String) :
    (m.setNumCachedBlock r n).table r' = m.table r' := rfl

@[simp] theorem numCached_setNumCachedBlock (n : ℕ) (r' : String) :
    (m.setNumCachedBlock r n).numCached r' = if r' = r then n else m.numCached r' := by
  simp only [numCached, setNumCachedBlock, OrdDict.get?_insert]
  split <;> rfl

theorem held_setTable (b : BlockId) :
    (m.setTable r l).held b + (m.table r).count b = m.held b + l.count b :=
  sum_setTable (f := fun _ l => l.count b) (List.count_nil ..)

theorem uncached_setTable (b : BlockId) :
    (m.setTable r l).uncached b + ((m.table r).drop (m.numCached r)).count b =
      m.uncached b + (l.drop (m.numCached r)).count b :=
  sum_setTable (f := fun r l => (l.drop (m.numCached r)).count b) (by simp)

theorem held_setNumCachedBlock (n : ℕ) (b : BlockId) :
    (m.setNumCachedBlock r n).held b = m.held b := rfl

theorem uncached_setNumCachedBlock (n : ℕ) (b : BlockId) :
    (m.setNumCachedBlock r n).uncached b + ((m.table r).drop (m.numCached r)).count b =
      m.uncached b + ((m.table r).drop n).count b := by
  have hsum := sum_change (m := m) (r := r)
    (f := fun r' l => (l.drop ((m.setNumCachedBlock r n).numCached r')).count b)
    (g := fun r' l => (l.drop (m.numCached r')).count b) (by simp) (by simp)
    (fun r' l hr => by simp [hr])
  simp only [numCached_setNumCachedBlock, if_true] at hsum
  unfold uncached
  simp only [numCached_setNumCachedBlock]
  exact hsum

/-- The last table entries of a request are among all entries. -/
theorem uncached_le_held (b : BlockId) : m.uncached b ≤ m.held b :=
  OrdDict.sum_le_sum fun _ l _ => (List.drop_sublist _ l).count_le b

theorem count_table_le (r : String) (b : BlockId) : (m.table r).count b ≤ m.held b := by
  have := sum_erase (m := m) (r := r) (f := fun _ l => l.count b) (List.count_nil ..)
  unfold held
  omega

theorem count_drop_le (r : String) (b : BlockId) :
    ((m.table r).drop (m.numCached r)).count b ≤ m.uncached b := by
  have := sum_erase (m := m) (r := r) (f := fun r l => (l.drop (m.numCached r)).count b) (by simp)
  unfold uncached
  omega

end SingleTypeKVCacheManager

/-! ## The invariant of a group -/

/-- The configuration of the pool, which no operation changes, and its drift, which does not
change when `P` holds. -/
structure Setup (P : Prop) (pool pool' : BlockPool η) : Prop where
  drift_le : drift pool ≤ drift pool'
  drift_eq : P → drift pool' = drift pool
  numGpuBlocks_eq : pool'.numGpuBlocks = pool.numGpuBlocks
  enableCaching_eq : pool'.enableCaching = pool.enableCaching
  hashBlockSize_eq : pool'.hashBlockSize = pool.hashBlockSize

namespace Setup

variable {P P' : Prop}

omit [DecidableEq η] in
theorem refl (pool : BlockPool η) : Setup P pool pool := ⟨le_rfl, fun _ => rfl, rfl, rfl, rfl⟩

omit [DecidableEq η] in
theorem trans {pool₁ pool₂ pool₃ : BlockPool η} (h : Setup P pool₁ pool₂)
    (h' : Setup P pool₂ pool₃) : Setup P pool₁ pool₃ :=
  ⟨h.1.trans h'.1, fun hp => (h'.2 hp).trans (h.2 hp), h'.3.trans h.3, h'.4.trans h.4,
    h'.5.trans h.5⟩

omit [DecidableEq η] in
theorem mono (h : Setup P pool pool') (hP : P' → P) : Setup P' pool pool' :=
  ⟨h.1, fun hp => h.2 (hP hp), h.3, h.4, h.5⟩

end Setup

omit [DecidableEq η] in
theorem SameHashes.setup {P : Prop} (h : SameHashes pool pool') (hdrift : drift pool' = drift pool) :
    Setup P pool pool' := ⟨hdrift.ge, fun _ => hdrift, h.1, h.2, h.3⟩

omit [DecidableEq η] in
theorem BlockPool.SameCounts.setup {P : Prop} (h : BlockPool.SameCounts pool pool') :
    Setup P pool pool' := by
  have hdrift : drift pool' = drift pool := by rw [drift, h.counter_eq, h.queue_eq, drift]
  exact ⟨hdrift.ge, fun _ => hdrift, h.1, h.2, h.3⟩

theorem NewBlocks.setup {P : Prop} {k : ℤ} {n u : BlockId → ℕ}
    {result : List BlockId × BlockPool η} (h : NewBlocks pool k n u result) (hk : P → 0 ≤ k) :
    Setup P pool result.2 := by
  have hdrift := h.drift_eq
  refine ⟨by omega, fun hp => ?_, h.numGpuBlocks_eq, h.enableCaching_eq, h.hashBlockSize_eq⟩
  have := hk hp
  omega

/-- The group keeps its identity, and the entries of all requests but one. -/
structure SameGroup (r : String) (m m' : SingleTypeKVCacheManager) : Prop where
  spec_eq : m'.spec = m.spec
  groupId_eq : m'.groupId = m.groupId
  table_eq : ∀ r', r' ≠ r → m'.table r' = m.table r'
  numCachedBlock_eq : ∀ r', r' ≠ r → m'.numCachedBlock.get? r' = m.numCachedBlock.get? r'

namespace SameGroup

variable {m m₁ m₂ : SingleTypeKVCacheManager} {r : String}

theorem refl (r : String) (m : SingleTypeKVCacheManager) : SameGroup r m m :=
  ⟨rfl, rfl, fun _ _ => rfl, fun _ _ => rfl⟩

theorem trans (h : SameGroup r m m₁) (h' : SameGroup r m₁ m₂) : SameGroup r m m₂ :=
  ⟨h'.1.trans h.1, h'.2.trans h.2, fun r' hr => (h'.3 r' hr).trans (h.3 r' hr),
    fun r' hr => (h'.4 r' hr).trans (h.4 r' hr)⟩

theorem setTable (l : List BlockId) : SameGroup r m (m.setTable r l) :=
  ⟨rfl, rfl, fun r' hr => by simp [hr], fun _ _ => rfl⟩

theorem setNumCachedBlock (n : ℕ) : SameGroup r m (m.setNumCachedBlock r n) :=
  ⟨rfl, rfl, fun _ _ => rfl, fun r' hr => by
    simp [SingleTypeKVCacheManager.setNumCachedBlock, OrdDict.get?_insert, hr]⟩

end SameGroup

/-- The ledger counts the tables of the group and what the others hold (`o`, and `v` among it
not cached); no table holds a block twice. -/
structure Sound (o v : BlockId → ℕ) (pool : BlockPool η) (m : SingleTypeKVCacheManager) : Prop where
  ledger : Ledger pool (fun b => o b + m.held b) (fun b => v b + m.uncached b)
  one : ∀ r b, b ≠ nullBlock → (m.table r).count b ≤ 1
  others_le : ∀ b, v b ≤ o b

/-- What every operation on a request does to its group. -/
structure Kept (o v : BlockId → ℕ) (P : Prop) (r : String) (pool : BlockPool η)
    (m : SingleTypeKVCacheManager) (result : BlockPool η × SingleTypeKVCacheManager) : Prop where
  sound : Sound o v result.1 result.2
  group : SameGroup r m result.2
  setup : Setup P pool result.1

namespace Sound

open SingleTypeKVCacheManager

variable {m : SingleTypeKVCacheManager} {r : String}

/-- A table is replaced and the ledger follows. -/
theorem setTable (h : Sound o v pool m) {l : List BlockId} {n u : BlockId → ℕ}
    (hledger : Ledger pool' n u)
    (hn : ∀ b, b ≠ nullBlock → o b + m.held b + l.count b = n b + (m.table r).count b)
    (hu : ∀ b, b ≠ nullBlock → v b + m.uncached b + (l.drop (m.numCached r)).count b ≤
      u b + ((m.table r).drop (m.numCached r)).count b)
    (hone : ∀ b, b ≠ nullBlock → l.count b ≤ 1) : Sound o v pool' (m.setTable r l) where
  ledger := by
    refine hledger.congr (fun b hb => ?_) fun b hb => ?_
    · have := held_setTable (m := m) (r := r) (l := l) b
      have := hn b hb
      omega
    · have := uncached_setTable (m := m) (r := r) (l := l) b
      have := hu b hb
      omega
  one := by
    intro r' b hb
    rw [table_setTable]
    split
    · exact hone b hb
    · exact h.one r' b hb
  others_le := h.others_le

/-- Reading a table through the `defaultdict` may create an empty one. -/
theorem setTable_self (h : Sound o v pool m) (r : String) :
    Sound o v pool (m.setTable r (m.table r)) :=
  h.setTable h.ledger (fun _ _ => rfl) (fun _ _ => le_rfl) fun b hb => h.one r b hb

/-- New blocks go to the end of a table. -/
theorem append (h : Sound o v pool m) (r : String) {k : ℤ} {result : List BlockId × BlockPool η}
    (hnew : NewBlocks pool k (fun b => o b + m.held b) (fun b => v b + m.uncached b) result) :
    Sound o v result.2 (m.setTable r (m.table r ++ result.1)) := by
  refine h.setTable hnew.ledger (fun b _ => ?_) (fun b _ => ?_) fun b hb => ?_
  · rw [List.count_append]
    omega
  · rw [List.drop_append, List.count_append]
    have := (List.drop_sublist (m.numCached r - (m.table r).length) result.1).count_le b
    omega
  · rw [List.count_append]
    by_cases hmem : b ∈ result.1
    · have hqueue := hnew.blocks_eq ▸ hmem
      have hzero := ((h.ledger.mem_queue b).mp (List.mem_of_mem_take hqueue)).2.2
      have htable := count_table_le (m := m) r b
      have hone : result.1.count b ≤ 1 := by
        rw [hnew.blocks_eq]
        exact List.nodup_iff_count_le_one.mp
          (h.ledger.queue_nodup.sublist (List.take_sublist ..)) b
      omega
    · rw [List.count_eq_zero_of_not_mem hmem]
      exact h.one r b hb

/-! ## Allocating blocks -/

/-- The number of blocks that a table lacks for a number of tokens. -/
def lacking (m : SingleTypeKVCacheManager) (r : String) (numTokens : ℕ) : ℤ :=
  (numTokens ⌈/⌉ m.blockSize : ℕ) - ((m.table r).length : ℤ)

theorem allocateNewBlocks (h : Sound o v pool m) (r : String) (numTokens : ℕ) {P : Prop} :
    Ensures (fun e => e.Ordinary ∧ pool.freeBlockQueue.length < (lacking m r numTokens).toNat)
      (fun (pool', m', blocks) => Kept o v P r pool m (pool', m') ∧
        pool'.freeBlockQueue = pool.freeBlockQueue.drop (lacking m r numTokens).toNat ∧
        m'.numCachedBlock = m.numCachedBlock ∧ m'.table r = m.table r ++ blocks ∧
        blocks.length = (lacking m r numTokens).toNat)
      (m.allocateNewBlocks pool r numTokens) := by
  unfold SingleTypeKVCacheManager.allocateNewBlocks
  by_cases hle : lacking m r numTokens ≤ 0
  · refine (if_pos hle).symm ▸ .ok ⟨⟨h.setTable_self r, .setTable _, .refl pool⟩, ?_⟩
    have hz : (lacking m r numTokens).toNat = 0 := by omega
    exact ⟨by rw [hz]; rfl, rfl, by simp, by rw [hz]; rfl⟩
  · refine (if_neg hle).symm ▸ .bind (h.ledger.getNewBlocks _) fun result hnew => .ok ?_
    refine ⟨⟨h.append r hnew, .setTable _, hnew.setup fun _ => ?_⟩, hnew.queue_eq, rfl, by simp,
      hnew.length_eq⟩
    exact (not_le.mp hle).le

/-- The blocks for external tokens. A table that is too long makes the counter drift. -/
theorem allocateExternal (h : Sound o v pool m) (r : String) (numTotal numExternal : ℕ) {P : Prop}
    (hP : P → 0 < numExternal → 0 ≤ lacking m r numTotal) :
    Ensures (fun e => e.Ordinary ∧ 0 < numExternal ∧
        pool.freeBlockQueue.length < (lacking m r numTotal).toNat)
      (fun result => Kept o v P r pool m result ∧ result.2.numCachedBlock = m.numCachedBlock ∧
        ∃ blocks, result.2.table r = m.table r ++ blocks ∧
          blocks.length = (if 0 < numExternal then (lacking m r numTotal).toNat else 0) ∧
          result.1.freeBlockQueue = pool.freeBlockQueue.drop blocks.length)
      (m.allocateExternal pool r numTotal numExternal) := by
  unfold SingleTypeKVCacheManager.allocateExternal
  by_cases hext : 0 < numExternal
  · rw [if_pos hext, if_pos hext]
    have hget : Ensures (fun e => e.Ordinary ∧ 0 < numExternal ∧
        pool.freeBlockQueue.length < (lacking m r numTotal).toNat)
        (NewBlocks pool (lacking m r numTotal) (fun b => o b + m.held b)
          (fun b => v b + m.uncached b)) (pool.getNewBlocks (lacking m r numTotal)) :=
      (h.ledger.getNewBlocks _).imp_error fun e he => ⟨he.1, hext, he.2⟩
    refine hget.bind fun result hnew => .ok ?_
    refine ⟨⟨h.append r hnew, .setTable _, hnew.setup fun hp => hP hp hext⟩, rfl, result.1, ?_,
      hnew.length_eq, ?_⟩
    · simp
    · rw [hnew.length_eq]
      exact hnew.queue_eq
  · rw [if_neg hext, if_neg hext]
    exact .ok ⟨⟨h, .refl r m, .refl pool⟩, rfl, [], by simp⟩

/-! ## Admitting a request -/

section Admit

variable (m : SingleTypeKVCacheManager) (hits : List BlockId) (numTotal numExternal : ℕ)

def numSkippedBlocks : ℕ := m.spec.getNumSkippedTokens numTotal / m.blockSize

/-- The hits of a new request that are not outside its window. -/
def usedHits : List BlockId := hits.drop (numSkippedBlocks m numTotal)

def firstTable : List BlockId :=
  List.replicate (numSkippedBlocks m numTotal) nullBlock ++ usedHits m hits numTotal

/-- The external tokens that are not outside the window. -/
def usedExternal : ℕ :=
  if 0 < numSkippedBlocks m numTotal then
    min (numTotal - m.spec.getNumSkippedTokens numTotal) numExternal
  else numExternal

/-- The number of blocks that the external tokens of a new request take. -/
def externalBlocks : ℤ := (numTotal ⌈/⌉ m.blockSize : ℕ) - ((firstTable m hits numTotal).length : ℤ)

/-- The number of blocks that leave the queue for them. -/
def numExternalBlocks : ℕ :=
  if 0 < usedExternal m numTotal numExternal then (externalBlocks m hits numTotal).toNat else 0

end Admit

/-- Blocks of a prefix-cache hit: null blocks, and blocks of the pool that all differ. -/
structure HitList (numGpuBlocks : ℕ) (hits : List BlockId) : Prop where
  lt : ∀ b ∈ hits, b ≠ nullBlock → b < numGpuBlocks
  one : ∀ b, b ≠ nullBlock → hits.count b ≤ 1

theorem HitList.nil (n : ℕ) : HitList n [] := ⟨by simp, by simp⟩

theorem HitList.drop {n : ℕ} {hits : List BlockId} (h : HitList n hits) (k : ℕ) :
    HitList n (hits.drop k) :=
  ⟨fun b hb => h.lt b (List.mem_of_mem_drop hb),
    fun b hb => ((List.drop_sublist k hits).count_le b).trans (h.one b hb)⟩

/-- The hits are touched when caching is on, and must be absent otherwise. -/
def touchHits (pool : BlockPool η) (hits : List BlockId) : Except KVError (BlockPool η) :=
  if pool.enableCaching then pool.touch hits
  else if hits = [] then .ok pool
  else .error .assertion

/-- The manager that has given a request its first table. -/
def withFirstTable (m : SingleTypeKVCacheManager) (r : String) (hits : List BlockId)
    (numTotal : ℕ) : SingleTypeKVCacheManager :=
  (m.setTable r (firstTable m hits numTotal)).setNumCachedBlock r (firstTable m hits numTotal).length

theorem allocateNewComputedBlocks_eq {hits : List BlockId} {numLocal numExternal : ℕ}
    (hnew : m.numCachedBlock.contains r = false) (htable : m.table r = []) :
    m.allocateNewComputedBlocks pool r hits numLocal numExternal =
      touchHits pool (usedHits m hits (numLocal + numExternal)) >>= fun touched =>
        (withFirstTable m r hits (numLocal + numExternal)).allocateExternal touched r
          (numLocal + numExternal) (usedExternal m (numLocal + numExternal) numExternal) := by
  have hsplit : (if 0 < numSkippedBlocks m (numLocal + numExternal) then
      (hits.drop (numSkippedBlocks m (numLocal + numExternal)),
        min (numLocal + numExternal - m.spec.getNumSkippedTokens (numLocal + numExternal))
          numExternal)
      else (hits, numExternal)) =
        (usedHits m hits (numLocal + numExternal),
          usedExternal m (numLocal + numExternal) numExternal) := by
    unfold usedHits usedExternal
    split
    · rfl
    · rw [show numSkippedBlocks m (numLocal + numExternal) = 0 by omega, List.drop_zero]
  unfold SingleTypeKVCacheManager.allocateNewComputedBlocks touchHits
  rw [if_neg (by simp [hnew]), if_neg (by simp [htable])]
  unfold numSkippedBlocks at hsplit
  simp only [hsplit]
  split
  · rfl
  · split <;> rfl

/-- The hits become the first table of the request. -/
theorem firstTable_sound (h : Sound o v pool m) {hits : List BlockId} {numTotal : ℕ}
    (htable : m.table r = []) (hhits : HitList pool.numGpuBlocks hits)
    (hledger : Ledger pool' (fun b => o b + m.held b + (usedHits m hits numTotal).count b)
      (fun b => v b + m.uncached b)) :
    Sound o v pool' (withFirstTable m r hits numTotal) where
  ledger := by
    unfold withFirstTable
    refine hledger.congr (fun b hb => ?_) fun b _ => ?_
    · have hset := held_setTable (m := m) (r := r) (l := firstTable m hits numTotal) b
      rw [firstTable, List.count_append, List.count_replicate, if_neg (by simpa using hb.symm),
        htable, List.count_nil] at hset
      rw [held_setNumCachedBlock, firstTable]
      omega
    · have hset := uncached_setTable (m := m) (r := r) (l := firstTable m hits numTotal) b
      have hnum := uncached_setNumCachedBlock (m := m.setTable r (firstTable m hits numTotal))
        (r := r) (firstTable m hits numTotal).length b
      rw [table_setTable, if_pos rfl, List.drop_length, List.count_nil, numCached_setTable] at hnum
      rw [htable, List.drop_nil, List.count_nil] at hset
      omega
  one := by
    intro r' b hb
    rw [withFirstTable, table_setNumCachedBlock, table_setTable]
    split
    · rw [firstTable, List.count_append, List.count_replicate, if_neg (by simpa using hb.symm),
        Nat.zero_add]
      exact (hhits.drop _).one b hb
    · exact h.one r' b hb
  others_le := h.others_le

/-- A request without blocks is admitted: its hits leave the queue, and then the blocks for
external tokens do. -/
theorem allocateFirst (h : Sound o v pool m) {hits : List BlockId} {numLocal numExternal : ℕ}
    {P : Prop} (hnew : m.numCachedBlock.contains r = false) (htable : m.table r = [])
    (hhits : HitList pool.numGpuBlocks hits)
    (hcaching : pool.enableCaching = true ∨ usedHits m hits (numLocal + numExternal) = [])
    (hP : P → 0 < usedExternal m (numLocal + numExternal) numExternal →
      0 ≤ externalBlocks m hits (numLocal + numExternal)) :
    Ensures (fun e => e.Ordinary ∧ (pool.freeBlockQueue.filter
          (· ∉ usedHits m hits (numLocal + numExternal))).length <
        numExternalBlocks m hits (numLocal + numExternal) numExternal)
      (fun result => Kept o v P r pool m result ∧ result.2.numCachedBlock.contains r = true ∧
        ∃ blocks, result.2.table r = firstTable m hits (numLocal + numExternal) ++ blocks ∧
          blocks.length = numExternalBlocks m hits (numLocal + numExternal) numExternal ∧
          result.1.freeBlockQueue = (pool.freeBlockQueue.filter
            (· ∉ usedHits m hits (numLocal + numExternal))).drop blocks.length)
      (m.allocateNewComputedBlocks pool r hits numLocal numExternal) := by
  set numTotal := numLocal + numExternal with hnumTotal
  obtain ⟨touched, htouch, hsame, hledger, hqueue, hdrift⟩ : ∃ touched,
      touchHits pool (usedHits m hits numTotal) = .ok touched ∧ SameHashes pool touched ∧
      Ledger touched (fun b => o b + m.held b + (usedHits m hits numTotal).count b)
        (fun b => v b + m.uncached b) ∧
      touched.freeBlockQueue = pool.freeBlockQueue.filter (· ∉ usedHits m hits numTotal) ∧
      drift touched = drift pool := by
    unfold touchHits
    cases hon : pool.enableCaching with
    | true => exact h.ledger.touch _ (hhits.drop _).lt
    | false =>
        have hnil := hcaching.resolve_left (by simp [hon])
        refine ⟨pool, by simp [hnil], .refl pool, ?_, by simp [hnil], rfl⟩
        simpa [hnil] using h.ledger
  have hfirst := h.firstTable_sound (r := r) htable hhits hledger
  have hlack : lacking (withFirstTable m r hits numTotal) r numTotal =
      externalBlocks m hits numTotal := by
    simp [lacking, externalBlocks, withFirstTable, SingleTypeKVCacheManager.setTable,
      SingleTypeKVCacheManager.setNumCachedBlock, table]
  have hrest := hfirst.allocateExternal r numTotal (usedExternal m numTotal numExternal)
    (P := P) (by rw [hlack]; exact hP)
  rw [hlack, hqueue] at hrest
  have hsetup : Setup P pool touched := hsame.setup hdrift
  rw [allocateNewComputedBlocks_eq hnew htable]
  refine .bind_ok htouch ?_
  refine (hrest.imp_error ?_).mono ?_
  · intro e he
    refine ⟨he.1, ?_⟩
    rw [numExternalBlocks, if_pos he.2.1]
    exact he.2.2
  · intro result hresult
    obtain ⟨hkept, hnumCached, blocks, htable', hlength, hqueue'⟩ := hresult
    refine ⟨⟨hkept.sound, ?_, hsetup.trans hkept.setup⟩, ?_, blocks, ?_, hlength, hqueue'⟩
    · exact ((SameGroup.setTable _).trans (.setNumCachedBlock _)).trans hkept.group
    · rw [hnumCached]
      simp [withFirstTable, SingleTypeKVCacheManager.setNumCachedBlock, OrdDict.contains_iff]
    · simpa [withFirstTable] using htable'

theorem allocateNewComputedBlocks (h : Sound o v pool m) {hits : List BlockId} {P : Prop}
    (r : String) (numLocal numExternal : ℕ) (hhits : HitList pool.numGpuBlocks hits)
    (hP : P → m.numCachedBlock.contains r = false →
      0 < usedExternal m (numLocal + numExternal) numExternal →
        0 ≤ externalBlocks m hits (numLocal + numExternal)) :
    Ensures KVError.Ordinary (Kept o v P r pool m)
      (m.allocateNewComputedBlocks pool r hits numLocal numExternal) := by
  have hordinary : KVError.Ordinary .assertion := ⟨by decide, by decide⟩
  cases hcached : m.numCachedBlock.contains r with
  | true =>
      unfold SingleTypeKVCacheManager.allocateNewComputedBlocks
      rw [if_pos hcached]
      split
      · exact .ok ⟨h, .refl r m, .refl pool⟩
      · exact .error hordinary
  | false =>
      by_cases htable : m.table r = []
      · by_cases hcaching :
            pool.enableCaching = true ∨ usedHits m hits (numLocal + numExternal) = []
        · refine ((h.allocateFirst hcached htable hhits hcaching
          fun hp => hP hp hcached).imp_error ?_).mono ?_
          · exact fun e he => he.1
          · exact fun result hresult => hresult.1
        · rw [not_or, Bool.not_eq_true] at hcaching
          have herror : touchHits pool (usedHits m hits (numLocal + numExternal)) =
              .error .assertion := by
            simp [touchHits, hcaching]
          rw [allocateNewComputedBlocks_eq hcached htable, herror]
          exact .error hordinary
      · unfold SingleTypeKVCacheManager.allocateNewComputedBlocks
        rw [if_neg (by simp [hcached]), if_pos htable]
        exact .error hordinary

end Sound

end TokenCake.KV
