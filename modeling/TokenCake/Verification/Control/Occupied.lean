import TokenCake.Verification.KVCache.Allocation

/-! # The occupied blocks

What the calls of the cache manager do to the blocks that are in use, read off the free queue. -/

namespace TokenCake.KV

variable {η β : Type} [DecidableEq η] {pool pool' : BlockPool η}

/-- A block that is in use. -/
def Occupied (pool : BlockPool η) (b : BlockId) : Prop :=
  b ≠ nullBlock ∧ b < pool.numGpuBlocks ∧ b ∉ pool.freeBlockQueue

/-- The blocks that are in use, in ascending order. -/
def occupiedBlocks (pool : BlockPool η) : List BlockId :=
  (List.range' 1 (pool.numGpuBlocks - 1)).filter (· ∉ pool.freeBlockQueue)

omit [DecidableEq η] in
theorem mem_occupiedBlocks {b : BlockId} : b ∈ occupiedBlocks pool ↔ Occupied pool b := by
  unfold occupiedBlocks Occupied nullBlock
  rw [List.mem_filter, List.mem_range'_1, decide_eq_true_iff, ← and_assoc]
  refine and_congr_left fun _ => ?_
  have hrange : ∀ b n : ℕ, 1 ≤ b ∧ b < 1 + (n - 1) ↔ b ≠ 0 ∧ b < n := by omega
  exact hrange b pool.numGpuBlocks

/-! ## Counts -/

namespace KVCacheManager

variable {M M' : KVCacheManager η}

theorem Managed.occupied_iff (h : M.Managed) {b : BlockId} (hb : b ≠ nullBlock) :
    Occupied M.blockPool b ↔ 0 < (M.blockPool.blocks b).refCnt := by
  have hledger := h.balanced.ledger
  have href := hledger.refCnt_eq b hb
  have hmem := hledger.mem_queue b
  have hheld := hledger.held_lt b hb
  constructor
  · rintro ⟨-, hlt, hnot⟩
    rw [hmem] at hnot
    have hne : 0 + totalHeld M.singleTypeManagers b ≠ 0 := fun hzero => hnot ⟨hb, hlt, hzero⟩
    rw [href]
    omega
  · intro hpos
    rw [href] at hpos
    refine ⟨hb, hheld (by omega), fun hin => ?_⟩
    have hzero := (hmem.mp hin).2.2
    omega

/-- Every block is free or occupied. -/
theorem Managed.length_occupied (h : M.Managed) (hdrift : drift M.blockPool = 0) :
    ((occupiedBlocks M.blockPool).length : ℤ) + M.blockPool.numFreeBlocks =
      (M.blockPool.numGpuBlocks - 1 : ℕ) := by
  have hperm : ((List.range' 1 (M.blockPool.numGpuBlocks - 1)).filter
      (· ∈ M.blockPool.freeBlockQueue)).Perm M.blockPool.freeBlockQueue := by
    refine (List.perm_ext_iff_of_nodup (List.Nodup.filter _ List.nodup_range')
      h.balanced.ledger.queue_nodup).mpr fun b => ?_
    rw [List.mem_filter, decide_eq_true_iff, and_iff_right_iff_imp]
    intro hb
    obtain ⟨hnull, hlt, -⟩ := (h.balanced.ledger.mem_queue b).mp hb
    have hrange : ∀ b n : ℕ, b ≠ 0 → b < n → 1 ≤ b ∧ b < 1 + (n - 1) := by omega
    exact List.mem_range'_1.mpr (hrange b _ hnull hlt)
  have hsplit : ∀ (l : List BlockId) (p q : BlockId → Bool), (∀ b, q b = !p b) →
      l.length = (l.filter p).length + (l.filter q).length := by
    intro l p q hq
    obtain rfl : q = fun b => !p b := funext hq
    exact List.length_eq_length_filter_add p
  have hlength := hsplit (List.range' 1 (M.blockPool.numGpuBlocks - 1))
    (· ∈ M.blockPool.freeBlockQueue) (· ∉ M.blockPool.freeBlockQueue) fun b => decide_not
  rw [hperm.length_eq, List.length_range'] at hlength
  unfold occupiedBlocks
  unfold drift at hdrift
  omega

theorem totalHeld_pos_iff {ms : List SingleTypeKVCacheManager} {b : BlockId} :
    0 < totalHeld ms b ↔ ∃ m ∈ ms, ∃ r, b ∈ m.table r := by
  have hone : ∀ m : SingleTypeKVCacheManager, 0 < m.held b ↔ ∃ r, b ∈ m.table r := by
    intro m
    constructor
    · intro hpos
      obtain ⟨n, hn, hne⟩ := List.sum_pos_iff_exists_pos_nat.mp hpos
      obtain ⟨e, he, rfl⟩ := List.mem_map.mp hn
      refine ⟨e.1, ?_⟩
      have hget : m.reqToBlocks.get? e.1 = some e.2 := OrdDict.get?_eq_some_iff.mpr he
      unfold SingleTypeKVCacheManager.table
      rw [hget]
      exact List.count_pos_iff.mp hne
    · rintro ⟨r, hr⟩
      have hsum := SingleTypeKVCacheManager.sum_erase (m := m) (r := r)
        (f := fun _ l => l.count b) (List.count_nil ..)
      have hcount := List.count_pos_iff.mpr hr
      unfold SingleTypeKVCacheManager.held
      omega
  constructor
  · intro hpos
    obtain ⟨n, hn, hne⟩ := List.sum_pos_iff_exists_pos_nat.mp hpos
    obtain ⟨m, hm, rfl⟩ := List.mem_map.mp hn
    exact ⟨m, hm, (hone m).mp hne⟩
  · rintro ⟨m, hm, hr⟩
    exact ((hone m).mpr hr).trans_le (List.le_sum_of_mem (List.mem_map_of_mem hm))

/-- An occupied block lies in a table. -/
theorem Managed.occupied_iff_held (h : M.Managed) {b : BlockId} (hb : b ≠ nullBlock) :
    Occupied M.blockPool b ↔ ∃ m ∈ M.singleTypeManagers, ∃ r, b ∈ m.table r := by
  rw [h.occupied_iff hb, h.balanced.ledger.refCnt_eq b hb, ← totalHeld_pos_iff]
  omega

/-! ## Sliding again -/

theorem removeBelow_again (blocks : List BlockId) (n : ℕ) :
    SingleTypeKVCacheManager.removeBelow (SingleTypeKVCacheManager.removeBelow blocks n).2 n =
      ([], (SingleTypeKVCacheManager.removeBelow blocks n).2) := by
  cases n with
  | zero => rfl
  | succ i =>
      have hentry : ∀ next : List BlockId, next[i]? = none ∨ next[i]? = some nullBlock →
          SingleTypeKVCacheManager.removeBelow next (i + 1) = ([], next) := by
        intro next hnext
        unfold SingleTypeKVCacheManager.removeBelow
        rcases hnext with hnone | hnull
        · rw [hnone]
        · simp [hnull]
      apply hentry
      unfold SingleTypeKVCacheManager.removeBelow
      cases hget : blocks[i]? with
      | none => exact .inl hget
      | some b =>
          by_cases hb : b = nullBlock
          · simp only [hb, if_true]
            exact .inr (hb ▸ hget)
          · simp only [hb, if_false]
            have hlt := (List.getElem?_eq_some_iff.mp hget).1
            rcases (removeBelow_removed (blocks.set i nullBlock) i).entry i with hsame | hbelow
            · exact .inr (hsame.trans (List.getElem?_set_self hlt))
            · exact absurd hbelow.1 (Nat.lt_irrefl i)

omit [DecidableEq η] in
theorem freeBlocks_nil (pool : BlockPool η) : pool.freeBlocks [] = pool := by
  simp [BlockPool.freeBlocks]

/-- A group whose window has slid. -/
def HasSlid (r : String) (n : ℕ) (m : SingleTypeKVCacheManager) : Prop :=
  m.spec.getNumSkippedTokens n = 0 ∨
    SingleTypeKVCacheManager.removeBelow (m.table r)
      (min (m.spec.getNumSkippedTokens n / m.blockSize) (m.table r).length) = ([], m.table r)

omit [DecidableEq η] in
theorem removeSkippedBlocks_hasSlid (m : SingleTypeKVCacheManager) (pool : BlockPool η)
    (r : String) (n : ℕ) : HasSlid r n (m.removeSkippedBlocks pool r n).2 := by
  unfold SingleTypeKVCacheManager.removeSkippedBlocks
  by_cases hzero : m.spec.getNumSkippedTokens n = 0
  · rw [if_pos hzero]
    exact .inl hzero
  · rw [if_neg hzero]
    refine .inr ?_
    have hremoved := removeBelow_removed (m.table r)
      (min (m.spec.getNumSkippedTokens n / m.blockSize) (m.table r).length)
    dsimp only
    rw [SingleTypeKVCacheManager.table_setTable, if_pos rfl, hremoved.length_eq]
    exact removeBelow_again (m.table r) _

omit [DecidableEq η] in
theorem HasSlid.removeSkippedBlocks {r : String} {n : ℕ} {m : SingleTypeKVCacheManager}
    (h : HasSlid r n m) (pool : BlockPool η) :
    (m.removeSkippedBlocks pool r n).1 = pool := by
  unfold SingleTypeKVCacheManager.removeSkippedBlocks
  dsimp only
  by_cases hzero : m.spec.getNumSkippedTokens n = 0
  · rw [if_pos hzero]
  · rw [if_neg hzero, h.resolve_left hzero]
    exact freeBlocks_nil pool

omit [DecidableEq η] in
theorem allHaveSlid (M : KVCacheManager η) (r : String) (n : ℕ) :
    ∀ m ∈ (M.removeSkippedBlocks r n).singleTypeManagers, HasSlid r n m := by
  obtain ⟨-, hgroups⟩ := forManagers_forall₂ (Q := fun _ => True)
    (R := fun _ m => HasSlid r n m) (fun pool m _ pool' m' _ h => by
      obtain ⟨rfl, rfl⟩ := Prod.mk.inj (Except.ok.inj h)
      exact ⟨trivial, removeSkippedBlocks_hasSlid m pool r n⟩)
    (M.singleTypeManagers.map fun _ => ()) (.inl (List.length_map _).ge) trivial
    (mapManagers_eq (M := M) fun pool manager => manager.removeSkippedBlocks pool r n)
  exact forall₂_right hgroups (P := fun _ => True) (fun _ _ _ h => h) fun _ _ => trivial

omit [DecidableEq η] in
/-- Windows that have slid do not slide again. -/
theorem removeSkippedBlocks_pool (r : String) (n : ℕ)
    (h : ∀ m ∈ M.singleTypeManagers, HasSlid r n m) :
    (M.removeSkippedBlocks r n).blockPool = M.blockPool := by
  have hitems : List.Forall₂ (fun m (_ : Unit) => HasSlid r n m) M.singleTypeManagers
      (M.singleTypeManagers.map fun _ => ()) := by
    rw [List.forall₂_map_right_iff]
    exact List.forall₂_same.mpr h
  refine (forManagers_items (Q := fun pool => pool = M.blockPool) (R := fun _ _ => True)
    (fun pool m _ pool' m' hpool hm h => ?_) hitems rfl
    (mapManagers_eq (M := M) fun pool manager => manager.removeSkippedBlocks pool r n)).1
  obtain ⟨rfl, rfl⟩ := Prod.mk.inj (Except.ok.inj h)
  exact ⟨(hm.removeSkippedBlocks pool).trans hpool, trivial⟩

/-! ## Taking new blocks -/

variable {request : Request η} {args : SlotArgs} {blocks : List (List BlockId)}

theorem groupNewBlocks_queue {m m' : SingleTypeKVCacheManager} {r : String} {n : ℕ}
    {new : List BlockId} (h : m.allocateNewBlocks pool r n = .ok (pool', m', new)) :
    pool.freeBlockQueue = new ++ pool'.freeBlockQueue := by
  unfold SingleTypeKVCacheManager.allocateNewBlocks at h
  dsimp only at h
  by_cases hle : ((n ⌈/⌉ m.blockSize : ℕ) : ℤ) - ((m.table r).length : ℤ) ≤ 0
  · rw [if_pos hle] at h
    cases h
    rfl
  · rw [if_neg hle] at h
    cases hget : pool.getNewBlocks (((n ⌈/⌉ m.blockSize : ℕ) : ℤ) - ((m.table r).length : ℤ)) with
    | error e =>
        rw [hget] at h
        cases h
    | ok result =>
        rw [hget] at h
        cases h
        have hnewBlocks : pool.getNewBlocks (((n ⌈/⌉ m.blockSize : ℕ) : ℤ) -
            ((m.table r).length : ℤ)) = .ok (result.1, result.2) := hget
        obtain ⟨hnew, -, hsame⟩ := getNewBlocks_ok hnewBlocks
        rw [hnew, hsame.queue_eq]
        exact (List.take_append_drop ..).symm

/-- The new blocks come off the front of the queue. -/
theorem allocateNewBlocks_queue {r : String} {n : ℕ}
    (h : M.allocateNewBlocks r n = .ok (M', blocks)) :
    M.blockPool.freeBlockQueue = blocks.flatten ++ M'.blockPool.freeBlockQueue := by
  let step (s : BlockPool η × List SingleTypeKVCacheManager × List (List BlockId))
      (m : SingleTypeKVCacheManager) :
      Except KVError (BlockPool η × List SingleTypeKVCacheManager × List (List BlockId)) := do
    let result ← m.allocateNewBlocks s.1 r n
    return (result.1, s.2.1 ++ [result.2.1], s.2.2 ++ [result.2.2])
  have hloop : ∀ (ms : List SingleTypeKVCacheManager)
      (s t : BlockPool η × List SingleTypeKVCacheManager × List (List BlockId)),
      ms.foldlM step s = .ok t →
        s.2.2.flatten ++ s.1.freeBlockQueue = t.2.2.flatten ++ t.1.freeBlockQueue := by
    intro ms
    induction ms with
    | nil =>
        intro s t ht
        obtain rfl := Except.ok.inj ht
        rfl
    | cons m ms ih =>
        intro s t ht
        rw [List.foldlM_cons] at ht
        cases hfirst : m.allocateNewBlocks s.1 r n with
        | error e =>
            have herror : step s m = .error e := by
              simp only [step, hfirst]
              rfl
            rw [herror] at ht
            cases ht
        | ok first =>
            have hok : step s m = .ok (first.1, s.2.1 ++ [first.2.1], s.2.2 ++ [first.2.2]) := by
              simp only [step, hfirst]
              rfl
            rw [hok] at ht
            have hrest := ih (first.1, s.2.1 ++ [first.2.1], s.2.2 ++ [first.2.2]) t ht
            have hfirst' : m.allocateNewBlocks s.1 r n = .ok (first.1, first.2.1, first.2.2) :=
              hfirst
            rw [← hrest, groupNewBlocks_queue hfirst']
            simp
  cases hfold : M.singleTypeManagers.foldlM step (M.blockPool, [], []) with
  | error e =>
      change (M.singleTypeManagers.foldlM step (M.blockPool, [], []) >>= _) = _ at h
      rw [hfold] at h
      cases h
  | ok t =>
      change (M.singleTypeManagers.foldlM step (M.blockPool, [], []) >>= _) = _ at h
      rw [hfold] at h
      cases h
      exact hloop _ _ _ hfold

theorem cacheCoordinatedBlocks_queue {n : ℕ} (h : M.cacheCoordinatedBlocks request n = .ok M') :
    M'.blockPool.freeBlockQueue = M.blockPool.freeBlockQueue := by
  unfold cacheCoordinatedBlocks at h
  generalize (if M.isHybrid then (n / M.lcmBlockSize * M.lcmBlockSize, some M.lcmBlockSize)
    else (n, none)) = tokens at h
  obtain ⟨numTokens, alignment⟩ := tokens
  dsimp only at h
  cases hloop : forManagers (fun pool manager _ =>
      manager.cacheBlocks pool request numTokens alignment) M.blockPool M.singleTypeManagers
      (M.singleTypeManagers.map fun _ => ()) with
  | error e =>
      rw [hloop] at h
      cases h
  | ok result =>
      rw [hloop] at h
      cases h
      have hresult : forManagers (fun pool manager _ =>
          manager.cacheBlocks pool request numTokens alignment) M.blockPool M.singleTypeManagers
          (M.singleTypeManagers.map fun _ => ()) = .ok (result.1, result.2) := hloop
      refine (forManagers_forall₂ (Q := fun pool => pool.freeBlockQueue =
          M.blockPool.freeBlockQueue) (R := fun _ _ => True) (fun pool m _ pool' m' hpool h => ?_)
        (M.singleTypeManagers.map fun _ => ()) (.inl (List.length_map _).ge) rfl hresult).1
      exact ⟨(cacheBlocks_table h).2.queue_eq.trans hpool, trivial⟩

/-- A call without hits and external tokens takes the blocks that it returns, and no others. -/
theorem allocateSlots_queue (hnil : ∀ hits ∈ args.newComputedBlocks, hits = [])
    (hexternal : args.numExternalComputedTokens = 0)
    (h : M.allocateSlots request args = .ok (M', some blocks)) :
    (M.removeSkippedBlocks request.requestId
      (M.totalComputedTokens request args)).blockPool.freeBlockQueue =
        blocks.flatten ++ M'.blockPool.freeBlockQueue := by
  obtain ⟨M₂, hchecked, hcached⟩ := allocateSlots_some h
  have hqueue : M'.blockPool.freeBlockQueue = M₂.blockPool.freeBlockQueue := by
    rcases hcached with rfl | ⟨n, hn⟩
    · rfl
    · exact cacheCoordinatedBlocks_queue hn
  unfold allocateChecked at hchecked
  have hnone : ¬((∃ hits ∈ args.newComputedBlocks, hits ≠ []) ∨
      0 < args.numExternalComputedTokens) := by
    rintro (⟨hits, hmem, hne⟩ | hpos)
    · exact hne (hnil hits hmem)
    · omega
  rw [if_neg hnone] at hchecked
  rw [hqueue]
  exact allocateNewBlocks_queue hchecked

end KVCacheManager

end TokenCake.KV
