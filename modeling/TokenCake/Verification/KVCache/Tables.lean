import TokenCake.Verification.KVCache.Groups

/-! # Caching, removing and freeing the blocks of a table -/

namespace TokenCake.KV

open BlockPool (SameCounts)

variable {η : Type} [DecidableEq η] {pool pool' : BlockPool η} {o v : BlockId → ℕ}
  {m : SingleTypeKVCacheManager} {r : String} {P : Prop}

/-! ## Caching full blocks -/

section Caching

open SingleTypeKVCacheManager

/-- The blocks of a table that become cached. -/
def newFullBlocks (m : SingleTypeKVCacheManager) (r : String) (numFull : ℕ) : List BlockId :=
  ((m.table r).take numFull).drop (m.numCached r)

theorem count_newFullBlocks_add {numFull : ℕ} (hle : m.numCached r ≤ numFull) (b : BlockId) :
    (newFullBlocks m r numFull).count b + ((m.table r).drop numFull).count b =
      ((m.table r).drop (m.numCached r)).count b := by
  have hsplit : (m.table r).drop (m.numCached r) =
      newFullBlocks m r numFull ++ (m.table r).drop numFull := by
    rw [newFullBlocks, List.drop_take]
    conv_lhs => rw [← List.take_append_drop (numFull - m.numCached r) (List.drop _ _)]
    rw [List.drop_drop, Nat.add_sub_cancel' hle]
  rw [hsplit, List.count_append]

/-- Blocks that were not offered to the prefix cache have no hash. -/
theorem Sound.newFullBlocks_unhashed (h : Sound o v pool m) {numFull : ℕ} {b : BlockId}
    (hmem : b ∈ newFullBlocks m r numFull) (hb : b ≠ nullBlock) :
    b < pool.numGpuBlocks ∧ (pool.blocks b).blockHash = none := by
  have htail : b ∈ (m.table r).drop (m.numCached r) := by
    rw [newFullBlocks, List.drop_take] at hmem
    exact List.mem_of_mem_take hmem
  have hcount := List.count_pos_iff.mpr htail
  have hle := count_drop_le (m := m) r b
  have hheld := uncached_le_held (m := m) b
  exact ⟨h.ledger.held_lt b hb (by omega), h.ledger.uncached_hash b hb (by omega)⟩

omit [DecidableEq η] in
/-- The blocks of the items that the loop goes through. -/
theorem map_items {blocks : List BlockId} {mask : List Bool} {numCached : ℕ}
    (hlength : blocks.length ≤ mask.length) :
    (((blocks.zip mask).zipIdx numCached).map fun item => item.1.1) = blocks := by
  have hfst := congrArg (List.map Prod.fst) (List.zipIdx_map_fst numCached (blocks.zip mask))
  rw [List.map_map, List.map_fst_zip hlength] at hfst
  exact hfst

theorem Sound.cacheFullBlocks (h : Sound o v pool m) (hcaching : pool.enableCaching = true)
    (hashes : List η) (r : String) (numFull : ℕ) (blockMask : Option (List Bool)) :
    Ensures KVError.Ordinary
      (fun pool' => Indexed pool' ∧ SameCounts pool pool' ∧
        ∀ b, b ∉ newFullBlocks m r numFull →
          (pool'.blocks b).blockHash = (pool.blocks b).blockHash)
      (pool.cacheFullBlocks hashes (m.table r) (m.numCached r) numFull m.blockSize m.groupId
        blockMask) := by
  have hordinary : KVError.Ordinary .assertion := ⟨by decide, by decide⟩
  unfold BlockPool.cacheFullBlocks
  split
  · exact .ok ⟨h.ledger.indexed, .refl pool, fun _ _ => rfl⟩
  · dsimp only
    split
    · exact .error hordinary
    · next hlengths =>
        split
        · exact .error hordinary
        · rw [not_or, not_not] at hlengths
          have hitems := @map_items _ _ (m.numCached r) hlengths.2.ge
          refine ((h.ledger.indexed.cacheFullBlock_loop _ hcaching ?_ ?_).imp_error ?_).mono ?_
          · intro b hb
            rw [hitems]
            exact ((List.drop_sublist _ _).trans (List.take_sublist _ _)).count_le b |>.trans
              (h.one r b hb)
          · intro item hitem hb
            have hmem := List.mem_map_of_mem (f := fun item => item.1.1) hitem
            rw [hitems] at hmem
            exact h.newFullBlocks_unhashed hmem hb
          · intro e he
            rw [he]
            exact ⟨by decide, by decide⟩
          · intro pool' hpool'
            rw [hitems] at hpool'
            exact hpool'

/-- The group after its blocks below `numFull` were offered to the prefix cache. -/
theorem Sound.recached (h : Sound o v pool m) {numFull : ℕ} (hle : m.numCached r ≤ numFull)
    (hindexed : Indexed pool') (hsame : SameCounts pool pool')
    (hother : ∀ b, b ∉ newFullBlocks m r numFull →
      (pool'.blocks b).blockHash = (pool.blocks b).blockHash) :
    Sound o v pool' ((m.setTable r (m.table r)).setNumCachedBlock r numFull) := by
  have hself := h.setTable_self r
  have hcount : ∀ b, ((m.setTable r (m.table r)).setNumCachedBlock r numFull).uncached b +
      (newFullBlocks m r numFull).count b = m.uncached b := by
    intro b
    have hset := uncached_setTable (m := m) (r := r) (l := m.table r) b
    have hnum := uncached_setNumCachedBlock (m := m.setTable r (m.table r)) (r := r) numFull b
    have hadd := count_newFullBlocks_add (m := m) (r := r) hle b
    rw [table_setTable, if_pos rfl, numCached_setTable] at hnum
    omega
  refine ⟨?_, hself.one, h.others_le⟩
  have hledger : Ledger pool (fun b => o b + (m.setTable r (m.table r)).held b)
      (fun b => v b + m.uncached b) := by
    refine hself.ledger.congr (fun _ _ => rfl) fun b _ => ?_
    have := uncached_setTable (m := m) (r := r) (l := m.table r) b
    omega
  refine hledger.rehash hindexed hsame (fun b _ => ?_) fun b hb hpos => ?_
  · have := hcount b
    omega
  · -- A block counts as uncached once, so it is not among the blocks that were offered.
    have hone := hledger.uncached_one b hb
    have hcount := hcount b
    have hnot : b ∉ newFullBlocks m r numFull := by
      refine List.count_eq_zero.mp ?_
      omega
    rw [hother b hnot]
    exact hledger.uncached_hash b hb (by omega)

/-- Offering blocks to the prefix cache moves neither counts nor blocks. -/
theorem Sound.cacheBlocks (h : Sound o v pool m) (hcaching : pool.enableCaching = true)
    (request : Request η) (numTokens : ℕ) (alignment : Option ℕ) :
    Ensures KVError.Ordinary
      (fun result => Kept o v P request.requestId pool m result ∧ SameCounts pool result.1 ∧
        ∀ r, result.2.table r = m.table r)
      (m.cacheBlocks pool request numTokens alignment) := by
  unfold SingleTypeKVCacheManager.cacheBlocks
  change Ensures _ _ (if numTokens / m.blockSize ≤ m.numCached request.requestId then _ else _)
  set numFull := numTokens / m.blockSize
  split
  · exact .ok ⟨⟨h, .refl _ m, .refl pool⟩, .refl pool, fun _ => rfl⟩
  · next hlt =>
      have hrest : ∀ blockMask : Option (List Bool), Ensures KVError.Ordinary
          (fun result => Kept o v P request.requestId pool m result ∧ SameCounts pool result.1 ∧
            ∀ r, result.2.table r = m.table r)
          (pool.cacheFullBlocks request.blockHashes (m.table request.requestId)
              (m.numCached request.requestId) numFull m.blockSize m.groupId blockMask >>=
            fun pool => return (pool, (m.setTable request.requestId
              (m.table request.requestId)).setNumCachedBlock request.requestId numFull)) := by
        intro blockMask
        refine (h.cacheFullBlocks hcaching request.blockHashes request.requestId numFull
          blockMask).bind fun pool' hpool' => .ok ?_
        obtain ⟨hindexed, hsame, hother⟩ := hpool'
        exact ⟨⟨h.recached (not_le.mp hlt).le hindexed hsame hother,
          (SameGroup.setTable _).trans (.setNumCachedBlock _), hsame.setup⟩, hsame,
          fun r => by
            rw [table_setNumCachedBlock, table_setTable]
            split
            · next hr => rw [hr]
            · rfl⟩
      split
      · exact hrest none
      · split
        · exact hrest none
        · unfold KVCacheSpec.cacheBlockMask
          split
          · split
            · exact .error ⟨by decide, by decide⟩
            · dsimp only
              split
              · exact hrest none
              · exact hrest _
          · exact hrest none

end Caching

/-! ## Removing skipped blocks -/

/-- What `removeBelow` makes of a table: entries below `n` may have become null. -/
structure Removed (blocks : List BlockId) (n : ℕ) (removed blocks' : List BlockId) : Prop where
  length_eq : blocks'.length = blocks.length
  entry : ∀ i, blocks'[i]? = blocks[i]? ∨ i < n ∧ blocks'[i]? = some nullBlock
  count_eq : ∀ b, b ≠ nullBlock → blocks.count b = blocks'.count b + removed.count b
  drop_le : ∀ k b, b ≠ nullBlock → (blocks'.drop k).count b ≤ (blocks.drop k).count b
  removed_below : ∀ b ∈ removed, ∃ i, i < n ∧ blocks[i]? = some b

theorem Removed.refl (blocks : List BlockId) (n : ℕ) : Removed blocks n [] blocks :=
  ⟨rfl, fun _ => .inl rfl, fun _ _ => rfl, fun _ _ _ => le_rfl, by simp⟩

theorem Removed.mono {blocks removed blocks' : List BlockId} {n k : ℕ}
    (h : Removed blocks n removed blocks') (hle : n ≤ k) : Removed blocks k removed blocks' where
  length_eq := h.length_eq
  entry := fun i => (h.entry i).imp id fun hi => ⟨hi.1.trans_le hle, hi.2⟩
  count_eq := h.count_eq
  drop_le := h.drop_le
  removed_below := fun b hb =>
    (h.removed_below b hb).imp fun _ hi => ⟨hi.1.trans_le hle, hi.2⟩

theorem count_set_null {blocks : List BlockId} {i : ℕ} {c b : BlockId} (hi : blocks[i]? = some c)
    (hb : b ≠ nullBlock) : blocks.count b = (blocks.set i nullBlock).count b + [c].count b := by
  obtain ⟨hlt, hget⟩ := List.getElem?_eq_some_iff.mp hi
  rw [List.count_set hlt, hget, List.count_singleton]
  by_cases hc : c = b
  · have hpos : 0 < blocks.count b := List.count_pos_iff.mpr (hc ▸ hget ▸ List.getElem_mem hlt)
    simp only [hc, beq_self_eq_true, if_true, beq_eq_false_iff_ne.mpr hb.symm, Bool.false_eq_true,
      if_false]
    omega
  · simp [hc, hb.symm]

theorem removeBelow_removed (blocks : List BlockId) (n : ℕ) :
    Removed blocks n (SingleTypeKVCacheManager.removeBelow blocks n).1
      (SingleTypeKVCacheManager.removeBelow blocks n).2 := by
  induction n generalizing blocks with
  | zero => exact .refl blocks 0
  | succ i ih =>
      unfold SingleTypeKVCacheManager.removeBelow
      cases hget : blocks[i]? with
      | none => exact .refl blocks (i + 1)
      | some c =>
          by_cases hc : c = nullBlock
          · simp only [hc, if_true]
            exact .refl blocks (i + 1)
          · have hrest := ih (blocks.set i nullBlock)
            have hlt := (List.getElem?_eq_some_iff.mp hget).1
            simp only [hc, if_false]
            constructor
            case length_eq => exact hrest.length_eq.trans (List.length_set ..)
            case entry =>
              intro j
              rcases hrest.entry j with hsame | ⟨hj, hnull⟩
              · by_cases hj : j = i
                · refine .inr ⟨by omega, hsame.trans ?_⟩
                  rw [hj, List.getElem?_set_self hlt]
                · exact .inl (hsame.trans (List.getElem?_set_ne (Ne.symm hj)))
              · exact .inr ⟨by omega, hnull⟩
            case count_eq =>
              intro b hb
              rw [count_set_null hget hb, hrest.count_eq b hb]
              simp only [List.count_cons, List.count_nil]
              omega
            case drop_le =>
              intro k b hb
              refine (hrest.drop_le k b hb).trans ?_
              rw [List.drop_set]
              split
              · exact le_rfl
              · next hk =>
                  have hget' : (blocks.drop k)[i - k]? = some c := by
                    rw [List.getElem?_drop, Nat.add_sub_cancel' (by omega), hget]
                  have := count_set_null hget' hb
                  omega
            case removed_below =>
              intro b hb
              rcases List.mem_cons.mp hb with rfl | hb
              · exact ⟨i, by omega, hget⟩
              · obtain ⟨j, hj, hjb⟩ := hrest.removed_below b hb
                refine ⟨j, by omega, ?_⟩
                rwa [List.getElem?_set_ne (by omega)] at hjb

section Returning

open SingleTypeKVCacheManager

/-- Blocks leave the tables of the group and return to the pool. -/
theorem Sound.release (h : Sound o v pool m) (m' : SingleTypeKVCacheManager)
    (blocks : List BlockId)
    (hheld : ∀ b, b ≠ nullBlock → m.held b = m'.held b + blocks.count b)
    (huncached : ∀ b, b ≠ nullBlock → m'.uncached b ≤ m.uncached b)
    (hblocks : ∀ b, b ≠ nullBlock → blocks.count b ≤ 1)
    (hone : ∀ r b, b ≠ nullBlock → (m'.table r).count b ≤ 1) :
    Sound o v (pool.freeBlocks blocks) m' ∧ SameHashes pool (pool.freeBlocks blocks) ∧
      Setup P pool (pool.freeBlocks blocks) := by
  obtain ⟨hsame, hdrift, hledger⟩ := h.ledger.freeBlocks blocks
    (fun b => o b + m'.held b) (fun b => v b + m'.uncached b)
    (fun b hb => by
      have := hheld b hb
      omega) hblocks
    (fun b hb => Nat.add_le_add_left (huncached b hb) _)
    (fun b _ => Nat.add_le_add (h.others_le b) (uncached_le_held b))
  exact ⟨⟨hledger, hone, h.others_le⟩, hsame, hsame.setup hdrift⟩

/-- The removed blocks return to the pool, and nothing else happens to it. -/
theorem Sound.removeSkippedBlocks (h : Sound o v pool m) (r : String) (numTokens : ℕ) :
    Kept o v P r pool m (m.removeSkippedBlocks pool r numTokens) ∧
      (m.removeSkippedBlocks pool r numTokens).2.numCachedBlock = m.numCachedBlock ∧
      ∃ removed, Removed (m.table r) (Sound.numSkippedBlocks m numTokens) removed
          ((m.removeSkippedBlocks pool r numTokens).2.table r) ∧
        (m.removeSkippedBlocks pool r numTokens).1 = pool.freeBlocks removed ∧
        SameHashes pool (pool.freeBlocks removed) := by
  unfold SingleTypeKVCacheManager.removeSkippedBlocks
  by_cases hzero : m.spec.getNumSkippedTokens numTokens = 0
  · rw [if_pos hzero]
    have hnone : pool.freeBlocks [] = pool := by simp [BlockPool.freeBlocks]
    exact ⟨⟨h, .refl r m, .refl pool⟩, rfl, [], .refl _ _, hnone.symm, by rw [hnone]; exact .refl pool⟩
  · rw [if_neg hzero]
    set n := min (m.spec.getNumSkippedTokens numTokens / m.blockSize) (m.table r).length
    have hremoved := removeBelow_removed (m.table r) n
    obtain ⟨hsound, hsame, hsetup⟩ := h.release (P := P)
      (m.setTable r (removeBelow (m.table r) n).2) (removeBelow (m.table r) n).1
      (fun b hb => by
        have := held_setTable (m := m) (r := r) (l := (removeBelow (m.table r) n).2) b
        have := hremoved.count_eq b hb
        omega)
      (fun b hb => by
        have := uncached_setTable (m := m) (r := r) (l := (removeBelow (m.table r) n).2) b
        have := hremoved.drop_le (m.numCached r) b hb
        omega)
      (fun b hb => by
        have := hremoved.count_eq b hb
        have := h.one r b hb
        omega)
      (fun r' b hb => by
        rw [table_setTable]
        have := hremoved.count_eq b hb
        have := h.one r b hb
        split
        · omega
        · exact h.one r' b hb)
    refine ⟨⟨hsound, .setTable _, hsetup⟩, rfl, (removeBelow (m.table r) n).1, ?_, rfl, hsame⟩
    rw [table_setTable, if_pos rfl]
    exact hremoved.mono (Nat.min_le_left ..)

theorem Sound.free (h : Sound o v pool m) (r : String) :
    Kept o v P r pool m (m.free pool r) ∧ (m.free pool r).2.table r = [] ∧
      (m.free pool r).2.numCachedBlock.contains r = false := by
  have hother : ∀ r', r' ≠ r → (m.free pool r).2.table r' = m.table r' := by
    intro r' hr
    simp [SingleTypeKVCacheManager.free, table, OrdDict.get?_erase, hr]
  have hself : (m.free pool r).2.table r = [] := by
    simp [SingleTypeKVCacheManager.free, table, OrdDict.get?_erase]
  have hnumCached : ∀ r', r' ≠ r →
      (m.free pool r).2.numCachedBlock.get? r' = m.numCachedBlock.get? r' := by
    intro r' hr
    simp [SingleTypeKVCacheManager.free, OrdDict.get?_erase, hr]
  obtain ⟨hsound, -, hsetup⟩ := h.release (P := P) (m.free pool r).2
    (m.table r).reverse
    (fun b hb => by
      have := sum_erase (m := m) (r := r) (f := fun _ l => l.count b) (List.count_nil ..)
      rw [List.count_reverse]
      exact this.symm)
    (fun b hb => by
      have hsum : (m.free pool r).2.uncached b =
          (m.reqToBlocks.erase r).sum fun r l => (l.drop (m.numCached r)).count b := by
        refine OrdDict.sum_congr fun r' l hget => ?_
        have hr : r' ≠ r := by
          rintro rfl
          simp [SingleTypeKVCacheManager.free, OrdDict.get?_erase] at hget
        rw [numCached, hnumCached r' hr, numCached]
      have := sum_erase (m := m) (r := r) (f := fun r l => (l.drop (m.numCached r)).count b)
        (by simp)
      rw [hsum]
      unfold uncached
      omega)
    (fun b hb => by
      rw [List.count_reverse]
      exact h.one r b hb)
    (fun r' b hb => by
      by_cases hr : r' = r
      · rw [hr, hself]
        exact Nat.zero_le 1
      · rw [hother r' hr]
        exact h.one r' b hb)
  refine ⟨⟨hsound, ⟨rfl, rfl, hother, hnumCached⟩, hsetup⟩, hself, ?_⟩
  rw [Bool.eq_false_iff, ne_eq, OrdDict.contains_iff]
  simp [SingleTypeKVCacheManager.free, OrdDict.get?_erase]

end Returning

end TokenCake.KV
