import TokenCake.Verification.KVCache.Allocation

/-! # The demand of a request

What `get_num_blocks_to_allocate` returns, as a sum over the groups. -/

namespace TokenCake.KV

variable {η : Type} {pool : BlockPool η} {m : SingleTypeKVCacheManager} {r : String}
  {hits : List BlockId} {numTokens numTokens' numComputedTokens : ℕ} {cap : Bool}

/-! ## One group -/

/-- The blocks that a number of tokens requires, with or without the admission cap. -/
def requiredBlocks (m : SingleTypeKVCacheManager) (numTokens : ℕ) (cap : Bool) : ℕ :=
  if cap then numRequired m numTokens else numTokens ⌈/⌉ m.blockSize

/-- The blocks that a group needs for a request. -/
def needed (m : SingleTypeKVCacheManager) (pool : BlockPool η) (r : String) (numTokens : ℕ)
    (hits : List BlockId) (numComputedTokens : ℕ) (cap : Bool) : ℕ :=
  if m.numCachedBlock.contains r then requiredBlocks m numTokens cap - (m.table r).length
  else
    requiredBlocks m numTokens cap -
        max (Sound.numSkippedBlocks m numComputedTokens) (hits.length + (m.table r).length) +
      SingleTypeKVCacheManager.numEvictableBlocks pool
        (hits.drop (Sound.numSkippedBlocks m numComputedTokens - (m.table r).length))

theorem getNumBlocksToAllocate_needed (h : m.numCachedBlock.contains r = true → hits = []) :
    m.getNumBlocksToAllocate pool r numTokens hits numComputedTokens cap =
      .ok (needed m pool r numTokens hits numComputedTokens cap) := by
  unfold SingleTypeKVCacheManager.getNumBlocksToAllocate needed requiredBlocks numRequired
  dsimp only
  cases hcached : m.numCachedBlock.contains r with
  | true =>
      rw [if_pos rfl, if_pos rfl, if_pos (h hcached)]
      cases cap with
      | false => rfl
      | true => cases m.maxAdmissionBlocksPerRequest <;> rfl
  | false =>
      cases cap with
      | false => rfl
      | true => cases m.maxAdmissionBlocksPerRequest <;> rfl

theorem requiredBlocks_mono (hle : numTokens ≤ numTokens') (cap : Bool) :
    requiredBlocks m numTokens cap ≤ requiredBlocks m numTokens' cap := by
  have hblocks : numTokens ⌈/⌉ m.blockSize ≤ numTokens' ⌈/⌉ m.blockSize :=
    (gc_mul_ceilDiv m.spec.blockSize_pos).monotone_l hle
  unfold requiredBlocks numRequired
  cases cap with
  | false => exact hblocks
  | true =>
      cases m.maxAdmissionBlocksPerRequest with
      | none => exact hblocks
      | some bound => exact min_le_min_right bound hblocks

theorem needed_mono (hle : numTokens ≤ numTokens') :
    needed m pool r numTokens hits numComputedTokens cap ≤
      needed m pool r numTokens' hits numComputedTokens cap := by
  have hrequired := requiredBlocks_mono (m := m) hle cap
  unfold needed
  split <;> omega

/-! ## All groups -/

namespace KVCacheManager

variable {M : KVCacheManager η} {blocks : List (List BlockId)}

/-- The blocks that all groups need together. -/
def totalNeeded (M : KVCacheManager η) (r : String) (numTokens : ℕ) (blocks : List (List BlockId))
    (numComputedTokens : ℕ) (cap : Bool) : ℕ :=
  ((M.singleTypeManagers.zip blocks).map fun item =>
    needed item.1 M.blockPool r numTokens item.2 numComputedTokens cap).sum

theorem getNumBlocksToAllocate_total (h : M.HitsForNew r blocks) :
    M.getNumBlocksToAllocate r numTokens blocks numComputedTokens cap =
      .ok (M.totalNeeded r numTokens blocks numComputedTokens cap) := by
  unfold getNumBlocksToAllocate totalNeeded
  unfold HitsForNew at h
  generalize M.singleTypeManagers.zip blocks = items at h ⊢
  have hloop : ∀ sum, items.foldlM (fun sum item =>
      (item.1.getNumBlocksToAllocate M.blockPool r numTokens item.2 numComputedTokens cap).map
        (sum + ·)) sum = (.ok (sum + (items.map fun item =>
          needed item.1 M.blockPool r numTokens item.2 numComputedTokens cap).sum) :
            Except KVError ℕ) := by
    induction items with
    | nil => exact fun sum => rfl
    | cons item items ih =>
        intro sum
        obtain ⟨hitem, hitems⟩ := List.forall_mem_cons.mp h
        rw [List.foldlM_cons, getNumBlocksToAllocate_needed hitem]
        refine (ih hitems _).trans ?_
        rw [List.map_cons, List.sum_cons, Nat.add_assoc]
  exact (hloop 0).trans (by rw [Nat.zero_add])

theorem HitsForNew.nil (M : KVCacheManager η) (r : String) :
    M.HitsForNew r (M.singleTypeManagers.map fun _ => []) := by
  intro item hitem _
  obtain ⟨-, hnil⟩ := List.of_mem_zip hitem
  obtain ⟨_, -, hnil⟩ := List.mem_map.mp hnil
  exact hnil.symm

/-- More tokens need no fewer blocks. -/
theorem totalNeeded_mono (hle : numTokens ≤ numTokens') :
    M.totalNeeded r numTokens blocks numComputedTokens cap ≤
      M.totalNeeded r numTokens' blocks numComputedTokens cap :=
  List.sum_le_sum fun _ _ => needed_mono hle

end KVCacheManager

end TokenCake.KV
