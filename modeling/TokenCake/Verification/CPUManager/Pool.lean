import Mathlib.Algebra.BigOperators.Group.Multiset.Basic
import Mathlib.Data.Multiset.Range
import TokenCake.Lib.Run
import TokenCake.Verification.CachePolicy.Contents
import TokenCake.Verification.CPUManager.Accounts

/-! # The CPU block pool

Block ids are in the policy, in the free list, or have never been used. No operation loses or
duplicates one. -/

namespace TokenCake.Offload.CPUOffloadingManager

variable {κ : Type*} [DecidableEq κ] {m m' : CPUOffloadingManager κ}

/-! ## Block ids -/

/-- The ids of the blocks in the policy. -/
def heldIds (p : CachePolicy κ) : Multiset ℕ := p.sum fun _ b => {b.blockId}

omit [DecidableEq κ] in
theorem sum_map_singleton (l : List (κ × BlockStatus)) :
    (l.map fun e => ({e.2.blockId} : Multiset ℕ)).sum = (l.map (·.2.blockId) : List ℕ) := by
  induction l with
  | nil => rfl
  | cons e l ih => rw [List.map_cons, List.sum_cons, ih, List.map_cons, Multiset.singleton_add,
      Multiset.cons_coe]

omit [DecidableEq κ] in
theorem heldIds_eq (p : CachePolicy κ) : heldIds p = (p.entries.map (·.2.blockId) : List ℕ) :=
  sum_map_singleton p.entries

/-- The ids in the policy and in the free list are those that were ever allocated. -/
structure Pooled (m : CPUOffloadingManager κ) : Prop where
  ids : heldIds m.policy + m.freeList = Multiset.range m.numAllocatedBlocks
  allocated : m.numAllocatedBlocks ≤ m.numBlocks
  policy : m.policy.Balanced m.numBlocks

omit [DecidableEq κ] in
/-- Changes of the policy that move no block. -/
theorem Pooled.withPolicy (h : m.Pooled) {p : CachePolicy κ} (hids : heldIds p = heldIds m.policy)
    (hp : p.Balanced m.numBlocks) : { m with policy := p }.Pooled :=
  ⟨by rw [hids]; exact h.ids, h.allocated, hp⟩

theorem Pooled.modify (h : m.Pooled) (key : κ) {f : BlockStatus → BlockStatus}
    (hf : ∀ b, (f b).blockId = b.blockId) : { m with policy := m.policy.modify key f }.Pooled :=
  h.withPolicy (CachePolicy.sum_modify fun b => by rw [hf]) (h.policy.modify key f)

theorem Pooled.addRef (h : m.Pooled) (key : κ) (delta : ℤ) : (m.addRef key delta).Pooled :=
  h.modify key fun _ => rfl

theorem Pooled.touch (h : m.Pooled) (keys : List κ) : (m.touch keys).Pooled :=
  h.withPolicy (CachePolicy.sum_touch h.policy.wf keys _) (h.policy.touch keys)

theorem Pooled.lookup (h : m.Pooled) (key : κ) : (m.lookup key).2.Pooled := by
  have htracked : (m.trackLookup key).Pooled := ⟨h.ids, h.allocated, h.policy⟩
  rw [CPUOffloadingManager.lookup]
  split
  · exact htracked
  · exact htracked

omit [DecidableEq κ] in
theorem Pooled.emit (h : m.Pooled) (keys : List κ) (removed : Bool) :
    (m.emit keys removed).Pooled := by
  rw [CPUOffloadingManager.emit]
  split
  · exact h
  · exact ⟨h.ids, h.allocated, h.policy⟩

/-! ## References -/

theorem Pooled.prepareLoad {keys : List κ} {ids : List ℕ} (h : m.Pooled)
    (hload : m.prepareLoad keys = .ok (ids, m')) : m'.Pooled := by
  induction keys generalizing m ids with
  | nil =>
      obtain ⟨-, rfl⟩ := Prod.mk.inj (Except.ok.inj hload)
      exact h
  | cons key keys ih =>
      rw [CPUOffloadingManager.prepareLoad] at hload
      split at hload
      · cases hload
      · split at hload
        · cases hrest : (m.addRef key 1).prepareLoad keys with
          | error e =>
              rw [hrest] at hload
              cases hload
          | ok result =>
              rw [hrest] at hload
              obtain ⟨-, rfl⟩ := Prod.mk.inj (Except.ok.inj hload)
              exact ih (h.addRef key 1) hrest
        · cases hload

theorem Pooled.completeLoad {keys : List κ} (h : m.Pooled)
    (hload : m.completeLoad keys = .ok m') : m'.Pooled := by
  induction keys generalizing m with
  | nil => exact Except.ok.inj hload ▸ h
  | cons key keys ih =>
      rw [CPUOffloadingManager.completeLoad] at hload
      split at hload
      · cases hload
      · split at hload
        · exact ih (h.addRef key (-1)) hload
        · cases hload

theorem Pooled.addRefs (h : m.Pooled) (keys : List κ) (delta : ℤ) : (m.addRefs keys delta).Pooled := by
  induction keys generalizing m with
  | nil => exact h
  | cons key keys ih => exact ih (h.addRef key delta)

theorem Pooled.retain (h : m.Pooled) (keys : List κ) : (m.retain keys).2.Pooled := by
  rw [retain_eq]
  exact h.addRefs _ 1

theorem Pooled.release {keys : List κ} (h : m.Pooled) (hrelease : m.release keys = .ok m') :
    m'.Pooled := by
  rw [CPUOffloadingManager.release] at hrelease
  split at hrelease
  · exact Except.ok.inj hrelease ▸ h.addRefs keys.dedup (-1)
  · cases hrelease

/-! ## Completed stores -/

theorem Pooled.dropUnready (h : m.Pooled) (key : κ) : (m.dropUnready key).Pooled := by
  rw [CPUOffloadingManager.dropUnready]
  split
  · exact h
  · next block hblock =>
    split
    · exact h
    · refine ⟨?_, h.allocated, h.policy.remove key⟩
      have hsum : heldIds (m.policy.remove key) + {block.blockId} = heldIds m.policy :=
        CachePolicy.sum_remove h.policy.wf hblock _
      change heldIds (m.policy.remove key) + ((m.freeList ++ [block.blockId] : List ℕ) : Multiset ℕ)
        = Multiset.range m.numAllocatedBlocks
      rw [← h.ids, ← hsum, ← Multiset.coe_add, Multiset.coe_singleton, add_assoc, add_comm {_}]

theorem Pooled.completeStore (h : m.Pooled) (keys : List κ) (success : Bool) :
    (m.completeStore keys success).Pooled := by
  rw [CPUOffloadingManager.completeStore]
  split
  · have hfold : ∀ (taken : List κ) (m₁ : CPUOffloadingManager κ), m₁.Pooled →
        (keys.foldl (fun s key =>
          if s.2.isKeyInFlight key then (s.1 ++ [key], s.2.markStored key) else s) (taken, m₁)).2.Pooled := by
      induction keys with
      | nil => exact fun _ _ h₁ => h₁
      | cons key keys ih =>
          intro taken m₁ h₁
          rw [List.foldl_cons]
          dsimp only
          split
          · exact ih _ _ (h₁.modify key fun _ => rfl)
          · exact ih _ _ h₁
    exact (hfold [] m h).emit _ _
  · induction keys generalizing m with
    | nil => exact h
    | cons key keys ih => exact ih (h.dropUnready key)

omit [DecidableEq κ] in
theorem Pooled.resetCache (h : m.Pooled) : m.resetCache.Pooled := by
  refine ⟨?_, Nat.zero_le _, h.policy.clear⟩
  change m.policy.clear.sum (fun _ b => ({b.blockId} : Multiset ℕ)) + 0 = 0
  rw [CachePolicy.sum_clear, add_zero]

/-! ## Prepared stores -/

omit [DecidableEq κ] in
/-- With enough free blocks the allocation takes each of its ids from the pool. -/
theorem allocateBlocks_ok {count : ℕ} (hallocated : m.numAllocatedBlocks ≤ m.numBlocks)
    (hcount : (count : ℤ) ≤ m.getNumFreeBlocks) :
    ∃ blocks m', m.allocateBlocks count = .ok (blocks, m') ∧ blocks.length = count ∧
      m'.numBlocks = m.numBlocks ∧ m'.numAllocatedBlocks ≤ m'.numBlocks ∧
      ∀ held : Multiset ℕ, held + m.freeList = Multiset.range m.numAllocatedBlocks →
        held + (blocks.map BlockStatus.blockId : List ℕ) + m'.freeList =
          Multiset.range m'.numAllocatedBlocks := by
  rw [getNumFreeBlocks] at hcount
  rw [allocateBlocks]
  dsimp only
  generalize hfresh : min count (m.numBlocks - m.numAllocatedBlocks) = fresh
  rw [if_pos (by omega)]
  refine ⟨_, _, rfl, ?_, rfl, ?_, ?_⟩
  · simp only [List.length_append, List.length_map, List.length_range, List.length_take,
      List.length_reverse]
    omega
  · dsimp only
    omega
  · intro held hheld
    dsimp only
    have hids : (((List.range fresh).map fun i => BlockStatus.ofId (m.numAllocatedBlocks + i)) ++
        (m.freeList.reverse.take (count - fresh)).map BlockStatus.ofId).map BlockStatus.blockId =
        ((List.range fresh).map fun i => m.numAllocatedBlocks + i) ++
          m.freeList.reverse.take (count - fresh) := by
      simp [Function.comp_def, BlockStatus.ofId]
    have hfree : (m.freeList : Multiset ℕ) = (m.freeList.reverse.take (count - fresh) : List ℕ) +
        ((m.freeList.reverse.drop (count - fresh)).reverse : List ℕ) := by
      rw [Multiset.coe_reverse, Multiset.coe_add, List.take_append_drop, Multiset.coe_reverse]
    have hrange : Multiset.range (m.numAllocatedBlocks + fresh) =
        Multiset.range m.numAllocatedBlocks +
          (((List.range fresh).map fun i => m.numAllocatedBlocks + i : List ℕ) : Multiset ℕ) := by
      rw [← Multiset.coe_range, List.range_add, ← Multiset.coe_add, Multiset.coe_range]
    rw [hids, hrange, ← hheld, ← Multiset.coe_add, hfree]
    ac_rfl

omit [DecidableEq κ] in
theorem foldl_freeBlock (evicted : List (κ × BlockStatus)) (m : CPUOffloadingManager κ) :
    evicted.foldl (fun m e => m.freeBlock e.2) m =
      { m with freeList := m.freeList ++ evicted.map (·.2.blockId) } := by
  induction evicted generalizing m with
  | nil => simp
  | cons e rest ih =>
      rw [List.foldl_cons, ih]
      simp [freeBlock]

/-- The room made for a store: the victims move to the free list. -/
theorem Pooled.makeRoom (h : m.Pooled) {keys toEvict : List κ} {count : ℕ}
    (hroom : m.makeRoom keys count = (some toEvict, m')) :
    m'.Pooled ∧ m'.numBlocks = m.numBlocks ∧ (count : ℤ) ≤ m'.getNumFreeBlocks ∧
      ∀ k ∈ toEvict, k ∉ keys := by
  obtain ⟨hpos, rfl, rfl⟩ | ⟨evicted, p, hpos, hevict, rfl, rfl⟩ := makeRoom_some hroom
  · exact ⟨h, rfl, by omega, fun k hk => absurd hk List.not_mem_nil⟩
  · obtain ⟨-, hlength, -, hall, -⟩ := CachePolicy.evict_spec h.policy.wf hevict
    rw [foldl_freeBlock]
    refine ⟨⟨?_, h.allocated, h.policy.evict hevict⟩, rfl, ?_, ?_⟩
    · have hsum : heldIds p + (evicted.map fun e => ({e.2.blockId} : Multiset ℕ)).sum =
          heldIds m.policy := CachePolicy.sum_evict hevict _
      rw [sum_map_singleton] at hsum
      dsimp only
      rw [← h.ids, ← hsum, ← Multiset.coe_add]
      ac_rfl
    · simp only [getNumFreeBlocks, List.length_append, List.length_map, hlength] at hpos ⊢
      omega
    · intro k hk
      obtain ⟨e, he, rfl⟩ := List.mem_map.mp hk
      exact (hall e he).2.2

/-- New blocks under distinct absent keys. -/
theorem foldl_insert_pooled (pairs : List (κ × BlockStatus)) {p : CachePolicy κ} {numBlocks : ℕ}
    (hp : p.Balanced numBlocks) (hnodup : (pairs.map Prod.fst).Nodup)
    (habsent : ∀ e ∈ pairs, p.get e.1 = none) :
    (pairs.foldl (fun p e => p.insert e.1 e.2) p).Balanced numBlocks ∧
      heldIds (pairs.foldl (fun p e => p.insert e.1 e.2) p) =
        heldIds p + (pairs.map (·.2.blockId) : List ℕ) ∧
      (∀ k, k ∉ pairs.map Prod.fst →
        (pairs.foldl (fun p e => p.insert e.1 e.2) p).get k = p.get k) ∧
      ∀ e ∈ pairs, (pairs.foldl (fun p e => p.insert e.1 e.2) p).get e.1 = some e.2 := by
  induction pairs generalizing p with
  | nil => exact ⟨hp, by simp, fun _ _ => rfl, fun e he => absurd he List.not_mem_nil⟩
  | cons e rest ih =>
      rw [List.map_cons, List.nodup_cons] at hnodup
      have hhead := habsent e (List.mem_cons_self ..)
      have hrest : ∀ e' ∈ rest, (p.insert e.1 e.2).get e'.1 = none := by
        intro e' he'
        have hne : e'.1 ≠ e.1 := fun heq => hnodup.1 (heq ▸ List.mem_map_of_mem he')
        rw [CachePolicy.get_insert, if_neg hne]
        exact habsent e' (List.mem_cons_of_mem _ he')
      obtain ⟨hbalanced, hids, hother, hbound⟩ := ih (hp.insert hhead e.2) hnodup.2 hrest
      refine ⟨hbalanced, ?_, ?_, ?_⟩
      · have hinsert : heldIds (p.insert e.1 e.2) = heldIds p + {e.2.blockId} :=
          CachePolicy.sum_insert hhead e.2 _
        rw [List.foldl_cons, hids, hinsert, List.map_cons, ← Multiset.cons_coe,
          ← Multiset.singleton_add, add_assoc]
      · intro k hk
        rw [List.map_cons, List.mem_cons, not_or] at hk
        rw [List.foldl_cons, hother k hk.2, CachePolicy.get_insert, if_neg hk.1]
      · intro e' he'
        rw [List.foldl_cons]
        cases List.mem_cons.mp he' with
        | inl heq =>
            subst heq
            rw [hother _ hnodup.1, CachePolicy.get_insert, if_pos rfl]
        | inr hmem => exact hbound e' hmem

/-- The store that a call prepared. -/
structure Prepared (m : CPUOffloadingManager κ) (keys : List κ) (output : PrepareStoreOutput κ)
    (m' : CPUOffloadingManager κ) : Prop where
  stored : output.keysToStore = (m.thresholdFilter keys).filter fun k => (m.policy.get k).isNone
  length : output.storeSpec.length = output.keysToStore.length
  distinct : output.storeSpec.Nodup
  bound : ∀ e ∈ output.keysToStore.zip output.storeSpec,
    m'.policy.get e.1 = some (BlockStatus.ofId e.2)
  evicted : ∀ k ∈ output.evictedKeys, k ∉ m.thresholdFilter keys ∧
    ∃ b, m.policy.get k = some b ∧ b.refCnt = 0

theorem Pooled.prepareStore (h : m.Pooled) {keys : List κ} (hkeys : keys.Nodup) :
    ∃ output m', m.prepareStore keys = .ok (output, m') ∧ m'.Pooled ∧
      ∀ out ∈ output, Prepared m keys out m' := by
  rw [CPUOffloadingManager.prepareStore]
  dsimp only
  have hfilter : (m.thresholdFilter keys).Nodup := by
    rw [thresholdFilter]
    split
    · exact hkeys
    · exact hkeys.filter _
  generalize hfiltered : m.thresholdFilter keys = filtered at *
  generalize hstored : filtered.filter (fun k => (m.policy.get k).isNone) = stored
  split
  · next hempty =>
    refine ⟨_, _, rfl, h, fun out hout => ?_⟩
    obtain rfl := Option.some.inj hout
    refine ⟨?_, rfl, List.nodup_nil, fun e he => absurd he List.not_mem_nil,
      fun k hk => absurd hk List.not_mem_nil⟩
    rw [hfiltered, hstored]
    exact (List.isEmpty_iff.mp hempty).symm
  · split
    · next m₁ hroom =>
      refine ⟨none, m₁, rfl, ?_, fun out hout => absurd hout (by simp)⟩
      rwa [makeRoom_none hroom]
    · next toEvict m₁ hroom =>
      obtain ⟨h₁, hnum₁, hfree₁, hprotected⟩ := h.makeRoom hroom
      obtain ⟨-, hevicted, hget₁⟩ := makeRoom_spec h.policy.wf hroom
      have hfree₂ : (stored.length : ℤ) ≤ (m₁.emit toEvict true).getNumFreeBlocks := by
        rw [CPUOffloadingManager.emit]
        split <;> exact hfree₁
      have h₂ := h₁.emit toEvict true
      obtain ⟨blocks, m₃, halloc, hlength, hnum₃, hallocated, hids⟩ :=
        allocateBlocks_ok h₂.allocated hfree₂
      obtain ⟨hpolicy, -⟩ := allocateBlocks_spec halloc
      have hofId : ∀ b ∈ blocks, b = BlockStatus.ofId b.blockId := by
        intro b hb
        have := (allocateBlocks_spec halloc).2 b hb
        cases b
        simp_all [BlockStatus.ofId]
      have hfst : (stored.zip blocks).map Prod.fst = stored :=
        List.map_fst_zip (by omega)
      have hsnd : (stored.zip blocks).map (·.2.blockId) = blocks.map BlockStatus.blockId :=
        List.map_map.symm.trans (congrArg _ (List.map_snd_zip (by omega)))
      have habsent : ∀ e ∈ stored.zip blocks, m₃.policy.get e.1 = none := by
        intro e he
        have hmem := (List.of_mem_zip he).1
        rw [← hstored, List.mem_filter] at hmem
        rw [hpolicy, policy_emit, hget₁, Option.isNone_iff_eq_none.mp hmem.2, ite_self]
      have hbalanced : m₃.policy.Balanced m₃.numBlocks := by
        rw [hpolicy, hnum₃]
        exact h₂.policy
      obtain ⟨hbalanced', hheld, -, hbound⟩ := foldl_insert_pooled (stored.zip blocks) hbalanced
        (by rw [hfst, ← hstored]; exact hfilter.filter _) habsent
      have hpool := hids (heldIds m₃.policy) (by rw [hpolicy]; exact h₂.ids)
      have hnodup : (blocks.map BlockStatus.blockId).Nodup := by
        refine Multiset.coe_nodup.mp (Multiset.nodup_of_le ?_ (Multiset.nodup_range m₃.numAllocatedBlocks))
        rw [← hpool]
        exact (Multiset.le_add_left _ _).trans (Multiset.le_add_right _ _)
      rw [← hsnd, ← hheld] at hpool
      refine ⟨some ⟨stored, blocks.map BlockStatus.blockId, toEvict⟩,
        { m₃ with policy := (stored.zip blocks).foldl (fun p e => p.insert e.1 e.2) m₃.policy },
        by rw [halloc]; rfl, ⟨hpool, hallocated, hbalanced'⟩, fun out hout => ?_⟩
      obtain rfl := Option.some.inj hout
      refine ⟨by rw [hfiltered, hstored], by simpa using hlength, ?_, ?_, ?_⟩
      · exact hnodup
      · intro e he
        rw [List.zip_map_right, List.mem_map] at he
        obtain ⟨⟨k, b⟩, hmem, rfl⟩ := he
        exact (hbound (k, b) hmem).trans (congrArg some (hofId b (List.of_mem_zip hmem).2))
      · intro k hk
        exact ⟨by rw [hfiltered]; exact hprotected k hk, hevicted k hk⟩

/-! ## Runs -/

theorem Pooled.next {op : ManagerOp κ} (h : m.Pooled) (hnext : Next m op m') : m'.Pooled := by
  obtain ⟨hkeys, hstep⟩ := hnext
  cases op with
  | lookup key => exact Except.ok.inj hstep ▸ h.lookup key
  | touch keys => exact Except.ok.inj hstep ▸ h.touch keys
  | prepareLoad keys =>
      cases hload : m.prepareLoad keys with
      | error e =>
          rw [step, hload] at hstep
          cases hstep
      | ok result =>
          rw [step, hload] at hstep
          exact Except.ok.inj hstep ▸ h.prepareLoad hload
  | completeLoad keys => exact h.completeLoad hstep
  | retain keys => exact Except.ok.inj hstep ▸ h.retain keys
  | release keys => exact h.release hstep
  | prepareStore keys =>
      obtain ⟨output, m₁, hstore, h₁, -⟩ := @Pooled.prepareStore _ _ _ h keys hkeys
      rw [step, hstore] at hstep
      exact Except.ok.inj hstep ▸ h₁
  | completeStore keys success => exact Except.ok.inj hstep ▸ h.completeStore keys success
  | resetCache => exact Except.ok.inj hstep ▸ h.resetCache

omit [DecidableEq κ] in
theorem pooled_new (numBlocks : ℕ) (cachePolicy : PolicyName) (enableEvents : Bool)
    (storeThreshold maxTrackerSize : ℕ) :
    (new numBlocks cachePolicy enableEvents storeThreshold maxTrackerSize :
      CPUOffloadingManager κ).Pooled := by
  cases cachePolicy with
  | lru => exact ⟨rfl, Nat.zero_le _, trivial⟩
  | arc => exact ⟨rfl, Nat.zero_le _, rfl, ARCCachePolicy.balanced_new numBlocks⟩

/-- The pool of a reachable manager. -/
structure Conserved (m : CPUOffloadingManager κ) : Prop where
  /-- The ids of the policy and of the free list enumerate those ever allocated. -/
  ids : (m.policy.entries.map (·.2.blockId) ++ m.freeList).Perm (List.range m.numAllocatedBlocks)
  allocated : m.numAllocatedBlocks ≤ m.numBlocks
  size : (m.policy.entries.length : ℤ) + m.getNumFreeBlocks = m.numBlocks
  policy : m.policy.Balanced m.numBlocks

omit [DecidableEq κ] in
theorem Pooled.conserved (h : m.Pooled) : m.Conserved := by
  have hids := h.ids
  rw [heldIds_eq, Multiset.coe_add, ← Multiset.coe_range, Multiset.coe_eq_coe] at hids
  refine ⟨hids, h.allocated, ?_, h.policy⟩
  have hlength := hids.length_eq
  simp only [List.length_append, List.length_map, List.length_range] at hlength
  rw [getNumFreeBlocks]
  omega

/-- An eviction for this call cannot hit its input: none is needed, or every input key that may
be evicted passes the threshold filter and is protected. -/
def SparesInput (m : CPUOffloadingManager κ) (keys : List κ) : Prop :=
  (((m.thresholdFilter keys).filter fun k => (m.policy.get k).isNone).length : ℤ) ≤
      m.getNumFreeBlocks ∨
    ∀ k ∈ keys, (m.policy.get k).any (fun b => decide (b.refCnt = 0)) →
      k ∈ m.thresholdFilter keys

theorem evictedKeys_of_free {keys : List κ} {out : PrepareStoreOutput κ}
    (hfree : (((m.thresholdFilter keys).filter fun k => (m.policy.get k).isNone).length : ℤ) ≤
      m.getNumFreeBlocks) (hstore : m.prepareStore keys = .ok (some out, m')) :
    out.evictedKeys = [] := by
  rw [CPUOffloadingManager.prepareStore] at hstore
  dsimp only at hstore
  split at hstore
  · obtain ⟨hout, -⟩ := Prod.mk.inj (Except.ok.inj hstore)
    rw [← Option.some.inj hout]
  · rw [CPUOffloadingManager.makeRoom, if_neg (by omega)] at hstore
    cases halloc : (m.emit [] true).allocateBlocks
        ((m.thresholdFilter keys).filter fun k => (m.policy.get k).isNone).length with
    | error e =>
        simp only [halloc] at hstore
        cases hstore
    | ok result =>
        simp only [halloc] at hstore
        obtain ⟨hout, -⟩ := Prod.mk.inj (Except.ok.inj hstore)
        rw [← Option.some.inj hout]

theorem Prepared.spares {keys : List κ} {out : PrepareStoreOutput κ}
    (h : Prepared m keys out m') (hstore : m.prepareStore keys = .ok (some out, m'))
    (hspares : m.SparesInput keys) : ∀ k ∈ keys, k ∉ out.evictedKeys := by
  intro k hk hmem
  cases hspares with
  | inl hfree =>
      rw [evictedKeys_of_free hfree hstore] at hmem
      exact absurd hmem List.not_mem_nil
  | inr hpasses =>
      obtain ⟨hfiltered, b, hb, hzero⟩ := h.evicted k hmem
      exact hfiltered (hpasses k hk (by simp [hb, hzero]))

/-- In every reachable state the pool is conserved, a store with distinct keys can be prepared
without a failing assertion, and what it returns is as it should be; it evicts no key of its
input where the threshold filter does not take the protection from one. -/
theorem cpu_block_pool_conserved {numBlocks : ℕ} {cachePolicy : PolicyName} {enableEvents : Bool}
    {storeThreshold maxTrackerSize : ℕ} {ops : List (ManagerOp κ)}
    (run : Run Next (new numBlocks cachePolicy enableEvents storeThreshold maxTrackerSize) ops m) :
    m.Conserved ∧ ∀ keys : List κ, keys.Nodup →
      ∃ output m', m.prepareStore keys = .ok (output, m') ∧ m'.Conserved ∧
        ∀ out ∈ output, Prepared m keys out m' ∧
          (m.SparesInput keys → ∀ k ∈ keys, k ∉ out.evictedKeys) := by
  have hpooled : m.Pooled := run.invariant (fun _ _ _ _ hm => hm.next)
    (pooled_new numBlocks cachePolicy enableEvents storeThreshold maxTrackerSize)
  refine ⟨hpooled.conserved, fun keys hkeys => ?_⟩
  obtain ⟨output, m', hstore, hm', hprepared⟩ := hpooled.prepareStore hkeys
  refine ⟨output, m', hstore, hm'.conserved, fun out hout => ⟨hprepared out hout, ?_⟩⟩
  have hout : output = some out := hout
  exact (hprepared out hout).spares (hout ▸ hstore)

/-- Perform a call with distinct keys. -/
def perform (m : CPUOffloadingManager κ) (op : ManagerOp κ) : Option (CPUOffloadingManager κ) :=
  if op.keys.Nodup then (m.step op).toOption else none

theorem next_of_perform {op : ManagerOp κ} (h : m.perform op = some m') : Next m op m' := by
  rw [perform] at h
  split at h
  · next hkeys =>
    cases hstep : m.step op with
    | error e =>
        rw [hstep] at h
        cases h
    | ok m₁ =>
        rw [hstep] at h
        exact ⟨hkeys, hstep.trans (congrArg Except.ok (Option.some.inj h))⟩
  · cases h

/-- Three stores in two blocks under ARC: the third one evicts a key and spares its input. -/
theorem arc_eviction_spares_input :
    ∃ m : CPUOffloadingManager ℕ, Run Next (new 2 .arc false 1 10)
        [.prepareStore [1, 2], .completeStore [1, 2] true, .touch [2]] m ∧ m.Conserved ∧
      ∃ out m', m.prepareStore [2, 3] = .ok (some out, m') ∧ out.evictedKeys = [1] ∧
        ∀ k ∈ [2, 3], k ∉ out.evictedKeys := by
  have hexecute : ([.prepareStore [1, 2], .completeStore [1, 2] true, .touch [2]].foldlM perform
      (new 2 .arc false 1 10 : CPUOffloadingManager ℕ)).any (fun m =>
        (decide (m.thresholdFilter [2, 3] = [2, 3])) &&
          (m.prepareStore [2, 3]).toOption.any fun r =>
            r.1.any fun out => decide (out.evictedKeys = [1])) = true := by decide +kernel
  rw [Option.any_eq_true] at hexecute
  obtain ⟨m, hrun, hm⟩ := hexecute
  have run := Run.of_foldlM (fun _ _ _ => next_of_perform) hrun
  obtain ⟨hconserved, hstores⟩ := cpu_block_pool_conserved run
  obtain ⟨output, m', hstore, -, hout⟩ := hstores [2, 3] (by decide)
  rw [hstore, Bool.and_eq_true] at hm
  obtain ⟨hfilter, hany⟩ := hm
  obtain ⟨out, rfl, hevicted⟩ : ∃ out, output = some out ∧ out.evictedKeys = [1] := by
    simpa [Except.toOption, Option.any_eq_true] using hany
  refine ⟨m, run, hconserved, out, m', hstore, hevicted, (hout out rfl).2 (.inr ?_)⟩
  rw [of_decide_eq_true hfilter]
  exact fun k hk _ => hk

/-- A stored key that the lookup tracker has forgotten is evicted by a store that names it. -/
theorem forgotten_input_is_evicted :
    ∃ m : CPUOffloadingManager ℕ, Run Next (new 1 .lru false 2 1)
        [.lookup 0, .lookup 0, .prepareStore [0], .completeStore [0] true, .lookup 1, .lookup 1] m ∧
      ([0, 1] : List ℕ).Nodup ∧
      ∃ out m', m.prepareStore [0, 1] = .ok (some out, m') ∧ 0 ∈ out.evictedKeys := by
  have hexecute : ([.lookup 0, .lookup 0, .prepareStore [0], .completeStore [0] true, .lookup 1,
      .lookup 1].foldlM perform (new 1 .lru false 2 1 : CPUOffloadingManager ℕ)).any (fun m =>
        (m.prepareStore [0, 1]).toOption.any fun r =>
          r.1.any fun out => decide (0 ∈ out.evictedKeys)) = true := by decide +kernel
  rw [Option.any_eq_true] at hexecute
  obtain ⟨m, hrun, hm⟩ := hexecute
  refine ⟨m, Run.of_foldlM (fun _ _ _ => next_of_perform) hrun, by decide, ?_⟩
  cases hstore : m.prepareStore [0, 1] with
  | error e =>
      rw [hstore] at hm
      cases hm
  | ok result =>
      obtain ⟨output, m'⟩ := result
      rw [hstore] at hm
      change output.any (fun out => decide (0 ∈ out.evictedKeys)) = true at hm
      obtain ⟨out, rfl, hevicted⟩ := (Option.any_eq_true ..).mp hm
      exact ⟨out, m', rfl, of_decide_eq_true hevicted⟩

end TokenCake.Offload.CPUOffloadingManager
