import TokenCake.Verification.KVCache.Hybrid

/-! # Agreement of the groups on a hit

The length of a hybrid hit is the longest one that all groups have. The list of a group has this
length too, unless a second full-attention spec was found to reach further. -/

namespace TokenCake.KV.KVCacheManager

variable {η : Type} [DecidableEq η]

/-! ## What a hit is to say -/

section Purpose

variable (m : KVCacheManager η) (hashes : List η)

/-- The cached block with the hash of the request at index `i`, for the group of the manager. -/
def cachedBlock (manager : SingleTypeKVCacheManager) (i : ℕ) : Option BlockId := do
  let hash ← BlockPool.groupHash hashes (manager.blockSize / m.blockPool.hashBlockSize) i
  m.blockPool.cachedBlockHashToBlock.getOneBlock (hash, manager.groupId)

/-- Every block that the group needs for a hit of `length` tokens is cached. -/
def Cached (manager : SingleTypeKVCacheManager) (length : ℕ) : Prop :=
  ∀ i, manager.spec.neededFrom (length / manager.blockSize) ≤ i → i < length / manager.blockSize →
    (m.cachedBlock hashes manager i).isSome = true

/-- A length that is consistent for all groups. -/
def Consistent (length : ℕ) : Prop :=
  m.lcmBlockSize ∣ length ∧ ∀ manager ∈ m.singleTypeManagers, m.Cached hashes manager length

/-- The list of a group has the reported length and holds the cached blocks that it needs. -/
structure ExactHit (manager : SingleTypeKVCacheManager) (blocks : List BlockId) (length : ℕ) :
    Prop where
  length_eq : blocks.length = length / manager.blockSize
  cached : ∀ i, manager.spec.neededFrom (length / manager.blockSize) ≤ i →
    i < length / manager.blockSize →
      ∃ b, m.cachedBlock hashes manager i = some b ∧ blocks[i]? = some b

/-- Whatever the first two specs have a hit of, if they are both full attention, all groups have
a hit that is at least as long. -/
def FullHitsAgree (maxCacheHitLength : ℕ) : Prop :=
  ∀ first second rest, attentionGroups m.specs = first :: second :: rest →
    second.spec.isFullAttention = true →
      ∀ l ≤ maxCacheHitLength, m.lcmBlockSize ∣ l →
        (∀ manager ∈ m.singleTypeManagers, manager.spec = first.spec ∨
          manager.spec = second.spec → m.Cached hashes manager l) →
        ∃ l' ≤ maxCacheHitLength, l ≤ l' ∧ m.Consistent hashes l'

end Purpose

/-! ## Groups and their managers -/

section Managers

variable {m : KVCacheManager η} {hashes : List η} {manager : SingleTypeKVCacheManager}
  {group : AttentionGroup} {i : ℕ}

omit [DecidableEq η] in
theorem Hybrid.spec_eq (hm : m.Hybrid) (hmanager : manager ∈ m.singleTypeManagers) :
    m.specs[manager.groupId]? = some manager.spec := by
  obtain ⟨k, hk, rfl⟩ := List.mem_iff_getElem.mp hmanager
  have hid := congrArg (·[k]?) hm.groupIds
  simp only [List.getElem?_map, List.getElem?_eq_getElem hk, Option.map_some,
    List.getElem?_range hk, Option.some.injEq] at hid
  rw [hid, specs, List.getElem?_map, List.getElem?_eq_getElem hk, Option.map_some]

omit [DecidableEq η] in
theorem Hybrid.mem_groupIds (hm : m.Hybrid) (hmanager : manager ∈ m.singleTypeManagers)
    (hgroup : group ∈ attentionGroups m.specs) :
    manager.groupId ∈ group.groupIds ↔ manager.spec = group.spec := by
  rw [KV.mem_groupIds hgroup, hm.spec_eq hmanager, Option.some.injEq]

omit [DecidableEq η] in
theorem Hybrid.exists_manager (hm : m.Hybrid) (hgroup : group ∈ attentionGroups m.specs)
    (hi : i ∈ group.groupIds) : ∃ manager ∈ m.singleTypeManagers,
      manager.groupId = i ∧ manager.spec = group.spec := by
  have hspec := (KV.mem_groupIds hgroup).mp hi
  rw [specs, List.getElem?_map, Option.map_eq_some_iff] at hspec
  obtain ⟨manager, hmanager, hms⟩ := hspec
  have hid := congrArg (·[i]?) hm.groupIds
  have hlt := (List.getElem?_eq_some_iff.mp hmanager).1
  simp only [List.getElem?_map, hmanager, Option.map_some, List.getElem?_range hlt,
    Option.some.injEq] at hid
  exact ⟨manager, List.mem_of_getElem? hmanager, hid, hms⟩

omit [DecidableEq η] in
theorem Hybrid.exists_group (hm : m.Hybrid) (hmanager : manager ∈ m.singleTypeManagers) :
    ∃ (k : ℕ) (group : AttentionGroup), (attentionGroups m.specs)[k]? = some group ∧
      manager.spec = group.spec ∧ manager.groupId ∈ group.groupIds := by
  obtain ⟨group, hgroup, hspec, hid⟩ := exists_attentionGroup (hm.spec_eq hmanager)
  obtain ⟨k, hk⟩ := List.mem_iff_getElem?.mp hgroup
  exact ⟨k, group, hk, hspec.symm, hid⟩

theorem isSome_lookupRow (hm : m.Hybrid) (hgroup : group ∈ attentionGroups m.specs) :
    (m.lookupRow hashes group i).isSome = true ↔ ∀ manager ∈ m.singleTypeManagers,
      manager.spec = group.spec → (m.cachedBlock hashes manager i).isSome = true := by
  have hcached : ∀ manager ∈ m.singleTypeManagers, manager.spec = group.spec →
      m.cachedBlock hashes manager i =
        (BlockPool.groupHash hashes (group.spec.blockSize / m.blockPool.hashBlockSize) i).bind
          fun hash => m.blockPool.cachedBlockHashToBlock.getOneBlock (hash, manager.groupId) := by
    intro manager _ hspec
    rw [← hspec]
    rfl
  unfold lookupRow
  cases hhash : BlockPool.groupHash hashes (group.spec.blockSize / m.blockPool.hashBlockSize) i with
  | none =>
      obtain ⟨id, hid⟩ :=
        List.exists_mem_of_ne_nil _ ((attentionGroups_grouped m.specs).nonempty group hgroup)
      obtain ⟨manager, hmanager, -, hspec⟩ := hm.exists_manager hgroup hid
      constructor
      · intro h
        cases h
      · intro h
        have := h manager hmanager hspec
        rw [hcached manager hmanager hspec, hhash] at this
        cases this
  | some hash =>
      refine (isSome_mapM_iff _ group.groupIds).trans ⟨?_, ?_⟩
      · intro h manager hmanager hspec
        rw [hcached manager hmanager hspec, hhash]
        exact h _ ((hm.mem_groupIds hmanager hgroup).mpr hspec)
      · intro h id hid
        obtain ⟨manager, hmanager, rfl, hspec⟩ := hm.exists_manager hgroup hid
        have := h manager hmanager hspec
        rwa [hcached manager hmanager hspec, hhash] at this

/-- A block of a row is the cached block of its group. -/
theorem cachedBlock_of_lookupRow {row : Row} (hrow : m.lookupRow hashes group i = some row)
    (hspec : manager.spec = group.spec) (hid : manager.groupId ∈ group.groupIds) :
    m.cachedBlock hashes manager i =
      some (row.getD (group.groupIds.idxOf manager.groupId) nullBlock) := by
  obtain ⟨hash, hhash, hmapM⟩ := Option.bind_eq_some_iff.mp hrow
  have hblock : BlockPool.groupHash hashes (manager.blockSize / m.blockPool.hashBlockSize) i =
      some hash := by
    rw [← hhash, SingleTypeKVCacheManager.blockSize, hspec]
  unfold cachedBlock
  rw [hblock]
  exact getD_idxOf_of_mapM hmapM hid

theorem hitLength_iff (hm : m.Hybrid) (hgroup : group ∈ attentionGroups m.specs) {length : ℕ} :
    m.HitLength hashes group length ↔ m.lcmBlockSize ∣ length ∧
      ∀ manager ∈ m.singleTypeManagers, manager.spec = group.spec →
        m.Cached hashes manager length := by
  refine and_congr_right fun _ => ⟨?_, ?_⟩
  · intro h manager hmanager hspec j hj hlt
    rw [SingleTypeKVCacheManager.blockSize, hspec] at hj hlt
    exact (isSome_lookupRow hm hgroup).mp (h j hj hlt) manager hmanager hspec
  · intro h j hj hlt
    refine (isSome_lookupRow hm hgroup).mpr fun manager hmanager hspec => ?_
    exact h manager hmanager hspec j
      (by rwa [SingleTypeKVCacheManager.blockSize, hspec])
      (by rwa [SingleTypeKVCacheManager.blockSize, hspec])

/-- A length is consistent once all attention groups have a hit of it. -/
theorem consistent_iff (hm : m.Hybrid) {length : ℕ} : m.Consistent hashes length ↔
    ∀ group ∈ attentionGroups m.specs, m.HitLength hashes group length := by
  constructor
  · intro h group hgroup
    exact (hitLength_iff hm hgroup).mpr ⟨h.1, fun manager hmanager _ => h.2 manager hmanager⟩
  · intro h
    have hlength : 0 < (attentionGroups m.specs).length := by have := hm.several; omega
    obtain ⟨group, hgroup⟩ := List.exists_mem_of_length_pos hlength
    refine ⟨(h group hgroup).1, fun manager hmanager => ?_⟩
    obtain ⟨k, group', hgroup', hspec, -⟩ := hm.exists_group hmanager
    have hmem := List.mem_of_getElem? hgroup'
    exact ((hitLength_iff hm hmem).mp (h group' hmem)).2 manager hmanager hspec

end Managers

/-! ## The result of the search -/

section Result

variable {m : KVCacheManager η} {hashes : List η} {maxCacheHitLength bound : ℕ} {s s' : HitSearch}
  {group : AttentionGroup} {rows : List Row} {manager : SingleTypeKVCacheManager}

/-- The final cut, of the first attention group only. -/
def trimFirst (groups : List AttentionGroup) (s : HitSearch) : List (Option (List Row)) :=
  match groups.head?, s.rows with
  | some group, some first :: rest =>
      if group.spec.isFullAttention then
        some (first.take (s.currHitLength / group.spec.blockSize)) :: rest
      else s.rows
  | _, _ => s.rows

/-- What `find_longest_cache_hit` returns for the outcome of the search. -/
def hitResult (m : KVCacheManager η) (s : HitSearch) : List (List BlockId) × ℕ :=
  (m.singleTypeManagers.map fun manager =>
    groupHits (attentionGroups m.specs) (trimFirst (attentionGroups m.specs) s) manager.groupId,
    s.currHitLength)

/-- One full-attention spec (or two) with at most one other: the search exits after a round. -/
def isSimpleHybrid (m : KVCacheManager η) : Bool :=
  decide ((attentionGroups m.specs).length = 2 ∧
    ((attentionGroups m.specs).head?.map (·.spec.isFullAttention)).getD false = true)

/-- The lookup iterated to the fixpoint, whatever the number of attention groups. -/
def findFixpointHit (m : KVCacheManager η) (hashes : List η) (maxCacheHitLength : ℕ) :
    Except KVError (List (List BlockId) × ℕ) :=
  (m.roundsWith hashes maxCacheHitLength (attentionGroups m.specs) false (maxCacheHitLength + 1)
    (startSearch (attentionGroups m.specs) maxCacheHitLength)).map m.hitResult

theorem findLongestHybridHit_eq (m : KVCacheManager η) (hashes : List η)
    (maxCacheHitLength : ℕ) : m.findLongestHybridHit hashes maxCacheHitLength =
      (m.roundsWith hashes maxCacheHitLength (attentionGroups m.specs) m.isSimpleHybrid
        (maxCacheHitLength + 1)
        (startSearch (attentionGroups m.specs) maxCacheHitLength)).map m.hitResult := by
  rw [isSimpleHybrid, ← searchRounds_eq]
  rfl

/-- Two hits of one length are the same. -/
theorem IsHit.unique {rows' : List Row} (h : m.IsHit hashes group rows)
    (h' : m.IsHit hashes group rows') (hlength : rows.length = rows'.length) : rows = rows' := by
  rw [h.rows_eq, h'.rows_eq, hlength]

theorem IsHit.take (h : m.IsHit hashes group rows) (hspec : group.spec ∈ m.specs)
    (hfull : group.spec.isFullAttention = true) {length : ℕ} (hdvd : m.lcmBlockSize ∣ length)
    (hle : length ≤ rows.length * group.spec.blockSize) :
    m.IsHit hashes group (rows.take (length / group.spec.blockSize)) ∧
      (rows.take (length / group.spec.blockSize)).length * group.spec.blockSize = length := by
  have hblocks : length / group.spec.blockSize * group.spec.blockSize = length :=
    Nat.div_mul_cancel ((dvd_lcmBlockSize hspec).trans hdvd)
  have hshort : length / group.spec.blockSize ≤ rows.length :=
    Nat.div_le_of_le_mul (by rwa [Nat.mul_comm])
  have hlength : (rows.take (length / group.spec.blockSize)).length =
      length / group.spec.blockSize := by
    rw [List.length_take, Nat.min_eq_left hshort]
  refine ⟨⟨?_, ?_⟩, by rw [hlength, hblocks]⟩
  · rw [hlength, hblocks]
    exact h.hitLength.shorten hfull hdvd hle
  · rw [hlength, neededFrom_of_full hfull]
    conv_lhs => rw [h.rows_eq, neededFrom_of_full hfull]
    exact take_hitRows hshort

/-- The lists after the final cut: those of the first group and of the windows are exact, those
of further full-attention groups lie between the length of the hit and the bound. -/
theorem Settled.trimmed (h : Settled m hashes maxCacheHitLength bound s) {k : ℕ}
    (hgroup : (attentionGroups m.specs)[k]? = some group) :
    ∃ rows, (trimFirst (attentionGroups m.specs) s)[k]? = some (some rows) ∧
      m.IsHit hashes group rows ∧
      (k = 0 ∨ group.spec.isFullAttention = false →
        rows.length * group.spec.blockSize = s.currHitLength) ∧
      (1 ≤ k → s.currHitLength ≤ rows.length * group.spec.blockSize ∧
        rows.length * group.spec.blockSize ≤ bound) ∧
      (k = 1 → group.spec.isFullAttention = true →
        rows.length * group.spec.blockSize = bound) := by
  obtain ⟨rows, hrows, hwindow⟩ := h.found k group hgroup
  obtain ⟨hhit, hle, hbound⟩ := h.searching.hits k group rows hgroup hrows
  have hspec := spec_mem_of_mem_attentionGroups (List.mem_of_getElem? hgroup)
  cases k with
  | zero =>
      have hhead : (attentionGroups m.specs).head? = some group := by
        rw [List.head?_eq_getElem?, hgroup]
      obtain ⟨others, hothers⟩ : ∃ others, s.rows = some rows :: others := by
        cases hcases : s.rows with
        | nil => simp [hcases] at hrows
        | cons first others =>
            rw [hcases] at hrows
            exact ⟨others, by rw [Option.some.inj hrows]⟩
      unfold trimFirst
      rw [hhead, hothers]
      dsimp only
      by_cases hfull : group.spec.isFullAttention = true
      · obtain ⟨htake, hlength⟩ := hhit.take hspec hfull h.searching.aligned hle
        rw [if_pos hfull]
        exact ⟨_, rfl, htake, fun _ => hlength, fun h => absurd h (by omega),
          fun h => absurd h (by omega)⟩
      · rw [if_neg hfull]
        exact ⟨rows, rfl, hhit, fun _ => hwindow (Bool.eq_false_iff.mpr hfull),
          fun h => absurd h (by omega), fun h => absurd h (by omega)⟩
  | succ k =>
      have hsame : (trimFirst (attentionGroups m.specs) s)[k + 1]? = s.rows[k + 1]? := by
        unfold trimFirst
        split
        · next heq =>
            split
            · rw [heq]
              rfl
            · rfl
        · rfl
      refine ⟨rows, hsame.trans hrows, hhit, ?_, fun hk => ⟨hle, hbound hk⟩, ?_⟩
      · rintro (h0 | hfalse)
        · exact absurd h0 (Nat.succ_ne_zero k)
        · exact hwindow hfalse
      · intro hk hfull
        obtain rfl : k = 0 := by omega
        obtain ⟨rows', hrows', hlength⟩ := h.searching.second group hgroup hfull
        obtain rfl := Option.some.inj (Option.some.inj (hrows.symm.trans hrows'))
        exact hlength

omit [DecidableEq η] in
/-- The list of a manager is the column of its attention group. -/
theorem groupHits_manager {found : List (Option (List Row))} {k : ℕ}
    (hgroup : (attentionGroups m.specs)[k]? = some group)
    (hid : manager.groupId ∈ group.groupIds) (hrows : found[k]? = some (some rows)) :
    groupHits (attentionGroups m.specs) found manager.groupId =
      rows.map (·.getD (group.groupIds.idxOf manager.groupId) nullBlock) :=
  groupHits_eq (attentionGroups_nodup m.specs)
    (fun _ hg' hid' => eq_of_mem_groupIds hg' (List.mem_of_getElem? hgroup) hid' hid)
    hgroup hrows hid

/-- The column of a hit is exact if and only if the hit has the reported length. -/
theorem IsHit.exact_iff (h : m.IsHit hashes group rows)
    (hspec : manager.spec = group.spec) (hid : manager.groupId ∈ group.groupIds)
    (hmem : group.spec ∈ m.specs) {length : ℕ} (hdvd : m.lcmBlockSize ∣ length) :
    m.ExactHit hashes manager
        (rows.map (·.getD (group.groupIds.idxOf manager.groupId) nullBlock)) length ↔
      rows.length * group.spec.blockSize = length := by
  have hpos := group.spec.blockSize_pos
  have hblocks : length / group.spec.blockSize * group.spec.blockSize = length :=
    Nat.div_mul_cancel ((dvd_lcmBlockSize hmem).trans hdvd)
  constructor
  · intro hexact
    have := hexact.length_eq
    rw [List.length_map, SingleTypeKVCacheManager.blockSize, hspec] at this
    rw [this, hblocks]
  · rintro rfl
    have hdiv : rows.length * group.spec.blockSize / manager.blockSize = rows.length := by
      rw [SingleTypeKVCacheManager.blockSize, hspec, Nat.mul_div_cancel _ hpos]
    refine ⟨by rw [List.length_map, hdiv], ?_⟩
    intro i hi hlt
    rw [hdiv, hspec] at hi
    rw [hdiv] at hlt
    have hcovers := h.hitLength.2
    rw [Nat.mul_div_cancel _ hpos] at hcovers
    obtain ⟨row, hrow⟩ := Option.isSome_iff_exists.mp (hcovers i hi hlt)
    refine ⟨_, cachedBlock_of_lookupRow hrow hspec hid, ?_⟩
    rw [List.getElem?_map, h.rows_eq, getElem?_hitRows hlt, if_neg (by omega), hrow]
    rfl

end Result

/-! ## The longest consistent hit -/

section Longest

variable {m : KVCacheManager η} {hashes : List η} {maxCacheHitLength bound : ℕ} {s s' : HitSearch}

/-- The settled length is the longest one that is consistent for all groups. -/
theorem Settled.isGreatest (hm : m.Hybrid) (h : Settled m hashes maxCacheHitLength bound s) :
    IsGreatest {l | l ≤ maxCacheHitLength ∧ m.Consistent hashes l} s.currHitLength := by
  refine ⟨⟨h.searching.le_max, (consistent_iff hm).mpr ?_⟩, ?_⟩
  · intro group hgroup
    obtain ⟨k, hk⟩ := List.mem_iff_getElem?.mp hgroup
    obtain ⟨rows, hrows, hwindow⟩ := h.found k group hk
    obtain ⟨hhit, hle, -⟩ := h.searching.hits k group rows hk hrows
    cases hfull : group.spec.isFullAttention with
    | true => exact hhit.hitLength.shorten hfull h.searching.aligned hle
    | false =>
        rw [← hwindow hfull]
        exact hhit.hitLength
  · rintro l ⟨hl, hconsistent⟩
    exact h.searching.longest l hl ((consistent_iff hm).mp hconsistent)

/-- The lists are exact as soon as no full-attention list can be longer than the hit. -/
theorem Settled.exact (h : Settled m hashes maxCacheHitLength bound s)
    (hbound : ∀ group, (attentionGroups m.specs)[1]? = some group →
      group.spec.isFullAttention = true → bound ≤ s.currHitLength)
    {k : ℕ} {group : AttentionGroup} (hgroup : (attentionGroups m.specs)[k]? = some group) :
    ∃ rows, (trimFirst (attentionGroups m.specs) s)[k]? = some (some rows) ∧
      m.IsHit hashes group rows ∧ rows.length * group.spec.blockSize = s.currHitLength := by
  obtain ⟨rows, hrows, hhit, hexact, hbetween, -⟩ := h.trimmed hgroup
  refine ⟨rows, hrows, hhit, ?_⟩
  by_cases hfirst : k = 0 ∨ group.spec.isFullAttention = false
  · exact hexact hfirst
  · have hfull : group.spec.isFullAttention = true :=
      Bool.eq_true_of_not_eq_false fun hfalse => hfirst (.inr hfalse)
    have hk : 1 ≤ k := Nat.pos_of_ne_zero fun hzero => hfirst (.inl hzero)
    obtain ⟨second, hsecond⟩ : ∃ second, (attentionGroups m.specs)[1]? = some second :=
      ⟨_, List.getElem?_eq_getElem (hk.trans_lt (List.getElem?_eq_some_iff.mp hgroup).1)⟩
    have := hbound second hsecond (isFullAttention_of_le hsecond hgroup hk hfull)
    have := hbetween hk
    omega

/-- Without a second full-attention list that is too long, the result is determined. -/
theorem Settled.result_unique (hm : m.Hybrid) (h : Settled m hashes maxCacheHitLength bound s)
    (h' : Settled m hashes maxCacheHitLength bound s')
    (hbound : ∀ group, (attentionGroups m.specs)[1]? = some group →
      group.spec.isFullAttention = true → bound ≤ s.currHitLength) :
    m.hitResult s = m.hitResult s' := by
  have hsame : s.currHitLength = s'.currHitLength :=
    (h.isGreatest hm).unique (h'.isGreatest hm)
  refine Prod.ext (List.map_congr_left fun manager hmanager => ?_) hsame
  obtain ⟨k, group, hgroup, -, hid⟩ := hm.exists_group hmanager
  obtain ⟨rows, hrows, hhit, hlength⟩ := h.exact hbound hgroup
  obtain ⟨rows', hrows', hhit', hlength'⟩ := h'.exact (hsame ▸ hbound) hgroup
  have heq : rows = rows' := by
    refine hhit.unique hhit' (Nat.eq_of_mul_eq_mul_right group.spec.blockSize_pos ?_)
    rw [hlength, hlength', hsame]
  rw [groupHits_manager hgroup hid hrows, groupHits_manager hgroup hid hrows', heq]

/-- The lists are exact if and only if the second full-attention spec reaches no further. -/
theorem Settled.exact_iff (hm : m.Hybrid) (h : Settled m hashes maxCacheHitLength bound s) :
    List.Forall₂ (fun manager blocks => m.ExactHit hashes manager blocks s.currHitLength)
        m.singleTypeManagers (m.hitResult s).1 ↔
      ∀ group, (attentionGroups m.specs)[1]? = some group →
        group.spec.isFullAttention = true → bound ≤ s.currHitLength := by
  rw [hitResult, List.forall₂_map_right_iff, List.forall₂_same]
  constructor
  · intro hexact group hgroup hfull
    have hmem := List.mem_of_getElem? hgroup
    obtain ⟨id, hid⟩ :=
      List.exists_mem_of_ne_nil _ ((attentionGroups_grouped m.specs).nonempty group hmem)
    obtain ⟨manager, hmanager, rfl, hspec⟩ := hm.exists_manager hmem hid
    obtain ⟨rows, hrows, hhit, -, -, hsecond⟩ := h.trimmed hgroup
    have hone := hexact manager hmanager
    rw [groupHits_manager hgroup hid hrows,
      hhit.exact_iff hspec hid (spec_mem_of_mem_attentionGroups hmem) h.searching.aligned] at hone
    rw [← hsecond rfl hfull, hone]
  · intro hbound manager hmanager
    obtain ⟨k, group, hgroup, hspec, hid⟩ := hm.exists_group hmanager
    obtain ⟨rows, hrows, hhit, hlength⟩ := h.exact hbound hgroup
    rw [groupHits_manager hgroup hid hrows, hhit.exact_iff hspec hid
      (spec_mem_of_mem_attentionGroups (List.mem_of_getElem? hgroup)) h.searching.aligned]
    exact hlength

/-- The condition on the cached blocks says that the bound of the search is not above the length
of the hit. -/
theorem fullHitsAgree_iff (hm : m.Hybrid) {first second : AttentionGroup}
    {rest : List AttentionGroup} (hgroups : attentionGroups m.specs = first :: second :: rest)
    (hbound : second.spec.isFullAttention = true → IsGreatest
      {l | l ≤ maxCacheHitLength ∧ m.HitLength hashes first l ∧ m.HitLength hashes second l} bound)
    {length : ℕ}
    (hlength : IsGreatest {l | l ≤ maxCacheHitLength ∧ m.Consistent hashes l} length) :
    m.FullHitsAgree hashes maxCacheHitLength ↔
      (second.spec.isFullAttention = true → bound ≤ length) := by
  have hfirst : first ∈ attentionGroups m.specs := by rw [hgroups]; simp
  have hsecond : second ∈ attentionGroups m.specs := by rw [hgroups]; simp
  constructor
  · intro hagree hfull
    obtain ⟨hle, hfirstLength, hsecondLength⟩ := (hbound hfull).1
    obtain ⟨hdvd, hcached₁⟩ := (hitLength_iff hm hfirst).mp hfirstLength
    have hcached₂ := ((hitLength_iff hm hsecond).mp hsecondLength).2
    have hboth : ∀ manager ∈ m.singleTypeManagers, manager.spec = first.spec ∨
        manager.spec = second.spec → m.Cached hashes manager bound := by
      intro manager hmanager hspec
      rcases hspec with hspec | hspec
      · exact hcached₁ manager hmanager hspec
      · exact hcached₂ manager hmanager hspec
    obtain ⟨l, hl, hge, hconsistent⟩ := hagree first second rest hgroups hfull bound hle hdvd hboth
    exact hge.trans (hlength.2 ⟨hl, hconsistent⟩)
  · intro h first' second' rest' hgroups' hfull l hl hdvd hcached
    obtain ⟨rfl, rfl, rfl⟩ : first = first' ∧ second = second' ∧ rest = rest' := by
      simpa using hgroups.symm.trans hgroups'
    refine ⟨length, hlength.1.1, ?_, hlength.1.2⟩
    refine ((hbound hfull).2 ⟨hl, ?_, ?_⟩).trans (h hfull)
    · exact (hitLength_iff hm hfirst).mpr
        ⟨hdvd, fun manager hmanager hspec => hcached manager hmanager (.inl hspec)⟩
    · exact (hitLength_iff hm hsecond).mpr
        ⟨hdvd, fun manager hmanager hspec => hcached manager hmanager (.inr hspec)⟩

/-- The lookup returns the longest consistent length, and for two attention groups what iterating
to the fixpoint would return. The lists hold a hit of this length if and only if all groups agree
on what the first two full-attention specs have. -/
theorem findLongestHybridHit_exact_iff (hm : m.Hybrid) (hashes : List η)
    (maxCacheHitLength : ℕ) :
    ∃ hits length, m.findLongestHybridHit hashes maxCacheHitLength = .ok (hits, length) ∧
      IsGreatest {l | l ≤ maxCacheHitLength ∧ m.Consistent hashes l} length ∧
      m.findFixpointHit hashes maxCacheHitLength = .ok (hits, length) ∧
      (List.Forall₂ (fun manager blocks => m.ExactHit hashes manager blocks length)
          m.singleTypeManagers hits ↔ m.FullHitsAgree hashes maxCacheHitLength) := by
  obtain ⟨first, second, rest, hgroups⟩ :
      ∃ first second rest, attentionGroups m.specs = first :: second :: rest := by
    have := hm.several
    match hcases : attentionGroups m.specs with
    | [] => simp [hcases] at this
    | [_] => simp [hcases] at this
    | first :: second :: rest => exact ⟨first, second, rest, rfl⟩
  obtain ⟨bound, hbound, hrounds⟩ := rounds_settled hashes
    maxCacheHitLength hm hgroups
  have hsimple : m.isSimpleHybrid = true → rest = [] ∧ first.spec.isFullAttention = true := by
    intro h
    rw [isSimpleHybrid, hgroups] at h
    simpa using h
  obtain ⟨s, hs, hsettled⟩ := hrounds m.isSimpleHybrid hsimple
  obtain ⟨s', hs', hsettled'⟩ := hrounds false (fun h => by cases h)
  have hgreatest := hsettled.isGreatest hm
  have hagree := fullHitsAgree_iff hm hgroups hbound hgreatest
  refine ⟨(m.hitResult s).1, s.currHitLength, ?_, hgreatest, ?_, ?_⟩
  · rw [findLongestHybridHit_eq, hs]
    rfl
  · unfold findFixpointHit
    rw [hs']
    cases hexit : m.isSimpleHybrid with
    | false =>
        rw [hexit, hs'] at hs
        obtain rfl := Except.ok.inj hs
        rfl
    | true =>
        -- With two groups nothing is left that could be shorter than what these have.
        have hall : second.spec.isFullAttention = true → bound ≤ s.currHitLength := by
          intro hfull
          obtain ⟨hle, hfirst, hsecond⟩ := (hbound hfull).1
          refine hgreatest.2 ⟨hle, (consistent_iff hm).mpr ?_⟩
          rw [hgroups, (hsimple hexit).1]
          intro group hgroup
          simp only [List.mem_cons, List.not_mem_nil, or_false] at hgroup
          rcases hgroup with rfl | rfl
          · exact hfirst
          · exact hsecond
        refine congrArg Except.ok (hsettled.result_unique hm hsettled' ?_).symm
        intro group hgroup hfull
        rw [hgroups] at hgroup
        obtain rfl := Option.some.inj hgroup
        exact hall hfull
  · rw [hsettled.exact_iff hm, hagree, hgroups]
    simp

end Longest

/-! ## A second full-attention list that is too long -/

/-- Two full-attention specs and a window of two tokens. -/
def twoFullConfig : KVCacheConfig where
  numBlocks := 16
  kvCacheGroups := [⟨.fullAttention, 1, by decide, 0⟩, ⟨.fullAttention, 1, by decide, 1⟩,
    ⟨.slidingWindow 2, 1, by decide, 0⟩]
  maxModelLen := 64
  maxNumBatchedTokens := 64
  enableCaching := true
  hashBlockSize := 1

theorem hybrid_of_twoFull {m : KVCacheManager ℕ}
    (hids : m.singleTypeManagers.map (·.groupId) = [0, 1, 2])
    (hspecs : m.specs = twoFullConfig.kvCacheGroups) (heagle : m.eagleGroupIds = []) :
    m.Hybrid := by
  have hlength : m.singleTypeManagers.length = 3 := by simpa using congrArg List.length hids
  refine ⟨?_, ?_, ?_, heagle⟩
  · rw [hids, hlength]
    rfl
  · rw [hspecs]
    decide
  · rw [hspecs]
    intro spec hspec
    simp only [twoFullConfig, List.mem_cons, List.not_mem_nil, or_false] at hspec
    rcases hspec with rfl | rfl | rfl
    · exact .inl rfl
    · exact .inl rfl
    · exact .inr ⟨2, le_rfl, rfl⟩

/-- A request of four tokens is freed. -/
def wholeRun : Except KVError (KVCacheManager ℕ) := do
  let m ← new twoFullConfig
  let request : Request ℕ := { requestId := "p", numTokens := 4, blockHashes := [1, 2, 3, 4] }
  let (m, _) ← m.allocateSlots request { numNewTokens := 4, newComputedBlocks := [[], [], []] }
  return m.free request

/-- A request of four tokens decodes one more and is freed; the blocks of another request evict
those that its window gave back. -/
def twoFullRun : Except KVError (KVCacheManager ℕ) := do
  let m ← new twoFullConfig
  let request : Request ℕ := { requestId := "p", numTokens := 4, blockHashes := [1, 2, 3, 4] }
  let (m, _) ← m.allocateSlots request { numNewTokens := 4, newComputedBlocks := [[], [], []] }
  let decoded : Request ℕ :=
    { requestId := "p", numTokens := 5, numComputedTokens := 4, blockHashes := [1, 2, 3, 4, 5] }
  let (m, _) ← m.allocateSlots decoded { numNewTokens := 1, newComputedBlocks := [[], [], []] }
  let m := m.free decoded
  let other : Request ℕ := { requestId := "q", numTokens := 1, blockHashes := [9] }
  let (m, _) ← m.allocateSlots other { numNewTokens := 1, newComputedBlocks := [[], [], []] }
  return m

/-- What a lookup finds after one of these runs. -/
theorem lookup_of_run {run : Except KVError (KVCacheManager ℕ)} {found : List (List BlockId) × ℕ}
    (hrun : run.toOption.any (fun m =>
      decide (m.singleTypeManagers.map (·.groupId) = [0, 1, 2] ∧
        m.specs = twoFullConfig.kvCacheGroups ∧ m.eagleGroupIds = [] ∧
        (m.findLongestHybridHit [1, 2, 3, 7] 3).toOption = some found)) = true) :
    ∃ m, run = .ok m ∧ m.Hybrid ∧ m.findLongestHybridHit [1, 2, 3, 7] 3 = .ok found := by
  obtain ⟨m, hm, hfacts⟩ := (Option.any_eq_true _ _).mp hrun
  obtain ⟨hids, hspecs, heagle, hfind⟩ := of_decide_eq_true hfacts
  exact ⟨m, Ensures.eq_ok_of_toOption_eq_some hm, hybrid_of_twoFull hids hspecs heagle,
    Ensures.eq_ok_of_toOption_eq_some hfind⟩

theorem wholeRun_spec : ∃ m, wholeRun = .ok m ∧ m.Hybrid ∧
    m.findLongestHybridHit [1, 2, 3, 7] 3 = .ok ([[1, 2, 3], [5, 6, 7], [0, 0, 11]], 3) :=
  lookup_of_run (by decide +kernel)

theorem twoFullRun_spec : ∃ m, twoFullRun = .ok m ∧ m.Hybrid ∧
    m.findLongestHybridHit [1, 2, 3, 7] 3 = .ok ([[], [5, 6, 7], []], 0) :=
  lookup_of_run (by decide +kernel)

/-- The hit of no tokens comes with three blocks for the second group. -/
theorem secondFullHit_not_exact : ∃ m, twoFullRun = .ok m ∧ m.Hybrid ∧
    ∃ hits length, m.findLongestHybridHit [1, 2, 3, 7] 3 = .ok (hits, length) ∧
      ¬List.Forall₂ (fun manager blocks => m.ExactHit [1, 2, 3, 7] manager blocks length)
        m.singleTypeManagers hits := by
  obtain ⟨m, hrun, hm, hfind⟩ := twoFullRun_spec
  refine ⟨m, hrun, hm, _, _, hfind, ?_⟩
  intro hexact
  obtain ⟨_, rest, -, hexact', -⟩ := List.forall₂_cons_right_iff.mp hexact
  obtain ⟨manager, _, hsecond, -, -⟩ := List.forall₂_cons_right_iff.mp hexact'
  have := hsecond.length_eq
  simp at this

/-- The length of this hit is right, though. Before the blocks are evicted, the longest hit reaches
the bound and its lists are exact. -/
theorem secondFullHit_length : (∃ m, twoFullRun = .ok m ∧
    ∃ hits length, m.findLongestHybridHit [1, 2, 3, 7] 3 = .ok (hits, length) ∧
      IsGreatest {l | l ≤ 3 ∧ m.Consistent [1, 2, 3, 7] l} length ∧
      m.findFixpointHit [1, 2, 3, 7] 3 = .ok (hits, length) ∧
      (List.Forall₂ (fun manager blocks => m.ExactHit [1, 2, 3, 7] manager blocks length)
          m.singleTypeManagers hits ↔ m.FullHitsAgree [1, 2, 3, 7] 3)) ∧
    ∃ m hits, wholeRun = .ok m ∧ m.findLongestHybridHit [1, 2, 3, 7] 3 = .ok (hits, 3) ∧
      List.Forall₂ (fun manager blocks => m.ExactHit [1, 2, 3, 7] manager blocks 3)
        m.singleTypeManagers hits := by
  constructor
  · obtain ⟨m, hrun, hm, -⟩ := twoFullRun_spec
    exact ⟨m, hrun, findLongestHybridHit_exact_iff hm [1, 2, 3, 7] 3⟩
  · obtain ⟨m, hrun, hm, hwhole⟩ := wholeRun_spec
    obtain ⟨hits, length, hfind, hgreatest, -, hexact⟩ :=
      findLongestHybridHit_exact_iff hm [1, 2, 3, 7] 3
    obtain ⟨-, rfl⟩ := Prod.mk.inj (Except.ok.inj (hwhole.symm.trans hfind))
    refine ⟨m, hits, hrun, hfind, hexact.mpr ?_⟩
    exact fun _ _ _ _ _ l hl _ _ => ⟨3, le_rfl, hl, hgreatest.1.2⟩

end TokenCake.KV.KVCacheManager
