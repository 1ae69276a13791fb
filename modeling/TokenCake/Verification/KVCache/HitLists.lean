import TokenCake.Verification.KVCache.Agreement
import TokenCake.Verification.KVCache.MaskedSearch

/-! # The blocks of a reported hit

The hit that the manager reports for a group holds placeholders, and blocks that are cached under
the hash of their own index. The hashes of a request differ, so no block occurs twice. -/

namespace TokenCake.KV

variable {η β : Type} [DecidableEq η] {hash : η → β → η} {base : η} {pool : BlockPool η}
  {m : KVCacheManager η} {hashes : List η} {group : AttentionGroup} {scale groupId : ℕ}
  {hits : List BlockId}

open BlockPool (groupHash)

open KVCacheManager (CollisionFree groupHash_index)

/-- Every block stands at the index whose hash it is cached under. -/
def HitsCached (pool : BlockPool η) (hashes : List η) (scale groupId : ℕ) (hits : List BlockId) :
    Prop :=
  ∀ i b, hits[i]? = some b → b = nullBlock ∨ ∃ joined, groupHash hashes scale i = some joined ∧
    b ∈ cachedAt pool.cachedBlockHashToBlock (joined, groupId)

theorem HitsCached.nil : HitsCached pool hashes scale groupId [] := by
  intro i b hb
  cases hb

theorem count_le_one_of_index {l : List BlockId} {b : BlockId}
    (h : ∀ i j : ℕ, l[i]? = some b → l[j]? = some b → i = j) : l.count b ≤ 1 := by
  induction l with
  | nil => simp
  | cons a l ih =>
      have htail : l.count b ≤ 1 := ih fun i j hi hj => by
        simpa using h (i + 1) (j + 1) hi hj
      rw [List.count_cons]
      by_cases ha : a = b
      · have hnot : b ∉ l := by
          intro hmem
          obtain ⟨i, hi⟩ := List.mem_iff_getElem?.mp hmem
          simpa using h 0 (i + 1) (congrArg some ha) hi
        simp [ha, List.count_eq_zero_of_not_mem hnot]
      · simpa [ha] using htail

theorem HitsCached.hitList (h : HitsCached pool hashes scale groupId hits) (hpool : Indexed pool)
    (hfree : CollisionFree hash base) (hchained : Chained hash base hashes) (hscale : 0 < scale) :
    Sound.HitList pool.numGpuBlocks hits where
  lt b hb hnull := by
    obtain ⟨i, hi⟩ := List.mem_iff_getElem?.mp hb
    obtain ⟨joined, -, hcached⟩ := (h i b hi).resolve_left hnull
    refine (hpool.hashed b ?_).2
    rw [(hpool.mem_cachedAt _ b).mp hcached]
    exact Option.some_ne_none _
  one b hnull := by
    refine count_le_one_of_index fun i j hi hj => ?_
    obtain ⟨joined, hhash, hcached⟩ := (h i b hi).resolve_left hnull
    obtain ⟨joined', hhash', hcached'⟩ := (h j b hj).resolve_left hnull
    have hkey := ((hpool.mem_cachedAt _ b).mp hcached).symm.trans
      ((hpool.mem_cachedAt _ b).mp hcached')
    obtain ⟨rfl, -⟩ := Prod.mk.inj (Option.some.inj hkey)
    exact groupHash_index hfree hchained hchained hscale hhash hhash'

/-! ## Rows and columns -/

namespace KVCacheManager

/-- The scale of a group: how many hashes of the request one of its blocks joins. -/
def scaleOf (m : KVCacheManager η) (spec : KVCacheSpec) : ℕ :=
  spec.blockSize / m.blockPool.hashBlockSize

theorem column_cached {rows : List Row} {n j : ℕ}
    (h : RowsFrom (m.lookupRow hashes group) (List.replicate n nullBlock) rows)
    (hj : group.groupIds[j]? = some groupId) :
    HitsCached m.blockPool hashes (m.scaleOf group.spec) groupId
      (rows.map (·.getD j nullBlock)) := by
  intro i b hb
  rw [List.getElem?_map, Option.map_eq_some_iff] at hb
  obtain ⟨row, hrow, rfl⟩ := hb
  rcases h i row hrow with rfl | hfound
  · refine .inl ?_
    rw [List.getD_eq_getElem?_getD, List.getElem?_replicate]
    split <;> rfl
  · obtain ⟨joined, hhash, hmapM⟩ := Option.bind_eq_some_iff.mp hfound
    refine .inr ⟨joined, hhash, ?_⟩
    have hmap := (mapM_eq_some_iff _ _ _).mp hmapM
    have hentry := congrArg (·[j]?) hmap
    simp only [List.getElem?_map, hj, Option.map_some] at hentry
    obtain ⟨c, hc, hone⟩ := Option.map_eq_some_iff.mp hentry.symm
    rw [List.getD_eq_getElem?_getD, hc, Option.getD_some]
    rw [BlockHashToBlockMap.getOneBlock_eq] at hone
    exact List.mem_of_mem_head? hone.symm

/-- Every row of the search is the one found at its index, or stands for a skipped block. -/
def AllFrom (m : KVCacheManager η) (hashes : List η) (groups : List AttentionGroup)
    (found : List (Option (List Row))) : Prop :=
  ∀ (idx : ℕ) (group : AttentionGroup) (rows : List Row), groups[idx]? = some group →
    found[idx]? = some (some rows) →
      RowsFrom (m.lookupRow hashes group) (List.replicate group.groupIds.length nullBlock) rows

variable {groups : List AttentionGroup}

theorem searchGroup_allFrom (maxCacheHitLength : ℕ) {s : HitSearch} {idx : ℕ}
    (hgroup : groups[idx]? = some group) (hs : m.AllFrom hashes groups s.rows) :
    Ensures (fun _ => True) (fun s' => m.AllFrom hashes groups s'.rows)
      (m.searchGroup hashes maxCacheHitLength s (group, idx)) := by
  unfold searchGroup
  dsimp only
  split
  · exact .ok hs
  · refine ((findLongestCacheHit_spec ..).weaken fun rows h => h.1).bind fun rows hrows => .ok ?_
    intro i group' rows' hgroup' hrows'
    rw [List.getElem?_set] at hrows'
    split at hrows'
    · next hi =>
        subst hi
        obtain rfl := Option.some.inj (hgroup.symm.trans hgroup')
        split at hrows'
        · obtain rfl := Option.some.inj (Option.some.inj hrows')
          exact hrows
        · cases hrows'
    · exact hs i group' rows' hgroup' hrows'

theorem searchRounds_allFrom (maxCacheHitLength fuel : ℕ) {s : HitSearch}
    (hs : m.AllFrom hashes groups s.rows) :
    Ensures (fun _ => True) (fun s' => m.AllFrom hashes groups s'.rows)
      (m.searchRounds hashes maxCacheHitLength groups fuel s) := by
  have hround : ∀ (rest : List (AttentionGroup × ℕ)),
      (∀ item ∈ rest, groups[item.2]? = some item.1) → ∀ s : HitSearch,
      m.AllFrom hashes groups s.rows →
      Ensures (fun _ => True) (fun s' => m.AllFrom hashes groups s'.rows)
        (rest.foldlM (m.searchGroup hashes maxCacheHitLength) s) := by
    intro rest
    induction rest with
    | nil => exact fun _ s hs => .ok hs
    | cons item rest ih =>
        intro hitems s hs
        obtain ⟨hitem, hitems⟩ := List.forall_mem_cons.mp hitems
        rw [List.foldlM_cons]
        exact (searchGroup_allFrom maxCacheHitLength hitem hs).bind fun s' hs' => ih hitems s' hs'
  induction fuel generalizing s with
  | zero => exact .ok hs
  | succ fuel ih =>
      unfold searchRounds
      dsimp only
      refine (hround groups.zipIdx (fun item hitem => ?_) s hs).bind fun s' hs' => ?_
      · exact List.mem_zipIdx_iff_getElem?.mp hitem
      · split
        · exact .ok hs'
        · split
          · exact .ok hs'
          · exact ih hs'

/-! ## Reported hits -/

/-- A list of hits for each group: none of them holds a real block twice. -/
def HitLists (m : KVCacheManager η) (blocks : List (List BlockId)) : Prop :=
  blocks.length = m.singleTypeManagers.length ∧
    ∀ hits ∈ blocks, Sound.HitList m.blockPool.numGpuBlocks hits

/-- No two groups have a hit in common. -/
def HitsApart (blocks : List (List BlockId)) : Prop :=
  blocks.Pairwise fun hits hits' => ∀ b ∈ hits, b ≠ nullBlock → b ∉ hits'

omit [DecidableEq η] in
theorem HitsApart.nil (m : KVCacheManager η) :
    HitsApart (m.singleTypeManagers.map fun _ => []) := by
  unfold HitsApart
  rw [List.pairwise_map]
  exact List.pairwise_of_forall fun _ _ b hb => absurd hb List.not_mem_nil

omit [DecidableEq η] in
theorem HitLists.nil (m : KVCacheManager η) :
    m.HitLists (m.singleTypeManagers.map fun _ => []) := by
  refine ⟨List.length_map _, fun hits hhits => ?_⟩
  obtain ⟨_, -, rfl⟩ := List.mem_map.mp hhits
  exact .nil _

/-- What the lookups of a request need. -/
structure Lookup (hash : η → β → η) (base : η) (m : KVCacheManager η) (hashes : List η) :
    Prop where
  collisionFree : CollisionFree hash base
  chained : Chained hash base hashes
  indexed : Indexed m.blockPool
  scale_pos : ∀ spec ∈ m.specs, 0 < m.scaleOf spec
  nodup : (m.singleTypeManagers.map (·.groupId)).Nodup

/-- The hits of a group are cached under its id. -/
def GroupCached (m : KVCacheManager η) (hashes : List η) (groupId : ℕ) (hits : List BlockId) :
    Prop :=
  ∃ spec ∈ m.specs, HitsCached m.blockPool hashes (m.scaleOf spec) groupId hits

theorem Lookup.hitList (h : Lookup hash base m hashes) (hhits : m.GroupCached hashes groupId hits) :
    Sound.HitList m.blockPool.numGpuBlocks hits := by
  obtain ⟨spec, hspec, hcached⟩ := hhits
  exact hcached.hitList h.indexed h.collisionFree h.chained (h.scale_pos _ hspec)

/-- Groups with different ids have different hits. -/
theorem Lookup.apart (h : Lookup hash base m hashes) {groupId' : ℕ} {hits' : List BlockId}
    (hne : groupId ≠ groupId') (hhits : m.GroupCached hashes groupId hits)
    (hhits' : m.GroupCached hashes groupId' hits') {b : BlockId} (hb : b ∈ hits)
    (hnull : b ≠ nullBlock) : b ∉ hits' := by
  intro hb'
  obtain ⟨spec, -, hcached⟩ := hhits
  obtain ⟨spec', -, hcached'⟩ := hhits'
  obtain ⟨i, hi⟩ := List.mem_iff_getElem?.mp hb
  obtain ⟨j, hj⟩ := List.mem_iff_getElem?.mp hb'
  obtain ⟨joined, -, hmem⟩ := (hcached i b hi).resolve_left hnull
  obtain ⟨joined', -, hmem'⟩ := (hcached' j b hj).resolve_left hnull
  have hkey := ((h.indexed.mem_cachedAt _ b).mp hmem).symm.trans
    ((h.indexed.mem_cachedAt _ b).mp hmem')
  exact hne (Prod.mk.inj (Option.some.inj hkey)).2

theorem groupHits_cached {found : List (Option (List Row))}
    (hfound : m.AllFrom hashes (attentionGroups m.specs) found) (hne : m.specs ≠ []) (i : ℕ) :
    m.GroupCached hashes i (groupHits (attentionGroups m.specs) found i) := by
  rcases groupHits_column (attentionGroups m.specs) found i with
    hnil | ⟨idx, group, rows, j, hgroup, hrows, hj, heq⟩
  · obtain ⟨spec, hspec⟩ := List.exists_mem_of_ne_nil _ hne
    rw [hnil]
    exact ⟨spec, hspec, .nil⟩
  · rw [heq]
    exact ⟨group.spec, spec_mem_of_mem_attentionGroups (List.mem_of_getElem? hgroup),
      column_cached (hfound idx group rows hgroup hrows) hj⟩

theorem AllFrom.trimFirst {s : HitSearch} (hs : m.AllFrom hashes groups s.rows) :
    m.AllFrom hashes groups (trimFirst groups s) := by
  unfold KVCacheManager.trimFirst
  split
  · next first rest hhead hrows =>
      split
      · intro idx group rows hgroup hfound
        cases idx with
        | zero =>
            obtain rfl := Option.some.inj (Option.some.inj hfound)
            rw [hrows] at hs
            exact (hs 0 group first hgroup rfl).take _
        | succ idx =>
            rw [hrows] at hs
            exact hs (idx + 1) group rows hgroup hfound
      · exact hs
  · exact hs

theorem Lookup.lists (h : Lookup hash base m hashes) {hitsOf : ℕ → List BlockId}
    (hhits : ∀ manager ∈ m.singleTypeManagers,
      m.GroupCached hashes manager.groupId (hitsOf manager.groupId)) :
    m.HitLists (m.singleTypeManagers.map fun manager => hitsOf manager.groupId) ∧
      HitsApart (m.singleTypeManagers.map fun manager => hitsOf manager.groupId) := by
  refine ⟨⟨List.length_map _, fun hits hmem => ?_⟩, ?_⟩
  · obtain ⟨manager, hmanager, rfl⟩ := List.mem_map.mp hmem
    exact h.hitList (hhits manager hmanager)
  · unfold HitsApart
    rw [List.pairwise_map]
    refine (List.pairwise_map.mp h.nodup).imp_of_mem fun hmanager hmanager' hne b hb hnull => ?_
    exact h.apart hne (hhits _ hmanager) (hhits _ hmanager') hb hnull

/-- The lists of hits that a manager reports. -/
theorem Lookup.getComputedBlocks {request : Request η}
    (h : Lookup hash base m request.blockHashes) :
    Ensures (fun _ => True) (fun result => m.HitLists result.1 ∧ HitsApart result.1)
      (m.getComputedBlocks request) := by
  unfold KVCacheManager.getComputedBlocks
  split
  · exact .ok ⟨.nil m, .nil m⟩
  · split
    · next manager hmanagers =>
        unfold findLongestUnitaryHit
        refine ((findLongestCacheHit_spec ..).weaken fun rows h => h.1).bind fun rows hrows => .ok ?_
        have hcached : m.GroupCached request.blockHashes 0 (rows.map (·.getD 0 nullBlock)) :=
          ⟨manager.spec, by simp [specs, hmanagers], column_cached hrows rfl⟩
        refine ⟨⟨by rw [hmanagers]; rfl, fun hits hhits => ?_⟩, List.pairwise_singleton ..⟩
        obtain rfl := List.mem_singleton.mp hhits
        exact h.hitList hcached
    · unfold findLongestHybridHit
      refine (searchRounds_allFrom _ _ ?_).bind fun s hs => .ok ?_
      · intro idx group rows _ hrows
        rw [List.getElem?_map, Option.map_eq_some_iff] at hrows
        obtain ⟨_, -, hnone⟩ := hrows
        cases hnone
      · refine h.lists fun manager hmanager => groupHits_cached hs.trimFirst ?_ _
        exact List.ne_nil_of_mem (List.mem_map_of_mem hmanager)

end KVCacheManager

end TokenCake.KV
