import TokenCake.Verification.KVCache.AttentionGroups

/-! # The longest hit of several groups

The search lowers the length group by group until every group has a hit of it. Full attention is
looked up once and only loses length afterwards; a window is looked up again in every round. -/

namespace TokenCake.KV

variable {η : Type} [DecidableEq η]

omit [DecidableEq η] in
theorem dvd_lcmBlockSize {m : KVCacheManager η} {spec : KVCacheSpec} (hspec : spec ∈ m.specs) :
    spec.blockSize ∣ m.lcmBlockSize := by
  suffices h : ∀ (specs : List KVCacheSpec) (n : ℕ),
      n ∣ specs.foldl (fun n spec => Nat.lcm n spec.blockSize) n ∧
      ∀ spec ∈ specs, spec.blockSize ∣ specs.foldl (fun n spec => Nat.lcm n spec.blockSize) n from
    (h m.specs 1).2 spec hspec
  intro specs
  induction specs with
  | nil => exact fun n => ⟨dvd_rfl, fun spec h => by cases h⟩
  | cons first specs ih =>
      intro n
      obtain ⟨hn, hrest⟩ := ih (Nat.lcm n first.blockSize)
      refine ⟨(Nat.dvd_lcm_left ..).trans hn, ?_⟩
      intro spec hspec
      rcases List.mem_cons.mp hspec with rfl | hspec
      · exact (Nat.dvd_lcm_right ..).trans hn
      · exact hrest spec hspec

namespace KVCacheManager

/-- A hybrid coordinator without EAGLE groups, over full attention and sliding windows. -/
structure Hybrid (m : KVCacheManager η) : Prop where
  groupIds : m.singleTypeManagers.map (·.groupId) = List.range m.singleTypeManagers.length
  several : 1 < (attentionGroups m.specs).length
  searchable : ∀ spec ∈ m.specs, spec.Searchable
  noEagle : m.eagleGroupIds = []

omit [DecidableEq η] in
/-- What the constructor makes sure of for several groups. -/
theorem new_groups {config : KVCacheConfig} {m : KVCacheManager η} (hnew : new config = .ok m)
    (hcaching : config.enableCaching = true) (hgroups : config.kvCacheGroups.length ≠ 1) :
    m.singleTypeManagers.map (·.groupId) = List.range m.singleTypeManagers.length ∧
      m.isHybrid = true ∧
      ∀ spec ∈ m.specs, spec.blockSize % m.blockPool.hashBlockSize = 0 := by
  unfold new at hnew
  dsimp only at hnew
  split at hnew
  · next hvalid =>
      obtain rfl := Except.ok.inj hnew
      have hhybrid := (hvalid.2 hcaching).resolve_left fun hunitary => hgroups hunitary.1
      refine ⟨?_, ?_, ?_⟩
      · simp [Function.comp_def, List.range_eq_range']
      · simp [isHybrid, hcaching, hgroups]
      · simpa [specs, Function.comp_def, BlockPool.new] using hhybrid.2.2
  · cases hnew

omit [DecidableEq η] in
theorem new_hybrid {config : KVCacheConfig} {m : KVCacheManager η} (hnew : new config = .ok m)
    (hcaching : config.enableCaching = true) (hgroups : config.kvCacheGroups.length ≠ 1)
    (hsearchable : ∀ spec ∈ config.kvCacheGroups, spec.Searchable)
    (hnoEagle : config.eagleGroupIds = []) : m.Hybrid := by
  have hids := (new_groups hnew hcaching hgroups).1
  unfold new at hnew
  dsimp only at hnew
  split at hnew
  · next hvalid =>
      obtain rfl := Except.ok.inj hnew
      have hhybrid := (hvalid.2 hcaching).resolve_left fun hunitary => hgroups hunitary.1
      refine ⟨hids, ?_, ?_, hnoEagle⟩
      · simpa [specs, Function.comp_def] using hhybrid.2.1
      · simpa [specs, Function.comp_def] using hsearchable
  · cases hnew

section Hits

variable (m : KVCacheManager η) (hashes : List η)

/-- The lengths of which an attention group has a hit. -/
def HitLength (group : AttentionGroup) (length : ℕ) : Prop :=
  m.lcmBlockSize ∣ length ∧ Covers (m.lookupRow hashes group)
    (group.spec.neededFrom (length / group.spec.blockSize)) (length / group.spec.blockSize)

/-- The rows of a hit, with placeholders below the blocks that it needs. -/
structure IsHit (group : AttentionGroup) (rows : List Row) : Prop where
  hitLength : m.HitLength hashes group (rows.length * group.spec.blockSize)
  rows_eq : rows = hitRows (m.lookupRow hashes group)
    (List.replicate group.groupIds.length nullBlock) (group.spec.neededFrom rows.length) rows.length

end Hits

variable {m : KVCacheManager η} {hashes : List η} {maxCacheHitLength : ℕ}

theorem neededFrom_of_full {spec : KVCacheSpec} (h : spec.isFullAttention = true) (n : ℕ) :
    spec.neededFrom n = 0 := by
  have hkind : spec.kind = .fullAttention := of_decide_eq_true h
  simp [KVCacheSpec.neededFrom, hkind]

/-- Full attention has a hit of every shorter aligned length. -/
theorem HitLength.shorten {group : AttentionGroup} {length length' : ℕ}
    (h : m.HitLength hashes group length) (hfull : group.spec.isFullAttention = true)
    (hdvd : m.lcmBlockSize ∣ length') (hle : length' ≤ length) :
    m.HitLength hashes group length' := by
  refine ⟨hdvd, ?_⟩
  have hcovers := h.2
  rw [neededFrom_of_full hfull] at hcovers ⊢
  exact hcovers.mono le_rfl (Nat.div_le_div_right hle)

/-! ## One group -/

section SearchGroup

variable {group : AttentionGroup} {idx : ℕ} {s : HitSearch}

theorem searchGroup_trim (hfull : group.spec.isFullAttention = true)
    (hfound : (s.rows.getD idx none).isSome = true) :
    m.searchGroup hashes maxCacheHitLength s (group, idx) = .ok { s with
      currHitLength := s.currHitLength / group.spec.blockSize * group.spec.blockSize } :=
  if_pos ⟨hfull, hfound⟩

variable (hashes maxCacheHitLength) in
theorem searchGroup_find (h : m.Hybrid) (hspec : group.spec ∈ m.specs)
    (hfresh : group.spec.isFullAttention = true → (s.rows.getD idx none).isSome = false) :
    ∃ rows eagleVerified, m.searchGroup hashes maxCacheHitLength s (group, idx) =
        .ok ⟨rows.length * group.spec.blockSize, s.rows.set idx (some rows), eagleVerified⟩ ∧
      m.IsHit hashes group rows ∧
      IsGreatest {l | l ≤ s.currHitLength ∧ m.HitLength hashes group l}
        (rows.length * group.spec.blockSize) := by
  obtain ⟨n, hfind, hgreatest⟩ := findLongestCacheHit_greatest
    (m.lookupRow hashes group) (h.searchable _ hspec) group.groupIds.length
    s.currHitLength m.lcmBlockSize
  have hpos := group.spec.blockSize_pos
  generalize hrows : hitRows (m.lookupRow hashes group)
    (List.replicate group.groupIds.length nullBlock) (group.spec.neededFrom n) n = rows at hfind
  have hlength : rows.length = n := by rw [← hrows, length_hitRows]
  have hblocks : rows.length * group.spec.blockSize / group.spec.blockSize = n := by
    rw [hlength, Nat.mul_div_cancel _ hpos]
  have hhit : m.HitLength hashes group (rows.length * group.spec.blockSize) := by
    refine ⟨hlength ▸ hgreatest.1.2.1, ?_⟩
    rw [hblocks]
    exact hgreatest.1.2.2
  refine ⟨rows, if rows.length * group.spec.blockSize < s.currHitLength then []
    else s.eagleVerified, ?_, ⟨hhit, ?_⟩, ⟨hlength ▸ hgreatest.1.1, hhit⟩, ?_⟩
  · unfold searchGroup
    have hskip : ¬(group.spec.isFullAttention = true ∧ (s.rows.getD idx none).isSome = true) :=
      fun hboth => Bool.false_ne_true ((hfresh hboth.1).symm.trans hboth.2)
    have hany : (group.groupIds.any fun x => decide (x ∈ ([] : List ℕ))) = false := by simp
    dsimp only
    rw [if_neg hskip, h.noEagle, hany, Bool.false_and, if_neg Bool.false_ne_true, hfind]
    rfl
  · rw [hlength, hrows]
  · rintro l ⟨hle, hdvd, hcovers⟩
    have hl : l / group.spec.blockSize * group.spec.blockSize = l :=
      Nat.div_mul_cancel ((dvd_lcmBlockSize hspec).trans hdvd)
    have hn : l / group.spec.blockSize ≤ n :=
      hgreatest.2 ⟨by rwa [hl], by rwa [hl], hcovers⟩
    rw [← hl, hlength]
    exact Nat.mul_le_mul_right _ hn

end SearchGroup

/-! ## The rounds -/

section Rounds

/-- What holds between two groups of the search, once the first two were looked up with `bound`
as the length they left: no common length is lost, and every hit found so far is long enough. -/
structure Searching (m : KVCacheManager η) (hashes : List η) (maxCacheHitLength bound : ℕ)
    (s : HitSearch) : Prop where
  length : s.rows.length = (attentionGroups m.specs).length
  aligned : m.lcmBlockSize ∣ s.currHitLength
  le_max : s.currHitLength ≤ maxCacheHitLength
  le_bound : s.currHitLength ≤ bound
  longest : ∀ l ≤ maxCacheHitLength,
    (∀ group ∈ attentionGroups m.specs, m.HitLength hashes group l) → l ≤ s.currHitLength
  hits : ∀ (idx : ℕ) group rows, (attentionGroups m.specs)[idx]? = some group →
    s.rows[idx]? = some (some rows) → m.IsHit hashes group rows ∧
      s.currHitLength ≤ rows.length * group.spec.blockSize ∧
      (1 ≤ idx → rows.length * group.spec.blockSize ≤ bound)
  second : ∀ group, (attentionGroups m.specs)[1]? = some group →
    group.spec.isFullAttention = true →
      ∃ rows, s.rows[1]? = some (some rows) ∧ rows.length * group.spec.blockSize = bound

/-- The first `k` groups have a hit, the windows among them one of at most `hitLength` tokens. -/
def Processed (m : KVCacheManager η) (hitLength k : ℕ) (s : HitSearch) : Prop :=
  ∀ (idx : ℕ) group, idx < k → (attentionGroups m.specs)[idx]? = some group →
    ∃ rows, s.rows[idx]? = some (some rows) ∧
      (group.spec.isFullAttention = false → rows.length * group.spec.blockSize ≤ hitLength)

variable {bound hitLength k : ℕ} {s : HitSearch} {group : AttentionGroup}

theorem Searching.trim (h : Searching m hashes maxCacheHitLength bound s)
    (hspec : group.spec ∈ m.specs) :
    { s with currHitLength := s.currHitLength / group.spec.blockSize * group.spec.blockSize } = s := by
  rw [Nat.div_mul_cancel ((dvd_lcmBlockSize hspec).trans h.aligned)]

/-- A hit that is found later is as short as the length it leaves. -/
theorem Searching.find {rows : List Row} {eagleVerified : List ℕ}
    (h : Searching m hashes maxCacheHitLength bound s)
    (hgroup : (attentionGroups m.specs)[k]? = some group) (hhit : m.IsHit hashes group rows)
    (hgreatest : IsGreatest {l | l ≤ s.currHitLength ∧ m.HitLength hashes group l}
      (rows.length * group.spec.blockSize))
    (hfresh : group.spec.isFullAttention = true → (s.rows.getD k none).isSome = false) :
    Searching m hashes maxCacheHitLength bound
      ⟨rows.length * group.spec.blockSize, s.rows.set k (some rows), eagleVerified⟩ where
  length := (List.length_set ..).trans h.length
  aligned := hhit.hitLength.1
  le_max := hgreatest.1.1.trans h.le_max
  le_bound := hgreatest.1.1.trans h.le_bound
  longest := by
    intro l hl hcommon
    exact hgreatest.2 ⟨h.longest l hl hcommon, hcommon group (List.mem_of_getElem? hgroup)⟩
  hits := by
    intro idx group' rows' hgroup' hrows'
    dsimp only at hrows' ⊢
    rw [List.getElem?_set] at hrows'
    split at hrows'
    · next hidx =>
        split at hrows'
        · obtain rfl := Option.some.inj (Option.some.inj hrows')
          obtain rfl := Option.some.inj ((hidx ▸ hgroup).symm.trans hgroup')
          exact ⟨hhit, le_rfl, fun _ => hgreatest.1.1.trans h.le_bound⟩
        · cases hrows'
    · obtain ⟨hhit', hle, hbound⟩ := h.hits idx group' rows' hgroup' hrows'
      exact ⟨hhit', hgreatest.1.1.trans hle, hbound⟩
  second := by
    intro group' hgroup' hfull
    obtain ⟨rows', hrows', hlength⟩ := h.second group' hgroup' hfull
    have hk : k ≠ 1 := by
      rintro rfl
      obtain rfl := Option.some.inj (hgroup.symm.trans hgroup')
      have := hfresh hfull
      rw [List.getD_eq_getElem?_getD, hrows'] at this
      cases this
    exact ⟨rows', by rwa [List.getElem?_set_ne hk], hlength⟩

omit [DecidableEq η] in
theorem Processed.succ (h : Processed m hitLength k s) (rows : List Row)
    (hgroup : (attentionGroups m.specs)[k]? = some group) (hrows : s.rows[k]? = some (some rows))
    (hwindow : group.spec.isFullAttention = false →
      rows.length * group.spec.blockSize ≤ hitLength) :
    Processed m hitLength (k + 1) s := by
  intro idx group' hidx hgroup'
  by_cases hk : idx = k
  · subst hk
    obtain rfl := Option.some.inj (hgroup.symm.trans hgroup')
    exact ⟨rows, hrows, hwindow⟩
  · exact h idx group' (by omega) hgroup'

omit [DecidableEq η] in
theorem Processed.set (h : Processed m hitLength k s) (s' : HitSearch) (row : Option (List Row))
    (hrows : s'.rows = s.rows.set k row) : Processed m hitLength k s' := by
  intro idx group' hidx hgroup'
  rw [hrows, List.getElem?_set_ne (by omega)]
  exact h idx group' hidx hgroup'

/-- The groups from `k` on, looked up one after another. -/
theorem Searching.rest (hm : m.Hybrid) (rest : List AttentionGroup)
    (hrest : (attentionGroups m.specs).drop k = rest)
    (h : Searching m hashes maxCacheHitLength bound s)
    (hprocessed : Processed m hitLength k s) (hle : s.currHitLength ≤ hitLength) :
    ∃ s', (rest.zipIdx k).foldlM (m.searchGroup hashes maxCacheHitLength) s = .ok s' ∧
      Searching m hashes maxCacheHitLength bound s' ∧
      Processed m hitLength (attentionGroups m.specs).length s' ∧
      s'.currHitLength ≤ s.currHitLength := by
  induction rest generalizing k s with
  | nil =>
      refine ⟨s, rfl, h, ?_, le_rfl⟩
      intro idx group hidx hgroup
      have := List.drop_eq_nil_iff.mp hrest
      exact hprocessed idx group (by omega) hgroup
  | cons group rest ih =>
      have hgroup : (attentionGroups m.specs)[k]? = some group := by
        have := congrArg (·[0]?) hrest
        simpa using this
      have hspec := spec_mem_of_mem_attentionGroups (List.mem_of_getElem? hgroup)
      have hdrop : (attentionGroups m.specs).drop (k + 1) = rest := by
        rw [← List.drop_drop, hrest, List.drop_one, List.tail_cons]
      have hk : k < s.rows.length := by
        rw [h.length]
        exact (List.getElem?_eq_some_iff.mp hgroup).1
      rw [List.zipIdx_cons, List.foldlM_cons]
      by_cases hskip : group.spec.isFullAttention = true ∧ (s.rows.getD k none).isSome = true
      · rw [searchGroup_trim hskip.1 hskip.2, h.trim hspec]
        obtain ⟨rows, hrows⟩ := Option.isSome_iff_exists.mp hskip.2
        refine ih hdrop h (hprocessed.succ rows hgroup ?_ ?_) hle
        · rw [List.getD_eq_getElem?_getD, List.getElem?_eq_getElem hk, Option.getD_some] at hrows
          rw [List.getElem?_eq_getElem hk, hrows]
        · intro hwindow
          rw [hskip.1] at hwindow
          cases hwindow
      · have hfresh : group.spec.isFullAttention = true →
            (s.rows.getD k none).isSome = false := by
          intro hfull
          exact Bool.eq_false_iff.mpr fun hfound => hskip ⟨hfull, hfound⟩
        obtain ⟨rows, eagleVerified, hok, hhit, hgreatest⟩ := searchGroup_find
          hashes maxCacheHitLength hm hspec hfresh
        rw [hok]
        have hstep := hgreatest.1.1
        have hprocessed' := (hprocessed.set ⟨rows.length * group.spec.blockSize,
          s.rows.set k (some rows), eagleVerified⟩ (some rows) rfl).succ rows hgroup
          (List.getElem?_set_self hk) fun _ => hstep.trans hle
        obtain ⟨s', hfold, hsearching, hall, hle'⟩ := ih hdrop
          (h.find hgroup hhit hgreatest hfresh) hprocessed' (hstep.trans hle)
        exact ⟨s', hfold, hsearching, hall, hle'.trans hstep⟩

/-- Every group has a hit, and the windows have one of exactly the current length. -/
structure Settled (m : KVCacheManager η) (hashes : List η) (maxCacheHitLength bound : ℕ)
    (s : HitSearch) : Prop where
  searching : Searching m hashes maxCacheHitLength bound s
  found : ∀ (idx : ℕ) group, (attentionGroups m.specs)[idx]? = some group →
    ∃ rows, s.rows[idx]? = some (some rows) ∧
      (group.spec.isFullAttention = false → rows.length * group.spec.blockSize = s.currHitLength)

/-- A round that keeps the length settles the search. -/
theorem Searching.settled (h : Searching m hashes maxCacheHitLength bound s)
    (hprocessed : Processed m s.currHitLength (attentionGroups m.specs).length s) :
    Settled m hashes maxCacheHitLength bound s := by
  refine ⟨h, ?_⟩
  intro idx group hgroup
  obtain ⟨rows, hrows, hwindow⟩ :=
    hprocessed idx group (List.getElem?_eq_some_iff.mp hgroup).1 hgroup
  exact ⟨rows, hrows, fun hfalse =>
    le_antisymm (hwindow hfalse) (h.hits idx group rows hgroup hrows).2.1⟩

/-- The rounds of `searchRounds` with or without the exit after the first one. -/
def roundsWith (m : KVCacheManager η) (hashes : List η) (maxCacheHitLength : ℕ)
    (groups : List AttentionGroup) (exit : Bool) : ℕ → HitSearch → Except KVError HitSearch
  | 0, s => .ok s
  | fuel + 1, s => do
      let hitLength := s.currHitLength
      let s ← groups.zipIdx.foldlM (m.searchGroup hashes maxCacheHitLength) s
      if hitLength ≤ s.currHitLength then return { s with currHitLength := hitLength }
      else if exit then return s
      else roundsWith m hashes maxCacheHitLength groups exit fuel s

theorem searchRounds_eq (m : KVCacheManager η) (hashes : List η) (maxCacheHitLength : ℕ)
    (groups : List AttentionGroup) (fuel : ℕ) (s : HitSearch) :
    m.searchRounds hashes maxCacheHitLength groups fuel s =
      m.roundsWith hashes maxCacheHitLength groups (groups.length = 2 ∧
        (groups.head?.map (·.spec.isFullAttention)).getD false = true) fuel s := by
  induction fuel generalizing s with
  | zero => rfl
  | succ fuel ih =>
      unfold searchRounds roundsWith
      cases groups.zipIdx.foldlM (m.searchGroup hashes maxCacheHitLength) s with
      | error e => rfl
      | ok s' =>
          dsimp only [bind, Except.bind]
          rw [ih]
          by_cases hsimple : groups.length = 2 ∧
            (groups.head?.map (·.spec.isFullAttention)).getD false = true <;> simp [hsimple]

theorem roundsWith_settled (hm : m.Hybrid) (fuel : ℕ)
    (h : Searching m hashes maxCacheHitLength bound s) (hfuel : s.currHitLength < fuel) :
    ∃ s', m.roundsWith hashes maxCacheHitLength (attentionGroups m.specs) false fuel s = .ok s' ∧
      Settled m hashes maxCacheHitLength bound s' := by
  induction fuel generalizing s with
  | zero => exact absurd hfuel (Nat.not_lt_zero _)
  | succ fuel ih =>
      have hnone : Processed m s.currHitLength 0 s :=
        fun idx group hidx => absurd hidx (Nat.not_lt_zero idx)
      obtain ⟨s', hfold, hsearching, hprocessed, hle⟩ :=
        h.rest hm _ List.drop_zero hnone le_rfl
      unfold roundsWith
      rw [hfold]
      dsimp only [bind, Except.bind]
      by_cases hkept : s.currHitLength ≤ s'.currHitLength
      · have hsame : s.currHitLength = s'.currHitLength := le_antisymm hkept hle
        rw [if_pos hkept]
        rw [hsame] at hprocessed ⊢
        exact ⟨s', rfl, hsearching.settled hprocessed⟩
      · rw [if_neg hkept, if_neg Bool.false_ne_true]
        exact ih hsearching (by omega)

end Rounds

/-! ## The first two groups -/

section Start

variable {first second : AttentionGroup} {rest : List AttentionGroup}

/-- The state before the search. -/
def startSearch (groups : List AttentionGroup) (maxCacheHitLength : ℕ) : HitSearch :=
  ⟨maxCacheHitLength, groups.map fun _ => none, []⟩

variable (hashes maxCacheHitLength) in
/-- The first two groups are looked up from scratch, whatever their kind. -/
theorem search_firstTwo (hm : m.Hybrid)
    (hgroups : attentionGroups m.specs = first :: second :: rest) :
    ∃ bound s, [(first, 0), (second, 1)].foldlM (m.searchGroup hashes maxCacheHitLength)
        (startSearch (attentionGroups m.specs) maxCacheHitLength) = .ok s ∧
      Searching m hashes maxCacheHitLength bound s ∧
      Processed m maxCacheHitLength 2 s ∧ s.currHitLength = bound ∧
      (∃ rows, s.rows[1]? = some (some rows) ∧
        rows.length * second.spec.blockSize = s.currHitLength) ∧
      (second.spec.isFullAttention = true → IsGreatest
        {l | l ≤ maxCacheHitLength ∧ m.HitLength hashes first l ∧ m.HitLength hashes second l}
        bound) := by
  have hfirst : (attentionGroups m.specs)[0]? = some first := by rw [hgroups]; rfl
  have hsecond : (attentionGroups m.specs)[1]? = some second := by rw [hgroups]; rfl
  have hspec₁ := spec_mem_of_mem_attentionGroups (List.mem_of_getElem? hfirst)
  have hspec₂ := spec_mem_of_mem_attentionGroups (List.mem_of_getElem? hsecond)
  obtain ⟨rows₁, eagle₁, hok₁, hhit₁, hgreatest₁⟩ := @searchGroup_find _ _ m hashes
    maxCacheHitLength first 0 (startSearch (attentionGroups m.specs) maxCacheHitLength) hm hspec₁
    (fun _ => by simp [startSearch, hgroups])
  obtain ⟨rows₂, eagle₂, hok₂, hhit₂, hgreatest₂⟩ := @searchGroup_find _ _ m hashes
    maxCacheHitLength second 1 ⟨rows₁.length * first.spec.blockSize,
      (startSearch (attentionGroups m.specs) maxCacheHitLength).rows.set 0 (some rows₁), eagle₁⟩
    hm hspec₂ (fun _ => by simp [startSearch, hgroups])
  have hrows : ((startSearch (attentionGroups m.specs) maxCacheHitLength).rows.set 0
      (some rows₁)).set 1 (some rows₂) = some rows₁ :: some rows₂ :: rest.map fun _ => none := by
    simp [startSearch, hgroups]
  rw [hrows] at hok₂
  have hle₁ : rows₁.length * first.spec.blockSize ≤ maxCacheHitLength := hgreatest₁.1.1
  have hle₂ : rows₂.length * second.spec.blockSize ≤ rows₁.length * first.spec.blockSize :=
    hgreatest₂.1.1
  refine ⟨rows₂.length * second.spec.blockSize, ⟨rows₂.length * second.spec.blockSize,
    some rows₁ :: some rows₂ :: rest.map fun _ => none, eagle₂⟩, ?_, ?_, ?_, rfl,
    ⟨rows₂, rfl, rfl⟩, ?_⟩
  · rw [List.foldlM_cons, hok₁]
    dsimp only [bind, Except.bind]
    rw [List.foldlM_cons, hok₂]
    rfl
  · refine ⟨by simp [hgroups], hhit₂.hitLength.1, hle₂.trans hle₁, le_rfl, ?_, ?_, ?_⟩
    · intro l hl hcommon
      have hl₁ := hgreatest₁.2 ⟨hl, hcommon first (List.mem_of_getElem? hfirst)⟩
      exact hgreatest₂.2 ⟨hl₁, hcommon second (List.mem_of_getElem? hsecond)⟩
    · intro idx group rows hgroup hfound
      rw [hgroups] at hgroup
      match idx with
      | 0 =>
          obtain rfl := Option.some.inj hgroup
          obtain rfl := Option.some.inj (Option.some.inj hfound)
          exact ⟨hhit₁, hle₂, fun h => absurd h (by omega)⟩
      | 1 =>
          obtain rfl := Option.some.inj hgroup
          obtain rfl := Option.some.inj (Option.some.inj hfound)
          exact ⟨hhit₂, le_rfl, fun _ => le_rfl⟩
      | idx + 2 =>
          have hmem : some rows ∈ rest.map fun _ => none := List.mem_of_getElem? hfound
          simp at hmem
    · intro group hgroup _
      obtain rfl := Option.some.inj (hsecond.symm.trans hgroup)
      exact ⟨rows₂, rfl, rfl⟩
  · intro idx group hidx hgroup
    rw [hgroups] at hgroup
    match idx with
    | 0 =>
        obtain rfl := Option.some.inj hgroup
        exact ⟨rows₁, rfl, fun _ => hle₁⟩
    | 1 =>
        obtain rfl := Option.some.inj hgroup
        exact ⟨rows₂, rfl, fun _ => hle₂.trans hle₁⟩
  · intro hfull
    have hfull₁ := isFullAttention_of_le hfirst hsecond (Nat.zero_le 1) hfull
    refine ⟨⟨hle₂.trans hle₁, hhit₁.hitLength.shorten hfull₁ hhit₂.hitLength.1 hle₂,
      hhit₂.hitLength⟩, ?_⟩
    rintro l ⟨hl, hl₁, hl₂⟩
    exact hgreatest₂.2 ⟨hgreatest₁.2 ⟨hl, hl₁⟩, hl₂⟩

variable (hashes maxCacheHitLength) in
/-- The search settles, also where it exits after its first round. -/
theorem rounds_settled (hm : m.Hybrid)
    (hgroups : attentionGroups m.specs = first :: second :: rest) :
    ∃ bound, (second.spec.isFullAttention = true → IsGreatest
        {l | l ≤ maxCacheHitLength ∧ m.HitLength hashes first l ∧ m.HitLength hashes second l}
        bound) ∧
      ∀ exit : Bool, (exit = true → rest = [] ∧ first.spec.isFullAttention = true) →
        ∃ s, m.roundsWith hashes maxCacheHitLength (attentionGroups m.specs) exit
            (maxCacheHitLength + 1) (startSearch (attentionGroups m.specs) maxCacheHitLength) =
              .ok s ∧
          Settled m hashes maxCacheHitLength bound s := by
  obtain ⟨bound, s₂, htwo, hsearching₂, hprocessed₂, hbound, ⟨rows₂, hrows₂, hlength₂⟩, hfull⟩ :=
    search_firstTwo hashes maxCacheHitLength hm hgroups
  obtain ⟨s, hrest, hsearching, hprocessed, hle⟩ := hsearching₂.rest hm rest
    (by rw [hgroups]; rfl) hprocessed₂ hsearching₂.le_max
  have hround : (attentionGroups m.specs).zipIdx.foldlM
      (m.searchGroup hashes maxCacheHitLength)
      (startSearch (attentionGroups m.specs) maxCacheHitLength) = .ok s := by
    have hitems : (attentionGroups m.specs).zipIdx =
        [(first, 0), (second, 1)] ++ rest.zipIdx 2 := by rw [hgroups]; rfl
    rw [hitems, List.foldlM_append, htwo]
    exact hrest
  refine ⟨bound, hfull, ?_⟩
  intro exit hexit
  unfold roundsWith
  rw [hround]
  dsimp only [bind, Except.bind]
  by_cases hkept : (startSearch (attentionGroups m.specs) maxCacheHitLength).currHitLength ≤
      s.currHitLength
  · have hsame : maxCacheHitLength = s.currHitLength := le_antisymm hkept hsearching.le_max
    rw [if_pos hkept]
    refine ⟨s, ?_, hsearching.settled (hsame ▸ hprocessed)⟩
    change Except.ok { s with currHitLength := maxCacheHitLength } = Except.ok s
    rw [hsame]
  · rw [if_neg hkept]
    cases exit with
    | false =>
        rw [if_neg Bool.false_ne_true]
        have hlt : s.currHitLength < maxCacheHitLength := Nat.lt_of_not_le hkept
        exact roundsWith_settled hm maxCacheHitLength hsearching hlt
    | true =>
        obtain ⟨rfl, hfirst⟩ := hexit rfl
        obtain rfl := Except.ok.inj (hrest : Except.ok s₂ = Except.ok s)
        rw [if_pos rfl]
        refine ⟨s₂, rfl, hsearching, ?_⟩
        intro idx group hgroup
        obtain ⟨rows, hrows, _⟩ :=
          hprocessed idx group (List.getElem?_eq_some_iff.mp hgroup).1 hgroup
        refine ⟨rows, hrows, ?_⟩
        intro hwindow
        rw [hgroups] at hgroup
        match idx with
        | 0 =>
            obtain rfl := Option.some.inj hgroup
            rw [hfirst] at hwindow
            cases hwindow
        | 1 =>
            obtain rfl := Option.some.inj hgroup
            obtain rfl := Option.some.inj (Option.some.inj (hrows.symm.trans hrows₂))
            exact hlength₂

end Start

end KVCacheManager

end TokenCake.KV
