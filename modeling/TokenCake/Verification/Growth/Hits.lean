import TokenCake.Verification.Growth.Calls
import TokenCake.Verification.KVCache.AttentionGroups
import TokenCake.Verification.KVCache.Hits

/-! # The placeholders of a hit come first

A hit of a window is a list of placeholders followed by cached blocks, and it is as long as the
number of tokens that it is reported for. -/

namespace TokenCake.KV

variable {η : Type} [DecidableEq η]

/-! ## Rows -/

section Rows

variable {lookup : ℕ → Option Row} {numGroups blockSize k : ℕ} {rows : List Row}

/-- A row of cached blocks. -/
def CachedRow (numGroups : ℕ) (row : Row) : Prop :=
  row.length = numGroups ∧ nullBlock ∉ row

/-- Placeholders below `k`, and cached blocks from there on. -/
def NullUpTo (numGroups k : ℕ) (rows : List Row) : Prop :=
  ∀ i row, rows[i]? = some row → (i < k → row = List.replicate numGroups nullBlock) ∧
    (k ≤ i → CachedRow numGroups row)

theorem NullUpTo.take (h : NullUpTo numGroups k rows) (n : ℕ) :
    NullUpTo numGroups k (rows.take n) := by
  intro i row hrow
  rw [List.getElem?_take] at hrow
  split at hrow
  · exact h i row hrow
  · cases hrow

/-- The column of a group. -/
theorem NullUpTo.column (h : NullUpTo numGroups k rows) {j : ℕ} (hj : j < numGroups) :
    NullFirst (rows.map (·.getD j nullBlock)) := by
  intro i i' hle hnull
  rw [List.getElem?_map, Option.map_eq_some_iff] at hnull
  obtain ⟨row', hrow', hnull⟩ := hnull
  have hlt : i < rows.length := hle.trans_lt (List.getElem?_eq_some_iff.mp hrow').1
  have hbelow : i' < k := by
    by_contra hge
    obtain ⟨hlength, hcached⟩ := (h i' row' hrow').2 (Nat.not_lt.mp hge)
    rw [List.getD_eq_getElem?_getD, List.getElem?_eq_getElem (hlength ▸ hj),
      Option.getD_some] at hnull
    exact hcached (hnull ▸ List.getElem_mem _)
  rw [List.getElem?_map, List.getElem?_eq_getElem hlt, Option.map_some,
    (h i _ (List.getElem?_eq_getElem hlt)).1 (hle.trans_lt hbelow)]
  rw [List.getD_eq_getElem?_getD, List.getElem?_replicate, if_pos hj, Option.getD_some]

/-- The rows that are kept after the loop. -/
def keptRows (found : List Row × ℕ × Bool) : List Row :=
  if found.2.2 then found.1 else found.1.take found.2.1

variable (hlookup : ∀ i row, lookup i = some row → CachedRow numGroups row)

include hlookup

theorem hitsFrom_nullUpTo (i n : ℕ) : NullUpTo numGroups 0 (hitsFrom lookup i n) :=
  fun _ row hrow => ⟨fun hlt => absurd hlt (Nat.not_lt_zero _),
    fun _ => hlookup _ row (getElem?_hitsFrom hrow)⟩

theorem fullAttentionHit_nullUpTo (maxLength alignment : ℕ) (useEagle : Bool) :
    NullUpTo numGroups 0 (fullAttentionHit lookup blockSize maxLength alignment useEagle) := by
  have hrows := hitsFrom_nullUpTo hlookup 0 (maxLength / blockSize)
  cases useEagle with
  | true =>
      exact (List.dropLast_eq_take ▸ hrows.take _ : NullUpTo _ _ (List.dropLast _)).take _
  | false => exact hrows.take _

/-- The rows below the index of the loop are placeholders, the hits from there on are cached. -/
theorem scanWindow_nullUpTo (blockSize alignment c : ℕ) (useEagle : Bool) (i contiguous : ℕ)
    (hnull : ∀ j row, j < i → rows[j]? = some row → row = List.replicate numGroups nullBlock)
    (hcached : ∀ j row, i ≤ j → j < i + contiguous → rows[j]? = some row →
      CachedRow numGroups row) :
    ∃ k, NullUpTo numGroups k
      (keptRows (scanWindow lookup blockSize alignment c useEagle i rows contiguous)) := by
  induction i generalizing rows contiguous with
  | zero =>
      refine ⟨0, fun j row hrow => ⟨fun hlt => absurd hlt (Nat.not_lt_zero _), fun hle => ?_⟩⟩
      change (rows.take contiguous)[j]? = some row at hrow
      rw [List.getElem?_take] at hrow
      split at hrow
      · exact hcached j row hle (by omega) hrow
      · cases hrow
  | succ i ih =>
      unfold scanWindow
      cases hfound : lookup i with
      | none =>
          exact ih 0 (fun j row hj => hnull j row (by omega)) fun j row hle hlt => by omega
      | some row =>
          dsimp only
          generalize (if useEagle then i else i + 1) = postPopBlocks
          by_cases hskip : contiguous = 0 ∧ blockSize ≠ alignment ∧
              postPopBlocks * blockSize % alignment ≠ 0
          · rw [if_pos hskip]
            exact ih contiguous (fun j row hj => hnull j row (by omega))
              fun j row hle hlt => by omega
          · rw [if_neg hskip]
            have hset : ∀ j row', (rows.set i row)[j]? = some row' → j ≠ i → rows[j]? = some row' := by
              intro j row' hrow hne
              rwa [List.getElem?_set_ne hne.symm] at hrow
            have hself : ∀ row', (rows.set i row)[i]? = some row' → CachedRow numGroups row' := by
              intro row' hrow
              rw [List.getElem?_set] at hrow
              simp only [if_true] at hrow
              split at hrow
              · exact Option.some.inj hrow ▸ hlookup i row hfound
              · cases hrow
            have hnull' : ∀ j row', j < i → (rows.set i row)[j]? = some row' →
                row' = List.replicate numGroups nullBlock :=
              fun j row' hj hrow => hnull j row' (by omega) (hset j row' hrow (by omega))
            have hcached' : ∀ j row', i ≤ j → j < i + (contiguous + 1) →
                (rows.set i row)[j]? = some row' → CachedRow numGroups row' := by
              intro j row' hle hlt hrow
              by_cases hj : j = i
              · subst hj
                exact hself row' hrow
              · exact hcached j row' (by omega) (by omega) (hset j row' hrow hj)
            by_cases hmatch : c ≤ contiguous + 1
            · rw [if_pos hmatch]
              refine ⟨i, fun j row' hrow => ?_⟩
              change ((rows.set i row).take (i + (contiguous + 1)))[j]? = some row' at hrow
              rw [List.getElem?_take] at hrow
              split at hrow
              · next hlt =>
                  exact ⟨fun hj => hnull' j row' hj hrow, fun hle => hcached' j row' hle hlt hrow⟩
              · cases hrow
            · rw [if_neg hmatch]
              exact ih (contiguous + 1) hnull' hcached'

theorem slidingWindowHit_nullUpTo (w maxLength alignment : ℕ) (useEagle : Bool) :
    ∃ k, NullUpTo numGroups k
      (slidingWindowHit lookup w numGroups blockSize maxLength alignment useEagle) := by
  have hscan := scanWindow_nullUpTo hlookup blockSize alignment
    ((w - 1) ⌈/⌉ blockSize + if useEagle then 1 else 0) useEagle (maxLength / blockSize) 0
    (fun j row _ hrow => List.eq_of_mem_replicate (List.mem_of_getElem? hrow) :
      ∀ j row, j < maxLength / blockSize → (List.replicate (maxLength / blockSize)
        (List.replicate numGroups nullBlock))[j]? = some row → _)
    fun j row hle hlt => by omega
  obtain ⟨k, hk⟩ := hscan
  refine ⟨k, ?_⟩
  unfold slidingWindowHit
  dsimp only
  generalize scanWindow lookup blockSize alignment _ useEagle (maxLength / blockSize) _ 0 = found
    at hk ⊢
  have hrows : NullUpTo numGroups k (if found.2.2 then found.1
      else alignRows blockSize alignment (found.1.take found.2.1)) := by
    unfold keptRows at hk
    split at hk
    · next hmatch =>
        rw [if_pos hmatch]
        exact hk
    · next hmatch =>
        rw [if_neg hmatch]
        exact hk.take _
  generalize (if found.2.2 then found.1
    else alignRows blockSize alignment (found.1.take found.2.1)) = kept at hrows ⊢
  split
  · exact (List.dropLast_eq_take ▸ hrows.take _ : NullUpTo _ _ (List.dropLast _)).take _
  · exact hrows

theorem findLongestCacheHit_nullUpTo (spec : KVCacheSpec) (maxLength alignment : ℕ)
    (useEagle : Bool) :
    Ensures (fun _ => True) (fun rows => ∃ k, NullUpTo numGroups k rows)
      (findLongestCacheHit spec lookup numGroups maxLength alignment useEagle) := by
  unfold findLongestCacheHit
  split
  · exact .ok ⟨0, fullAttentionHit_nullUpTo hlookup _ _ _⟩
  · exact .ok (slidingWindowHit_nullUpTo hlookup ..)
  · next c _ =>
      unfold chunkedLocalHit
      split
      · exact .error trivial
      · refine .ok ⟨maxLength / c * c / spec.blockSize, fun i row hrow => ?_⟩
        rw [List.getElem?_append, List.length_replicate] at hrow
        split at hrow
        · next hlt =>
            exact ⟨fun _ => List.eq_of_mem_replicate (List.mem_of_getElem? hrow),
              fun hle => absurd hlt (Nat.not_lt.mpr hle)⟩
        · next hge =>
            exact ⟨fun hlt => absurd hlt hge, fun _ => hlookup _ row (getElem?_hitsFrom hrow)⟩

end Rows

/-! ## The search -/

section Search

variable {m : KVCacheManager η} {hashes : List η} {group : AttentionGroup}

open KVCacheManager

theorem lookupRow_cachedRow (hreserved : NullReserved m.blockPool) {i : ℕ} {row : Row}
    (h : m.lookupRow hashes group i = some row) : CachedRow group.groupIds.length row := by
  obtain ⟨hash, -, hmapM⟩ := Option.bind_eq_some_iff.mp h
  have hmap := (mapM_eq_some_iff _ _ _).mp hmapM
  refine ⟨by simpa using (congrArg List.length hmap).symm, fun hmem => ?_⟩
  have hsome : some nullBlock ∈ row.map some := List.mem_map_of_mem hmem
  rw [← hmap] at hsome
  obtain ⟨id, -, hid⟩ := List.mem_map.mp hsome
  rw [BlockHashToBlockMap.getOneBlock_eq] at hid
  exact hreserved.uncached _ (List.mem_of_mem_head? hid)

/-- What one group finds is no longer than the length so far, which it then sets. -/
structure Found (group : AttentionGroup) (idx : ℕ) (s s' : HitSearch) : Prop where
  curr_le : s'.currHitLength ≤ s.currHitLength
  length_eq : s'.rows.length = s.rows.length
  other_eq : ∀ i, i ≠ idx → s'.rows[i]? = s.rows[i]?
  rows : idx < s.rows.length → (group.spec.isFullAttention = true ∧ s'.rows = s.rows) ∨
    ∃ rows, s'.rows[idx]? = some (some rows) ∧
      rows.length * group.spec.blockSize = s'.currHitLength ∧
      ∃ k, NullUpTo group.groupIds.length k rows

theorem searchGroup_found (hreserved : NullReserved m.blockPool) (maxCacheHitLength : ℕ)
    (s : HitSearch) (idx : ℕ) :
    Ensures (fun _ => True) (Found group idx s)
      (m.searchGroup hashes maxCacheHitLength s (group, idx)) := by
  unfold searchGroup
  dsimp only
  by_cases hfull : group.spec.isFullAttention = true ∧ (s.rows.getD idx none).isSome = true
  · rw [if_pos hfull]
    exact .ok ⟨Nat.div_mul_le_self .., rfl, fun _ _ => rfl, fun _ => .inl ⟨hfull.1, rfl⟩⟩
  · rw [if_neg hfull]
    generalize (group.groupIds.any (· ∈ m.eagleGroupIds) && !(s.eagleVerified.contains idx)) =
      useEagle
    generalize hmax : (if useEagle then
      min (s.currHitLength + group.spec.blockSize) maxCacheHitLength else s.currHitLength) = maxLength
    have hnulls := findLongestCacheHit_nullUpTo
      (fun i row (h : m.lookupRow hashes group i = some row) => lookupRow_cachedRow hreserved h)
      group.spec maxLength m.lcmBlockSize useEagle
    have hfound := hnulls.and ((findLongestCacheHit_spec group.spec maxLength m.lcmBlockSize
      useEagle).weaken fun _ h => h.2)
    refine hfound.bind fun rows hrows => .ok ?_
    have hlength : rows.length * group.spec.blockSize ≤ s.currHitLength := by
      rcases hrows.2 with rfl | hle
      · simp
      · have hblocks := (Nat.le_div_iff_mul_le group.spec.blockSize_pos).mp hle
        cases useEagle with
        | false => exact hblocks.trans hmax.ge
        | true =>
            have hone : maxLength ≤ s.currHitLength + group.spec.blockSize :=
              hmax ▸ Nat.min_le_left ..
            rw [if_pos rfl, Nat.add_mul, Nat.one_mul] at hblocks
            omega
    refine ⟨hlength, List.length_set, fun i hi => List.getElem?_set_ne hi.symm,
      fun hidx => .inr ⟨rows, List.getElem?_set_self hidx, rfl, hrows.1⟩⟩

/-- The placeholders come first in every hit so far. -/
def NullGroups (groups : List AttentionGroup) (found : List (Option (List Row))) : Prop :=
  ∀ (idx : ℕ) (group : AttentionGroup) (rows : List Row), groups[idx]? = some group →
    found[idx]? = some (some rows) → ∃ k, NullUpTo group.groupIds.length k rows

/-- A window or chunk has a hit, of at least `low` and at most `high` tokens. -/
def WindowFound (groups : List AttentionGroup) (found : List (Option (List Row)))
    (low high idx : ℕ) : Prop :=
  ∀ group : AttentionGroup, groups[idx]? = some group → group.spec.isFullAttention = false →
    ∃ rows, found[idx]? = some (some rows) ∧ low ≤ rows.length * group.spec.blockSize ∧
      rows.length * group.spec.blockSize ≤ high

theorem WindowFound.mono {groups : List AttentionGroup} {found : List (Option (List Row))}
    {low high low' high' idx : ℕ} (h : WindowFound groups found low high idx) (hlow : low' ≤ low)
    (hhigh : high ≤ high') : WindowFound groups found low' high' idx := by
  intro group hgroup hwindow
  obtain ⟨rows, hrows, hle, hge⟩ := h group hgroup hwindow
  exact ⟨rows, hrows, hlow.trans hle, hge.trans hhigh⟩

theorem Found.nullGroups {groups : List AttentionGroup} {idx : ℕ} {s s' : HitSearch}
    (h : Found group idx s s') (hgroup : groups[idx]? = some group)
    (hnulls : NullGroups groups s.rows) : NullGroups groups s'.rows := by
  intro i group' rows hgroup' hrows
  by_cases hi : i = idx
  · subst hi
    obtain rfl := Option.some.inj (hgroup.symm.trans hgroup')
    have hidx : i < s.rows.length := h.length_eq ▸ (List.getElem?_eq_some_iff.mp hrows).1
    rcases h.rows hidx with ⟨-, hold⟩ | ⟨rows', hrows', -, hnull⟩
    · exact hnulls i group rows hgroup (hold ▸ hrows)
    · obtain rfl := Option.some.inj (Option.some.inj (hrows'.symm.trans hrows))
      exact hnull
  · exact hnulls i group' rows hgroup' (h.other_eq i hi ▸ hrows)

theorem Found.windowFound {groups : List AttentionGroup} {idx : ℕ} {s s' : HitSearch}
    (h : Found group idx s s') (hgroup : groups[idx]? = some group)
    (hlength : groups.length = s.rows.length) :
    WindowFound groups s'.rows s'.currHitLength s'.currHitLength idx := by
  intro group' hgroup' hwindow
  obtain rfl := Option.some.inj (hgroup.symm.trans hgroup')
  have hidx : idx < s.rows.length := hlength ▸ (List.getElem?_eq_some_iff.mp hgroup).1
  rcases h.rows hidx with ⟨hfull, -⟩ | ⟨rows, hrows, heq, -⟩
  · rw [hwindow] at hfull
    cases hfull
  · exact ⟨rows, hrows, heq.ge, heq.le⟩

/-- What a round leaves true. -/
structure Searched (groups : List AttentionGroup) (s : HitSearch) : Prop where
  length_eq : groups.length = s.rows.length
  nulls : NullGroups groups s.rows

/-- The groups from `k` on; the last one sets the length. -/
theorem searchRest_found (hreserved : NullReserved m.blockPool) (maxCacheHitLength : ℕ)
    {groups : List AttentionGroup} (rest : List AttentionGroup) (k : ℕ)
    (hrest : groups.drop k = rest) (s : HitSearch) (hs : Searched groups s) :
    Ensures (fun _ => True) (fun s' => (rest = [] → s' = s) ∧ s'.currHitLength ≤ s.currHitLength ∧
        Searched groups s' ∧ (∀ idx < k, s'.rows[idx]? = s.rows[idx]?) ∧
        (∀ idx, k ≤ idx → WindowFound groups s'.rows s'.currHitLength s.currHitLength idx) ∧
        ∀ idx, k ≤ idx → idx + 1 = groups.length →
          WindowFound groups s'.rows s'.currHitLength s'.currHitLength idx)
      ((rest.zipIdx k).foldlM (m.searchGroup hashes maxCacheHitLength) s) := by
  induction rest generalizing k s with
  | nil =>
      have hlength : groups.length ≤ k := List.drop_eq_nil_iff.mp hrest
      have hnone : ∀ idx, k ≤ idx → ∀ low high, WindowFound groups s.rows low high idx := by
        intro idx hidx low high group hgroup
        have := (List.getElem?_eq_some_iff.mp hgroup).1
        omega
      exact .ok ⟨fun _ => rfl, le_rfl, hs, fun _ _ => rfl, fun idx h => hnone idx h _ _,
        fun idx h _ => hnone idx h _ _⟩
  | cons group rest ih =>
      have hgroup : groups[k]? = some group := by
        have := congrArg (·[0]?) hrest
        simpa using this
      have hdrop : groups.drop (k + 1) = rest := by
        rw [← List.drop_drop, hrest, List.drop_one, List.tail_cons]
      rw [List.zipIdx_cons, List.foldlM_cons]
      refine (searchGroup_found hreserved maxCacheHitLength s k).bind fun s₁ h₁ => ?_
      have hs₁ : Searched groups s₁ :=
        ⟨hs.length_eq.trans h₁.length_eq.symm, h₁.nullGroups hgroup hs.nulls⟩
      refine (ih (k + 1) hdrop s₁ hs₁).mono fun s' h => ?_
      obtain ⟨hnil, hle, hs', hbefore, hwindows, hlast⟩ := h
      have hfirst : WindowFound groups s'.rows s₁.currHitLength s₁.currHitLength k := by
        intro group' hgroup' hwindow
        rw [hbefore k (Nat.lt_succ_self k)]
        exact h₁.windowFound hgroup hs.length_eq group' hgroup' hwindow
      refine ⟨nofun, hle.trans h₁.curr_le, hs', fun idx hidx => ?_, fun idx hidx => ?_,
        fun idx hidx hend => ?_⟩
      · rw [hbefore idx (by omega), h₁.other_eq idx (by omega)]
      · rcases Nat.eq_or_lt_of_le hidx with rfl | hlt
        · exact hfirst.mono hle h₁.curr_le
        · exact (hwindows idx hlt).mono le_rfl h₁.curr_le
      · rcases Nat.eq_or_lt_of_le hidx with rfl | hlt
        · -- Nothing is searched after the last group.
          have hrest : rest = [] := by
            rw [← hdrop]
            exact List.drop_eq_nil_iff.mpr hend.ge
          rw [hnil hrest] at hfirst ⊢
          exact hfirst
        · exact hlast idx hlt hend

/-- After the search every window or chunk has a hit of exactly the length. -/
theorem searchRounds_found (hreserved : NullReserved m.blockPool) (maxCacheHitLength : ℕ)
    (groups : List AttentionGroup) (fuel : ℕ) (s : HitSearch) (hfuel : s.currHitLength < fuel)
    (hs : Searched groups s) :
    Ensures (fun _ => True) (fun s' => NullGroups groups s'.rows ∧
        ∀ idx, WindowFound groups s'.rows s'.currHitLength s'.currHitLength idx)
      (m.searchRounds hashes maxCacheHitLength groups fuel s) := by
  induction fuel generalizing s with
  | zero => exact absurd hfuel (Nat.not_lt_zero _)
  | succ fuel ih =>
      unfold searchRounds
      refine (searchRest_found hreserved maxCacheHitLength groups 0 rfl s hs).bind
        fun s' h => ?_
      obtain ⟨-, hle, hs', -, hwindows, hlast⟩ := h
      by_cases hdone : s.currHitLength ≤ s'.currHitLength
      · rw [if_pos hdone]
        exact .ok ⟨hs'.nulls, fun idx => (hwindows idx (Nat.zero_le idx)).mono hdone le_rfl⟩
      · rw [if_neg hdone]
        dsimp only
        by_cases hsimple : groups.length = 2 ∧
            (groups.head?.map (·.spec.isFullAttention)).getD false = true
        · rw [if_pos hsimple]
          -- The first group is full attention, and the second one is the last.
          refine .ok ⟨hs'.nulls, fun idx group hgroup hwindow => ?_⟩
          have hlt := (List.getElem?_eq_some_iff.mp hgroup).1
          rcases Nat.eq_zero_or_pos idx with rfl | hpos
          · rw [List.head?_eq_getElem?, hgroup] at hsimple
            have hfull : group.spec.isFullAttention = true := hsimple.2
            rw [hwindow] at hfull
            cases hfull
          · exact hlast idx (Nat.zero_le idx) (by omega) group hgroup hwindow
        · rw [if_neg hsimple]
          exact ih s' (by omega) hs'

/-- A hit that a manager reports for a number of tokens. -/
def HitOf (length : ℕ) (manager : SingleTypeKVCacheManager) (hits : List BlockId) : Prop :=
  NullFirst hits ∧ (manager.spec.isFullAttention = false →
    hits.length * manager.blockSize = length)

theorem HitOf.nil (manager : SingleTypeKVCacheManager) : HitOf 0 manager [] :=
  ⟨.of_not_mem List.not_mem_nil, fun _ => by simp⟩

omit [DecidableEq η] in
theorem hitOf_groupHits {length : ℕ} {found : List (Option (List Row))}
    (hnulls : NullGroups (attentionGroups m.specs) found)
    (hwindows : ∀ idx, WindowFound (attentionGroups m.specs) found length length idx)
    {manager : SingleTypeKVCacheManager}
    (hspec : m.specs[manager.groupId]? = some manager.spec) :
    HitOf length manager (groupHits (attentionGroups m.specs) found manager.groupId) := by
  refine ⟨?_, fun hwindow => ?_⟩
  · rcases groupHits_cases (attentionGroups m.specs) found manager.groupId with
      hnil | ⟨idx, group, rows, j, hgroup, hrows, hj, heq⟩
    · rw [hnil]
      exact .of_not_mem List.not_mem_nil
    · obtain ⟨k, hk⟩ := hnulls idx group rows hgroup hrows
      rw [heq]
      exact hk.column hj
  · obtain ⟨group, hgroup, hsame, hmem⟩ := exists_attentionGroup hspec
    obtain ⟨idx, hidx⟩ := List.mem_iff_getElem?.mp hgroup
    obtain ⟨rows, hrows, hle, hge⟩ := hwindows idx group hidx (hsame ▸ hwindow)
    rw [groupHits_eq (attentionGroups_nodup _)
      (fun g hg hg' => eq_of_mem_groupIds hg hgroup hg' hmem) hidx hrows hmem, List.length_map,
      SingleTypeKVCacheManager.blockSize, ← hsame]
    exact Nat.le_antisymm hge hle

theorem findLongestHybridHit_hitOf (hreserved : NullReserved m.blockPool)
    (hspecs : ∀ manager ∈ m.singleTypeManagers,
      m.specs[manager.groupId]? = some manager.spec) (maxCacheHitLength : ℕ) :
    Ensures (fun _ => True) (fun out => List.Forall₂ (HitOf out.2) m.singleTypeManagers out.1)
      (m.findLongestHybridHit hashes maxCacheHitLength) := by
  have hstart : Searched (attentionGroups m.specs)
      ⟨maxCacheHitLength, (attentionGroups m.specs).map fun _ => none, []⟩ := by
    refine ⟨(List.length_map ..).symm, fun idx group rows _ hrows => ?_⟩
    rw [List.getElem?_map, Option.map_eq_some_iff] at hrows
    obtain ⟨_, -, hnone⟩ := hrows
    cases hnone
  unfold findLongestHybridHit
  refine (searchRounds_found hreserved maxCacheHitLength (attentionGroups m.specs) _
    ⟨maxCacheHitLength, _, []⟩ (Nat.lt_succ_self _) hstart).bind fun s h => .ok ?_
  obtain ⟨hnulls, hwindows⟩ := h
  refine List.forall₂_map_right_iff.mpr (List.forall₂_same.mpr fun manager hmanager => ?_)
  dsimp only
  have hgroup : ∀ found, NullGroups (attentionGroups m.specs) found →
      (∀ idx, WindowFound (attentionGroups m.specs) found s.currHitLength s.currHitLength idx) →
      HitOf s.currHitLength manager
        (groupHits (attentionGroups m.specs) found manager.groupId) :=
    fun found hnulls hwindows => hitOf_groupHits hnulls hwindows (hspecs manager hmanager)
  split
  · next group first rest hhead hrows =>
      rw [List.head?_eq_getElem?] at hhead
      split
      · next hfull =>
          -- Only full attention is cut.
          rw [hrows] at hnulls hwindows
          refine hgroup _ (fun idx group' rows hgroup' hcut => ?_)
            fun idx group' hgroup' hwindow => ?_
          · cases idx with
            | zero =>
                obtain rfl := Option.some.inj (Option.some.inj hcut)
                obtain ⟨k, hk⟩ := hnulls 0 group' first hgroup' rfl
                exact ⟨k, hk.take _⟩
            | succ idx => exact hnulls (idx + 1) group' rows hgroup' hcut
          · cases idx with
            | zero =>
                obtain rfl := Option.some.inj (hhead.symm.trans hgroup')
                rw [hwindow] at hfull
                cases hfull
            | succ idx => exact hwindows (idx + 1) group' hgroup' hwindow
      · exact hgroup _ hnulls hwindows
  · exact hgroup _ hnulls hwindows

/-- Every hit that a manager reports starts with its placeholders, and that of a window or chunk
is as long as its tokens. -/
theorem getComputedBlocks_hitOf (hreserved : NullReserved m.blockPool)
    (hspecs : ∀ manager ∈ m.singleTypeManagers,
      m.specs[manager.groupId]? = some manager.spec) (request : Request η) :
    Ensures (fun _ => True) (fun out => List.Forall₂ (HitOf out.2) m.singleTypeManagers out.1)
      (m.getComputedBlocks request) := by
  unfold getComputedBlocks
  split
  · exact .ok (List.forall₂_map_right_iff.mpr (List.forall₂_same.mpr fun manager _ => .nil manager))
  · split
    · next manager hmanagers =>
        unfold findLongestUnitaryHit
        refine (findLongestCacheHit_nullUpTo
          (fun i row (h : m.lookupRow request.blockHashes ⟨manager.spec, [0]⟩ i = some row) =>
            lookupRow_cachedRow hreserved h) _ _ _ _).bind fun rows h => .ok ?_
        obtain ⟨k, hk⟩ := h
        rw [hmanagers]
        refine .cons ⟨hk.column Nat.zero_lt_one, fun _ => ?_⟩ .nil
        rw [List.length_map]
    · exact findLongestHybridHit_hitOf hreserved hspecs _

end Search

end TokenCake.KV
