import Mathlib
import TokenCake.Verification.KVCache.Masking

/-! # The hit length under the mask

The length of a hit depends on which blocks are found, not on the blocks. A window that ends at the
alignment asks for no masked block, unless its last block is dropped for EAGLE. -/

namespace TokenCake.KV

variable {η : Type} [DecidableEq η]

/-! ## Lookups that find the same blocks -/

section Lengths

variable {lookup lookup' : ℕ → Option Row} {rows rows' : List Row} {blockSize alignment : ℕ}

theorem length_hitsFrom_congr (h : ∀ i, (lookup i).isSome = (lookup' i).isSome) (i n : ℕ) :
    (hitsFrom lookup i n).length = (hitsFrom lookup' i n).length := by
  induction n generalizing i with
  | zero => rfl
  | succ n ih =>
      unfold hitsFrom
      have hi := h i
      cases hfound : lookup i with
      | none =>
          rw [hfound, Option.isSome_none, eq_comm, Option.isSome_eq_false_iff,
            Option.isNone_iff_eq_none] at hi
          rw [hi]
      | some row =>
          rw [hfound, Option.isSome_some, eq_comm, Option.isSome_iff_exists] at hi
          obtain ⟨row', hrow'⟩ := hi
          rw [hrow']
          exact congrArg (· + 1) (ih (i + 1))

theorem length_alignRows_congr (h : rows.length = rows'.length) :
    (alignRows blockSize alignment rows).length = (alignRows blockSize alignment rows').length := by
  rw [alignRows, alignRows, List.length_take, List.length_take, h]

theorem length_fullAttentionHit_congr (h : ∀ i, (lookup i).isSome = (lookup' i).isSome)
    (maxLength : ℕ) (useEagle : Bool) :
    (fullAttentionHit lookup blockSize maxLength alignment useEagle).length =
      (fullAttentionHit lookup' blockSize maxLength alignment useEagle).length := by
  have hlength := length_hitsFrom_congr h 0 (maxLength / blockSize)
  apply length_alignRows_congr
  cases useEagle with
  | false => exact hlength
  | true =>
      rw [if_pos rfl, if_pos rfl, List.length_dropLast, List.length_dropLast, hlength]

variable (blockSize alignment) in
theorem scanWindow_congr (h : ∀ i, (lookup i).isSome = (lookup' i).isSome) (c : ℕ)
    (useEagle : Bool) (i contiguous : ℕ) (hrows : rows.length = rows'.length) :
    (scanWindow lookup blockSize alignment c useEagle i rows contiguous).1.length =
        (scanWindow lookup' blockSize alignment c useEagle i rows' contiguous).1.length ∧
      (scanWindow lookup blockSize alignment c useEagle i rows contiguous).2 =
        (scanWindow lookup' blockSize alignment c useEagle i rows' contiguous).2 := by
  induction i generalizing rows rows' contiguous with
  | zero => exact ⟨hrows, rfl⟩
  | succ i ih =>
      unfold scanWindow
      have hi := h i
      cases hfound : lookup i with
      | none =>
          rw [hfound, Option.isSome_none, eq_comm, Option.isSome_eq_false_iff,
            Option.isNone_iff_eq_none] at hi
          rw [hi]
          exact ih 0 hrows
      | some row =>
          rw [hfound, Option.isSome_some, eq_comm, Option.isSome_iff_exists] at hi
          obtain ⟨row', hrow'⟩ := hi
          rw [hrow']
          dsimp only
          generalize (if useEagle then i else i + 1) = postPopBlocks
          have hset : (rows.set i row).length = (rows'.set i row').length := by
            rw [List.length_set, List.length_set, hrows]
          split
          · exact ih contiguous hrows
          · split
            · exact ⟨by rw [List.length_take, List.length_take, hset], rfl⟩
            · exact ih (contiguous + 1) hset

theorem length_slidingWindowHit_congr (h : ∀ i, (lookup i).isSome = (lookup' i).isSome)
    (w numGroups maxLength : ℕ) (useEagle : Bool) :
    (slidingWindowHit lookup w numGroups blockSize maxLength alignment useEagle).length =
      (slidingWindowHit lookup' w numGroups blockSize maxLength alignment useEagle).length := by
  obtain ⟨hlength, hrest⟩ := scanWindow_congr blockSize alignment h
    ((w - 1) ⌈/⌉ blockSize + if useEagle then 1 else 0) useEagle (maxLength / blockSize) 0
    (rfl : (List.replicate (maxLength / blockSize) (List.replicate numGroups nullBlock)).length = _)
  unfold slidingWindowHit
  dsimp only
  generalize scanWindow lookup blockSize alignment _ useEagle (maxLength / blockSize) _ 0 = found
    at hlength hrest ⊢
  generalize scanWindow lookup' blockSize alignment _ useEagle (maxLength / blockSize) _ 0 = found'
    at hlength hrest ⊢
  obtain ⟨rows, contiguous, matchFound⟩ := found
  obtain ⟨rows', contiguous', matchFound'⟩ := found'
  obtain ⟨rfl, rfl⟩ := Prod.mk.inj hrest
  -- The rows before the last block is dropped.
  have hbefore : (if matchFound then rows
        else alignRows blockSize alignment (rows.take contiguous)).length =
      (if matchFound then rows'
        else alignRows blockSize alignment (rows'.take contiguous)).length := by
    cases matchFound with
    | true => exact hlength
    | false =>
        apply length_alignRows_congr
        rw [List.length_take, List.length_take, hlength]
  dsimp only
  generalize (if matchFound then rows
    else alignRows blockSize alignment (rows.take contiguous)) = before at hbefore ⊢
  generalize (if matchFound then rows'
    else alignRows blockSize alignment (rows'.take contiguous)) = before' at hbefore ⊢
  have hnil : before = [] ↔ before' = [] := by
    rw [← List.length_eq_zero_iff, ← List.length_eq_zero_iff, hbefore]
  by_cases hdrop : useEagle = true ∧ before ≠ []
  · rw [if_pos hdrop, if_pos ⟨hdrop.1, fun hempty => hdrop.2 (hnil.mpr hempty)⟩]
    apply length_alignRows_congr
    rw [List.length_dropLast, List.length_dropLast, hbefore]
  · rw [if_neg hdrop, if_neg fun hdrop' => hdrop ⟨hdrop'.1, fun hempty =>
      hdrop'.2 (hnil.mp hempty)⟩, hbefore]

theorem length_findLongestCacheHit_congr (h : ∀ i, (lookup i).isSome = (lookup' i).isSome)
    (spec : KVCacheSpec) (numGroups maxLength : ℕ) (useEagle : Bool) :
    (findLongestCacheHit spec lookup numGroups maxLength alignment useEagle).map List.length =
      (findLongestCacheHit spec lookup' numGroups maxLength alignment useEagle).map
        List.length := by
  unfold findLongestCacheHit
  cases spec.kind with
  | fullAttention => exact congrArg Except.ok (length_fullAttentionHit_congr h maxLength useEagle)
  | slidingWindow w =>
      exact congrArg Except.ok (length_slidingWindowHit_congr h w numGroups maxLength useEagle)
  | chunkedLocal c =>
      dsimp only
      unfold chunkedLocalHit
      split
      · rfl
      · refine congrArg Except.ok ?_
        rw [List.length_append, List.length_append, length_hitsFrom_congr h]

/-- The blocks of a window before an aligned end are outside the mask. -/
theorem not_skips_of_window {spec : KVCacheSpec} {w n i : ℕ}
    (hkind : spec.kind = .slidingWindow w) (hdvd : spec.blockSize ∣ alignment)
    (haligned : alignment ∣ n * spec.blockSize) (hi : n - (w - 1) ⌈/⌉ spec.blockSize ≤ i)
    (hlt : i < n) : ¬spec.Skips alignment i := by
  rintro ⟨w', hkind', -, htail, hskip⟩
  rw [hkind] at hkind'
  cases hkind'
  have hpos := spec.blockSize_pos
  generalize hper : alignment / spec.blockSize = perSegment at htail hskip
  have hn : perSegment ∣ n := by
    have hmul : perSegment * spec.blockSize = alignment := by
      rw [← hper, Nat.div_mul_cancel hdvd]
    rw [← hmul] at haligned
    exact Nat.dvd_of_mul_dvd_mul_right hpos haligned
  obtain ⟨q, rfl⟩ := hn
  have hdiv := Nat.div_add_mod i perSegment
  -- The segment of `i` ends at or before the end of the window.
  have hquot : i / perSegment < q :=
    (Nat.div_lt_iff_lt_mul (by omega)).mpr (by rwa [Nat.mul_comm])
  have hend : perSegment * (i / perSegment + 1) ≤ perSegment * q := Nat.mul_le_mul_left _ hquot
  rw [Nat.mul_add, Nat.mul_one] at hend
  omega

/-- A window without EAGLE asks for blocks outside the mask only. -/
theorem length_findLongestCacheHit_masked {spec : KVCacheSpec} {w : ℕ}
    (hkind : spec.kind = .slidingWindow w) (hw : 2 ≤ w) (hdvd : spec.blockSize ∣ alignment)
    (h : ∀ i, ¬spec.Skips alignment i → (lookup i).isSome = (lookup' i).isSome)
    (numGroups maxLength : ℕ) :
    (findLongestCacheHit spec lookup numGroups maxLength alignment false).map List.length =
      (findLongestCacheHit spec lookup' numGroups maxLength alignment false).map
        List.length := by
  obtain ⟨n, hfind, hgreatest⟩ := findLongestCacheHit_greatest lookup
    (.inr ⟨w, hw, hkind⟩) numGroups maxLength alignment
  obtain ⟨n', hfind', hgreatest'⟩ := findLongestCacheHit_greatest lookup'
    (.inr ⟨w, hw, hkind⟩) numGroups maxLength alignment
  have hsets : {n | n * spec.blockSize ≤ maxLength ∧ alignment ∣ n * spec.blockSize ∧
        Covers lookup (spec.neededFrom n) n} =
      {n | n * spec.blockSize ≤ maxLength ∧ alignment ∣ n * spec.blockSize ∧
        Covers lookup' (spec.neededFrom n) n} := by
    ext k
    refine and_congr_right fun _ => and_congr_right fun haligned => ?_
    refine forall_congr' fun i => forall_congr' fun hi => forall_congr' fun hlt => ?_
    rw [KVCacheSpec.neededFrom, hkind] at hi
    rw [h i (not_skips_of_window hkind hdvd haligned hi hlt)]
  rw [hsets] at hgreatest
  rw [hfind, hfind', hgreatest.unique hgreatest']
  simp [Except.map]

end Lengths

/-! ## Two searches in step -/

namespace KVCacheManager

/-- What the length of the result depends on. -/
def HitSearch.shape (s : HitSearch) : ℕ × List Bool × List ℕ :=
  (s.currHitLength, s.rows.map Option.isSome, s.eagleVerified)

/-- Loops whose steps agree on what is observed agree on it. -/
theorem foldlM_observe {σ α τ ε : Type} (observe : σ → τ) (f f' : σ → α → Except ε σ)
    (items : List α) (h : ∀ a ∈ items, ∀ s s', observe s = observe s' →
      (f s a).map observe = (f' s' a).map observe)
    {s s' : σ} (hs : observe s = observe s') :
    (items.foldlM f s).map observe = (items.foldlM f' s').map observe := by
  induction items generalizing s s' with
  | nil => exact congrArg Except.ok hs
  | cons a items ih =>
      obtain ⟨ha, hrest⟩ := List.forall_mem_cons.mp h
      have hstep := ha s s' hs
      rw [List.foldlM_cons, List.foldlM_cons]
      cases hf : f s a with
      | error e =>
          cases hf' : f' s' a with
          | error e' =>
              rw [hf, hf'] at hstep
              exact congrArg Except.error (Except.error.inj hstep)
          | ok t' =>
              rw [hf, hf'] at hstep
              cases hstep
      | ok t =>
          cases hf' : f' s' a with
          | error e' =>
              rw [hf, hf'] at hstep
              cases hstep
          | ok t' =>
              rw [hf, hf'] at hstep
              exact ih hrest (Except.ok.inj hstep)

section Search

variable {m m' : KVCacheManager η} {hashes : List η} {maxCacheHitLength : ℕ}

/-- The lookups of an attention group in two managers give hits of the same length. -/
def SameLookups (m m' : KVCacheManager η) (hashes : List η) (group : AttentionGroup) : Prop :=
  ∀ maxLength useEagle,
    (useEagle = true → ∃ id ∈ group.groupIds, id ∈ m.eagleGroupIds) →
      (findLongestCacheHit group.spec (m.lookupRow hashes group) group.groupIds.length maxLength
          m.lcmBlockSize useEagle).map List.length =
        (findLongestCacheHit group.spec (m'.lookupRow hashes group) group.groupIds.length
          maxLength m.lcmBlockSize useEagle).map List.length

theorem isSome_getD (rows : List (Option (List Row))) (idx : ℕ) :
    (rows.getD idx none).isSome = (rows.map Option.isSome).getD idx false := by
  rw [List.getD_eq_getElem?_getD, List.getD_eq_getElem?_getD, List.getElem?_map]
  cases rows[idx]? <;> rfl

theorem searchGroup_shape (heagle : m'.eagleGroupIds = m.eagleGroupIds)
    (hlcm : m'.lcmBlockSize = m.lcmBlockSize) {group : AttentionGroup}
    (hgroup : SameLookups m m' hashes group) (idx : ℕ) {s s' : HitSearch}
    (hs : s.shape = s'.shape) :
    (m.searchGroup hashes maxCacheHitLength s (group, idx)).map HitSearch.shape =
      (m'.searchGroup hashes maxCacheHitLength s' (group, idx)).map HitSearch.shape := by
  obtain ⟨hlength, hpair⟩ := Prod.mk.inj hs
  obtain ⟨hrows, hverified⟩ := Prod.mk.inj hpair
  have hfound : (s.rows.getD idx none).isSome = (s'.rows.getD idx none).isSome := by
    rw [isSome_getD, isSome_getD, hrows]
  unfold searchGroup
  dsimp only
  rw [← hfound, ← hlength, ← hverified, heagle, hlcm]
  split
  · refine congrArg Except.ok ?_
    simp only [HitSearch.shape, hrows, hverified]
  · generalize huse : (group.groupIds.any (fun x => decide (x ∈ m.eagleGroupIds)) &&
      !(s.eagleVerified.contains idx)) = useEagle
    have hsome : useEagle = true → ∃ id ∈ group.groupIds, id ∈ m.eagleGroupIds := by
      intro htrue
      rw [htrue, Bool.and_eq_true] at huse
      obtain ⟨id, hid, hmem⟩ := List.any_eq_true.mp huse.1
      exact ⟨id, hid, of_decide_eq_true hmem⟩
    generalize (if useEagle = true then
      min (s.currHitLength + group.spec.blockSize) maxCacheHitLength
        else s.currHitLength) = maxLength
    have hsame := hgroup maxLength useEagle hsome
    dsimp only [bind, Except.bind]
    cases hfind : findLongestCacheHit group.spec (m.lookupRow hashes group)
        group.groupIds.length maxLength m.lcmBlockSize useEagle with
    | error e =>
        cases hfind' : findLongestCacheHit group.spec (m'.lookupRow hashes group)
            group.groupIds.length maxLength m.lcmBlockSize useEagle with
        | error e' =>
            rw [hfind, hfind'] at hsame
            exact congrArg Except.error (Except.error.inj hsame)
        | ok rows' =>
            rw [hfind, hfind'] at hsame
            cases hsame
    | ok rows =>
        cases hfind' : findLongestCacheHit group.spec (m'.lookupRow hashes group)
            group.groupIds.length maxLength m.lcmBlockSize useEagle with
        | error e' =>
            rw [hfind, hfind'] at hsame
            cases hsame
        | ok rows' =>
            rw [hfind, hfind'] at hsame
            have hrows' : rows.length = rows'.length := Except.ok.inj hsame
            refine congrArg Except.ok ?_
            simp only [HitSearch.shape, List.map_set, Option.isSome_some, hrows, hrows']

variable (maxCacheHitLength) in
theorem searchRounds_shape (heagle : m'.eagleGroupIds = m.eagleGroupIds)
    (hlcm : m'.lcmBlockSize = m.lcmBlockSize) {groups : List AttentionGroup}
    (hgroups : ∀ group ∈ groups, SameLookups m m' hashes group) (fuel : ℕ) {s s' : HitSearch}
    (hs : s.shape = s'.shape) :
    (m.searchRounds hashes maxCacheHitLength groups fuel s).map HitSearch.shape =
      (m'.searchRounds hashes maxCacheHitLength groups fuel s').map HitSearch.shape := by
  induction fuel generalizing s s' with
  | zero => exact congrArg Except.ok hs
  | succ fuel ih =>
      have hround := foldlM_observe HitSearch.shape
        (m.searchGroup hashes maxCacheHitLength) (m'.searchGroup hashes maxCacheHitLength) groups.zipIdx (fun item hitem s s' hs =>
          searchGroup_shape heagle hlcm
            (hgroups item.1 (List.fst_mem_of_mem_zipIdx hitem)) item.2 hs) hs
      have hlength : s.currHitLength = s'.currHitLength := congrArg Prod.fst hs
      unfold searchRounds
      cases hf : groups.zipIdx.foldlM (m.searchGroup hashes maxCacheHitLength) s with
      | error e =>
          cases hf' : groups.zipIdx.foldlM (m'.searchGroup hashes maxCacheHitLength) s' with
          | error e' =>
              rw [hf, hf'] at hround
              exact congrArg Except.error (Except.error.inj hround)
          | ok t' =>
              rw [hf, hf'] at hround
              cases hround
      | ok t =>
          cases hf' : groups.zipIdx.foldlM (m'.searchGroup hashes maxCacheHitLength) s' with
          | error e' =>
              rw [hf, hf'] at hround
              cases hround
          | ok t' =>
              rw [hf, hf'] at hround
              have ht : t.shape = t'.shape := Except.ok.inj hround
              obtain ⟨htlength, htrest⟩ := Prod.mk.inj ht
              dsimp only [bind, Except.bind]
              rw [← hlength, ← htlength]
              split
              · refine congrArg Except.ok ?_
                exact congrArg (Prod.mk s.currHitLength) htrest
              · split
                · exact congrArg Except.ok ht
                · exact ih ht

/-- Managers whose attention groups find hits of the same length report the same length. -/
theorem hitLength_congr (hspecs : m'.specs = m.specs)
    (heagle : m'.eagleGroupIds = m.eagleGroupIds)
    (hgroups : ∀ group ∈ attentionGroups m.specs, SameLookups m m' hashes group)
    (maxCacheHitLength : ℕ) :
    (m.findLongestHybridHit hashes maxCacheHitLength).map Prod.snd =
      (m'.findLongestHybridHit hashes maxCacheHitLength).map Prod.snd := by
  have hlcm : m'.lcmBlockSize = m.lcmBlockSize := by
    rw [lcmBlockSize, lcmBlockSize, hspecs]
  have hshape := searchRounds_shape maxCacheHitLength heagle hlcm hgroups
    (maxCacheHitLength + 1)
    (rfl : (startSearch (attentionGroups m.specs) maxCacheHitLength).shape = _)
  have hlength : ∀ m : KVCacheManager η,
      (m.findLongestHybridHit hashes maxCacheHitLength).map Prod.snd =
        ((m.searchRounds hashes maxCacheHitLength (attentionGroups m.specs)
          (maxCacheHitLength + 1) (startSearch (attentionGroups m.specs) maxCacheHitLength)).map
            HitSearch.shape).map Prod.fst := by
    intro m
    unfold findLongestHybridHit startSearch
    dsimp only [bind, Except.bind]
    cases m.searchRounds hashes maxCacheHitLength (attentionGroups m.specs)
      (maxCacheHitLength + 1) ⟨maxCacheHitLength, (attentionGroups m.specs).map fun _ => none, []⟩ <;>
      rfl
  rw [hlength, hlength, hshape, hspecs]

end Search

/-! ## The mask loses no hit -/

section Masked

variable {β : Type} {hash : η → β → η} {base : η} {m₀ m all : KVCacheManager η}
  {hashes : List η} {group : AttentionGroup}

/-- A window whose blocks are masked is of at least two tokens, and its groups are not EAGLE
groups. -/
def MasksSpareEagle (m : KVCacheManager η) : Prop :=
  ∀ (i : ℕ) spec w, m.specs[i]? = some spec → spec.kind = .slidingWindow w →
    spec.blockSize < m.lcmBlockSize →
      (w - 1) ⌈/⌉ spec.blockSize < m.lcmBlockSize / spec.blockSize →
        2 ≤ w ∧ i ∉ m.eagleGroupIds

/-- No two blocks collide, and none has the hash that the first block takes as its parent. -/
structure CollisionFree (hash : η → β → η) (base : η) : Prop where
  injective : Function.Injective2 hash
  ne_base : ∀ h b, hash h b ≠ base

omit [DecidableEq η] in
theorem groupHash_head {scale i : ℕ} (hscale : 0 < scale) {joined : List η}
    (h : BlockPool.groupHash hashes scale i = some joined) :
    joined.head? = hashes[i * scale]? := by
  unfold BlockPool.groupHash at h
  split at h
  · obtain rfl := Option.some.inj h
    rw [List.head?_take, if_neg (by omega), List.head?_drop]
  · cases h

omit [DecidableEq η] in
/-- A joined hash stands for one index only. -/
theorem groupHash_index (hfree : CollisionFree hash base) {hashes' : List η}
    (hchained : Chained hash base hashes) (hchained' : Chained hash base hashes') {scale i j : ℕ}
    (hscale : 0 < scale) {joined : List η}
    (hi : BlockPool.groupHash hashes scale i = some joined)
    (hj : BlockPool.groupHash hashes' scale j = some joined) : i = j := by
  obtain ⟨blocks, rfl⟩ := hchained
  obtain ⟨blocks', rfl⟩ := hchained'
  have hhead := groupHash_head hscale hi
  have hhead' := groupHash_head hscale hj
  have hlt : i * scale < (hashChain hash base blocks).length := by
    unfold BlockPool.groupHash at hi
    split at hi
    · next hle =>
        rw [Nat.succ_mul] at hle
        omega
    · cases hi
  rw [List.getElem?_eq_getElem hlt] at hhead
  have hindex := hashChain.index_eq hfree.injective hfree.ne_base (List.getElem?_eq_getElem hlt)
    (hhead'.symm.trans hhead)
  exact Nat.eq_of_mul_eq_mul_right hscale hindex

theorem isSome_lookupRow_iff {i : ℕ} : (m.lookupRow hashes group i).isSome = true ↔
    ∃ joined, BlockPool.groupHash hashes (group.spec.blockSize / m.blockPool.hashBlockSize) i =
      some joined ∧ ∀ id ∈ group.groupIds, m.blockPool.IsCached (joined, id) := by
  unfold lookupRow
  cases BlockPool.groupHash hashes (group.spec.blockSize / m.blockPool.hashBlockSize) i with
  | none => simp
  | some joined =>
      refine (isSome_mapM_iff _ group.groupIds).trans ?_
      simp only [isSome_getOneBlock, Option.some.injEq, exists_eq_left']

/-- Outside the mask, both managers find the same blocks. -/
theorem MaskedManager.isSome_lookupRow (h : MaskedManager hash base m₀ m all)
    (hfree : CollisionFree hash base) (hchained : Chained hash base hashes)
    (hgroup : group ∈ attentionGroups m₀.specs)
    (hsize : group.spec.blockSize % m₀.blockPool.hashBlockSize = 0) {i : ℕ}
    (hkept : ¬group.spec.Skips m₀.lcmBlockSize i) :
    (m.lookupRow hashes group i).isSome = (all.lookupRow hashes group i).isSome := by
  have hscale : 0 < group.spec.blockSize / m₀.blockPool.hashBlockSize := by
    have hpos := group.spec.blockSize_pos
    refine Nat.div_pos (Nat.le_of_dvd hpos (Nat.dvd_of_mod_eq_zero hsize)) ?_
    rw [Nat.pos_iff_ne_zero]
    intro hzero
    rw [hzero, Nat.mod_zero] at hsize
    omega
  rw [Bool.eq_iff_iff, isSome_lookupRow_iff, isSome_lookupRow_iff, h.pool.hashBlockSize,
    h.pool.hashBlockSize_all]
  refine exists_congr fun joined => and_congr_right fun hjoined => ?_
  refine forall_congr' fun id => forall_congr' fun hid => ⟨h.pool.cached _, fun hcached => ?_⟩
  refine (h.pool.masked _ hcached).resolve_right ?_
  rintro ⟨hashes', spec, j, hchained', hspec, hskips, hj⟩
  obtain rfl : group.spec = spec :=
    Option.some.inj (((mem_groupIds hgroup).mp hid).symm.trans hspec)
  obtain rfl := groupHash_index hfree hchained hchained' hscale hjoined hj
  exact hkept hskips

theorem MaskedManager.sameLookups (h : MaskedManager hash base m₀ m all)
    (hfree : CollisionFree hash base) (hchained : Chained hash base hashes)
    (hspare : m₀.MasksSpareEagle) (hgroup : group ∈ attentionGroups m₀.specs)
    (hsize : group.spec.blockSize % m₀.blockPool.hashBlockSize = 0) :
    SameLookups m all hashes group := by
  have hspecs : m.specs = m₀.specs := h.groups.specs
  have hlcm : m.lcmBlockSize = m₀.lcmBlockSize := by
    rw [lcmBlockSize, lcmBlockSize, hspecs]
  intro maxLength useEagle heagle
  rw [hlcm]
  by_cases hmask : ∃ i, group.spec.Skips m₀.lcmBlockSize i
  · obtain ⟨i, w, hkind, hlt, htail, -⟩ := hmask
    have hw : 2 ≤ w := by
      obtain ⟨id, hid⟩ :=
        List.exists_mem_of_ne_nil _ ((attentionGroups_grouped m₀.specs).nonempty group hgroup)
      exact (hspare id group.spec w ((mem_groupIds hgroup).mp hid) hkind hlt htail).1
    have hnoEagle : useEagle = false := by
      rw [← Bool.not_eq_true]
      intro htrue
      obtain ⟨id, hid, hmem⟩ := heagle htrue
      rw [h.eagle] at hmem
      exact (hspare id group.spec w ((mem_groupIds hgroup).mp hid) hkind hlt htail).2 hmem
    rw [hnoEagle]
    exact length_findLongestCacheHit_masked hkind hw
      (dvd_lcmBlockSize (spec_mem_of_mem_attentionGroups hgroup))
      (fun i hkept => h.isSome_lookupRow hfree hchained hgroup hsize hkept) _ _
  · apply length_findLongestCacheHit_congr
    intro i
    exact h.isSome_lookupRow hfree hchained hgroup hsize fun hskips => hmask ⟨i, hskips⟩

/-- After any calls of `cache_blocks`, the mask loses no hit of any request as long as the masked
windows are not those of EAGLE groups. -/
theorem hitLength_masked {config : KVCacheConfig} {calls : List (CacheCall η)}
    (hfree : CollisionFree hash base) (hnew : new config = .ok m₀)
    (hcaching : config.enableCaching = true) (hgroups : config.kvCacheGroups.length ≠ 1)
    (hspare : m₀.MasksSpareEagle) (hcalls : CallsOf hash base m₀ calls)
    (hmasked : cacheRun cacheCoordinatedBlocks m₀ calls = .ok m)
    (hall : cacheRun cacheAllBlocks m₀ calls = .ok all) (hchained : Chained hash base hashes)
    (maxCacheHitLength : ℕ) :
    (m.findLongestHybridHit hashes maxCacheHitLength).map Prod.snd =
      (all.findLongestHybridHit hashes maxCacheHitLength).map Prod.snd := by
  obtain ⟨hids, hhybrid, hsizes⟩ := new_groups hnew hcaching hgroups
  have hstart : MaskedManager hash base m₀ m₀ m₀ :=
    ⟨⟨rfl, rfl⟩, ⟨rfl, rfl⟩, rfl, rfl, rfl, rfl, rfl, fun _ h => h, fun _ h => .inl h⟩
  have hrun := hstart.run calls hhybrid hids hcalls hmasked hall
  have hspecs : m.specs = m₀.specs := hrun.groups.specs
  have hspecsAll : all.specs = m₀.specs := hrun.groups_all.specs
  refine hitLength_congr (hspecsAll.trans hspecs.symm) (hrun.eagle_all.trans hrun.eagle.symm) ?_ _
  intro group hgroup
  rw [hspecs] at hgroup
  exact hrun.sameLookups hfree hchained hspare hgroup
    (hsizes _ (spec_mem_of_mem_attentionGroups hgroup))

end Masked

/-! ## An EAGLE window under the mask -/

section EagleWindow

/-- Full attention with blocks of four tokens and a window of three with blocks of one. -/
def windowConfig (eagleGroupIds : List ℕ) : KVCacheConfig where
  numBlocks := 16
  kvCacheGroups := [⟨.fullAttention, 4, by decide, 0⟩, ⟨.slidingWindow 3, 1, Nat.one_pos, 0⟩]
  maxModelLen := 64
  maxNumBatchedTokens := 64
  enableCaching := true
  hashBlockSize := 1
  eagleGroupIds := eagleGroupIds

/-- Hashes that are the list of blocks they stand for. -/
def listHash (parent : List ℕ) (token : ℕ) : List ℕ := token :: parent

theorem listHash_collisionFree : CollisionFree listHash [] where
  injective := by
    intro h h' b b' heq
    obtain ⟨rfl, rfl⟩ := List.cons.inj heq
    exact ⟨rfl, rfl⟩
  ne_base := fun h b => List.cons_ne_nil b h

def twelveHashes : List (List ℕ) := hashChain listHash [] (List.range 12)

/-- A request of twelve tokens that holds all blocks of the pool. -/
def windowCall : CacheCall (List ℕ) where
  request := { requestId := "p", numTokens := 12, blockHashes := twelveHashes }
  numComputedTokens := 12
  managers := [
    ⟨⟨.fullAttention, 4, by decide, 0⟩, 0, none, OrdDict.empty.insert "p" [1, 2, 3], .empty⟩,
    ⟨⟨.slidingWindow 3, 1, Nat.one_pos, 0⟩, 1, none,
      OrdDict.empty.insert "p" (List.range' 4 12), .empty⟩]

/-- The hit lengths of the same tokens afterwards, with and without the mask. -/
def windowLengths (eagleGroupIds : List ℕ) : Except KVError (ℕ × ℕ) := do
  let m₀ ← new (windowConfig eagleGroupIds)
  let m ← cacheRun cacheCoordinatedBlocks m₀ [windowCall]
  let all ← cacheRun cacheAllBlocks m₀ [windowCall]
  let masked ← m.findLongestHybridHit twelveHashes 11
  let unmasked ← all.findLongestHybridHit twelveHashes 11
  return (masked.2, unmasked.2)

variable {eagleGroupIds : List ℕ} {m₀ : KVCacheManager (List ℕ)}

theorem windowConfig_new (hnew : new (windowConfig eagleGroupIds) = .ok m₀) :
    m₀.specs = (windowConfig eagleGroupIds).kvCacheGroups ∧ m₀.eagleGroupIds = eagleGroupIds ∧
      CallsOf listHash [] m₀ [windowCall] := by
  unfold new at hnew
  dsimp only at hnew
  split at hnew
  · obtain rfl := Except.ok.inj hnew
    refine ⟨rfl, rfl, ?_⟩
    intro call hcall
    obtain rfl := List.mem_singleton.mp hcall
    exact ⟨⟨List.range 12, rfl⟩, rfl, rfl⟩
  · cases hnew

/-- The managers behind the two lengths. -/
theorem windowLengths_managers {masked unmasked : ℕ}
    (h : (windowLengths eagleGroupIds).toOption = some (masked, unmasked)) :
    ∃ m₀ m all, new (windowConfig eagleGroupIds) = .ok m₀ ∧
      cacheRun cacheCoordinatedBlocks m₀ [windowCall] = .ok m ∧
      cacheRun cacheAllBlocks m₀ [windowCall] = .ok all ∧
      (m.findLongestHybridHit twelveHashes 11).map Prod.snd = .ok masked ∧
      (all.findLongestHybridHit twelveHashes 11).map Prod.snd = .ok unmasked := by
  unfold windowLengths at h
  cases hnew : new (η := List ℕ) (windowConfig eagleGroupIds) with
  | error e => simp [hnew, bind, Except.bind, Except.toOption] at h
  | ok m₀ =>
      cases hmasked : cacheRun cacheCoordinatedBlocks m₀ [windowCall] with
      | error e => simp [hnew, hmasked, bind, Except.bind, Except.toOption] at h
      | ok m =>
          cases hall : cacheRun cacheAllBlocks m₀ [windowCall] with
          | error e => simp [hnew, hmasked, hall, bind, Except.bind, Except.toOption] at h
          | ok all =>
              cases hfind : m.findLongestHybridHit twelveHashes 11 with
              | error e =>
                  simp [hnew, hmasked, hall, hfind, bind, Except.bind, Except.toOption] at h
              | ok result =>
                  cases hfindAll : all.findLongestHybridHit twelveHashes 11 with
                  | error e =>
                      simp [hnew, hmasked, hall, hfind, hfindAll, bind, Except.bind,
                        Except.toOption] at h
                  | ok resultAll =>
                      simp only [hnew, hmasked, hall, hfind, hfindAll, bind, Except.bind, pure,
                        Except.pure, Except.toOption, Option.some.injEq, Prod.mk.injEq] at h
                      obtain ⟨rfl, rfl⟩ := h
                      exact ⟨m₀, m, all, rfl, hmasked, hall, by rw [hfind]; rfl,
                        by rw [hfindAll]; rfl⟩

/-- If the window is an EAGLE group, the mask loses its hit of eight tokens. -/
theorem eagleWindow_loses_hit : ∃ m₀ m all, new (windowConfig [1]) = .ok m₀ ∧
    CallsOf listHash [] m₀ [windowCall] ∧
    cacheRun cacheCoordinatedBlocks m₀ [windowCall] = .ok m ∧
    cacheRun cacheAllBlocks m₀ [windowCall] = .ok all ∧
    Chained listHash [] twelveHashes ∧
    (m.findLongestHybridHit twelveHashes 11).map Prod.snd ≠
      (all.findLongestHybridHit twelveHashes 11).map Prod.snd := by
  have hlengths : (windowLengths [1]).toOption = some (0, 8) := by decide +kernel
  obtain ⟨m₀, m, all, hnew, hmasked, hall, hfind, hfindAll⟩ := windowLengths_managers hlengths
  refine ⟨m₀, m, all, hnew, (windowConfig_new hnew).2.2, hmasked, hall, ⟨_, rfl⟩, ?_⟩
  rw [hfind, hfindAll]
  decide

/-- Without EAGLE the same window keeps it. -/
theorem window_keeps_hit : ∃ m₀ m all, new (windowConfig []) = .ok m₀ ∧
    cacheRun cacheCoordinatedBlocks m₀ [windowCall] = .ok m ∧
    cacheRun cacheAllBlocks m₀ [windowCall] = .ok all ∧
    (m.findLongestHybridHit twelveHashes 11).map Prod.snd =
      (all.findLongestHybridHit twelveHashes 11).map Prod.snd ∧
    (all.findLongestHybridHit twelveHashes 11).map Prod.snd = .ok 8 := by
  have hlengths : (windowLengths []).toOption = some (8, 8) := by decide +kernel
  obtain ⟨m₀, m, all, hnew, hmasked, hall, -, hfindAll⟩ := windowLengths_managers hlengths
  obtain ⟨hspecs, heagle, hcalls⟩ := windowConfig_new hnew
  refine ⟨m₀, m, all, hnew, hmasked, hall, ?_, hfindAll⟩
  refine hitLength_masked listHash_collisionFree hnew rfl (by decide) ?_ hcalls hmasked hall
    ⟨_, rfl⟩ 11
  intro i spec w hspec hkind _ _
  rw [heagle]
  refine ⟨?_, List.not_mem_nil⟩
  have hmem := List.mem_of_getElem? hspec
  rw [hspecs] at hmem
  simp only [windowConfig, List.mem_cons, List.not_mem_nil, or_false] at hmem
  rcases hmem with rfl | rfl
  · cases hkind
  · cases hkind
    decide

end EagleWindow

end KVCacheManager

end TokenCake.KV
