import Mathlib.Data.List.Basic
import TokenCake.Verification.Preservation.Planning

/-! # Which batches can be loaded again

A load hits up to a common boundary of all groups. A batch that is cut from the candidates ends
at such a boundary, but blocks of a group without a window that were left out because some
request holds them leave holes before it. -/

namespace TokenCake.Offload

open SchedulerOffloadConfig

variable {κ η : Type} [DecidableEq κ] [DecidableEq η]

/-! ## Candidates of a group -/

namespace SnapshotView

variable {v : SnapshotView κ η}

/-- The candidates of a group are the entries before the first stale one, but for those that are
retained or shared. -/
theorem mem_groupCandidates {group : ℕ} {windowed : Bool} {c : SnapshotBlock κ} :
    ∀ {entries : List (SnapshotEntry κ η)} {start : ℕ},
      c ∈ v.groupCandidates group windowed start entries →
      c.group = group ∧ ∃ n entry, c.index = start + n ∧ entries[n]? = some entry ∧
        (v.isRetained entry || v.isShared group windowed entry) = false ∧
        ∀ m ≤ n, ∀ e, entries[m]? = some e → v.isStale windowed e = false := by
  intro entries
  induction entries with
  | nil => exact fun h => absurd h List.not_mem_nil
  | cons entry rest ih =>
      intro start h
      rw [groupCandidates] at h
      -- a candidate behind the first entry
      have hlater : v.isStale windowed entry = false →
          c ∈ v.groupCandidates group windowed (start + 1) rest →
          c.group = group ∧ ∃ n e, c.index = start + n ∧ (entry :: rest)[n]? = some e ∧
            (v.isRetained e || v.isShared group windowed e) = false ∧
            ∀ m ≤ n, ∀ e, (entry :: rest)[m]? = some e → v.isStale windowed e = false := by
        intro hfresh hmem
        obtain ⟨hgroup, n, e, hindex, he, hkept, hbefore⟩ := ih hmem
        refine ⟨hgroup, n + 1, e, by omega, by simpa using he, hkept, ?_⟩
        intro m hm e' he'
        cases m with
        | zero =>
            obtain rfl : entry = e' := by simpa using he'
            exact hfresh
        | succ m => exact hbefore m (by omega) e' (by simpa using he')
      split at h
      · cases h
      · next hfresh =>
        rw [Bool.not_eq_true] at hfresh
        split at h
        · exact hlater hfresh h
        · next hkept =>
          rw [Bool.not_eq_true] at hkept
          cases List.mem_cons.mp h with
          | inl heq =>
              subst heq
              refine ⟨rfl, 0, entry, rfl, rfl, hkept, ?_⟩
              intro m hm e he
              obtain rfl : m = 0 := by omega
              obtain rfl : entry = e := by simpa using he
              exact hfresh
          | inr hmem => exact hlater hfresh hmem

/-- Every entry before the first stale one is a candidate, unless it is retained or shared. -/
theorem exists_mem_groupCandidates {group : ℕ} {windowed : Bool} :
    ∀ {entries : List (SnapshotEntry κ η)} {start n : ℕ} {entry : SnapshotEntry κ η},
      entries[n]? = some entry →
      (∀ m ≤ n, ∀ e, entries[m]? = some e → v.isStale windowed e = false) →
      (v.isRetained entry || v.isShared group windowed entry) = false →
      ∃ c ∈ v.groupCandidates group windowed start entries,
        c.group = group ∧ c.index = start + n := by
  intro entries
  induction entries with
  | nil => exact fun hn => absurd hn (by simp)
  | cons first rest ih =>
      intro start n entry hn hfresh hkept
      rw [groupCandidates, if_neg (by simpa using hfresh 0 (Nat.zero_le n) first rfl)]
      cases n with
      | zero =>
          obtain rfl : first = entry := by simpa using hn
          rw [if_neg (by simpa using hkept)]
          exact ⟨_, List.mem_cons_self, rfl, rfl⟩
      | succ n =>
          obtain ⟨c, hc, hgroup, hindex⟩ := @ih (start + 1) n entry (by simpa using hn)
            (fun m hm e he => hfresh (m + 1) (by omega) e (by simpa using he)) hkept
          refine ⟨c, ?_, hgroup, by omega⟩
          split
          · exact hc
          · exact List.mem_cons_of_mem _ hc

theorem group_of_mem_candidatesOf {group : ℕ} {g : GroupOffloadConfig}
    {entries : SnapshotGroup κ η} {c : SnapshotBlock κ}
    (h : c ∈ v.candidatesOf group g entries) : c.group = group := by
  rw [candidatesOf] at h
  split at h
  · exact (mem_groupCandidates h).1
  · exact (mem_groupCandidates h).1

theorem mem_snapshotCandidates {groups : List (SnapshotGroup κ η)} {c : SnapshotBlock κ} :
    c ∈ v.snapshotCandidates groups ↔ ∃ entries g, groups[c.group]? = some entries ∧
      v.config.kvGroupConfigs[c.group]? = some g ∧ c ∈ v.candidatesOf c.group g entries := by
  rw [snapshotCandidates, List.mem_mergeSort, List.mem_flatMap]
  constructor
  · rintro ⟨⟨⟨entries, g⟩, group⟩, hmem, hc⟩
    obtain rfl := group_of_mem_candidatesOf hc
    have hzip := List.mk_mem_zipIdx_iff_getElem?.mp hmem
    rw [List.getElem?_zip_eq_some] at hzip
    exact ⟨entries, g, hzip.1, hzip.2, hc⟩
  · rintro ⟨entries, g, hentries, hg, hc⟩
    refine ⟨((entries, g), c.group), ?_, hc⟩
    rw [List.mk_mem_zipIdx_iff_getElem?, List.getElem?_zip_eq_some]
    exact ⟨hentries, hg⟩

theorem groupCandidates_pairwise (group : ℕ) (windowed : Bool) (start : ℕ)
    (entries : List (SnapshotEntry κ η)) :
    (v.groupCandidates group windowed start entries).Pairwise fun a b => a.index < b.index := by
  induction entries generalizing start with
  | nil => exact .nil
  | cons entry rest ih =>
      rw [groupCandidates]
      split
      · exact .nil
      · split
        · exact ih (start + 1)
        · refine List.pairwise_cons.mpr ⟨?_, ih (start + 1)⟩
          intro c hc
          obtain ⟨-, n, -, hindex, -⟩ := mem_groupCandidates hc
          change start < c.index
          omega

/-- A single group has one candidate for each index. -/
theorem nodup_indicesOf_single {g : GroupOffloadConfig} (hconfig : v.config.kvGroupConfigs = [g])
    (hfull : g.slidingWindowSizeInBlocks = none) (groups : List (SnapshotGroup κ η)) :
    (indicesOf 0 (v.snapshotCandidates groups)).Nodup := by
  have hnodup : ((v.snapshotCandidates groups).map (·.index)).Nodup := by
    refine ((List.mergeSort_perm _ _).map _).nodup_iff.mpr ?_
    rw [hconfig]
    cases groups with
    | nil => exact .nil
    | cons entries rest =>
        have hsorted := v.groupCandidates_pairwise 0 false 0 entries
        simp only [List.zip_cons_cons, List.zip_nil_right, List.zipIdx_cons, List.zipIdx_nil,
          List.flatMap_cons, List.flatMap_nil, List.append_nil, candidatesOf, hfull]
        exact List.pairwise_map.mpr (hsorted.imp fun h => h.ne)
  exact (List.filter_sublist.map _).nodup hnodup

theorem snapshotCandidates_sorted (groups : List (SnapshotGroup κ η)) :
    (v.snapshotCandidates groups).Pairwise fun a b => v.config.candidateLe a b = true := by
  refine List.pairwise_mergeSort ?_ ?_ _
  · intro a b c hab hbc
    simp only [candidateLe, decide_eq_true_eq] at hab hbc ⊢
    exact hab.trans hbc
  · intro a b
    simp only [candidateLe, Bool.or_eq_true, decide_eq_true_eq]
    exact le_total _ _

end SnapshotView

/-! ## The boundary -/

namespace SchedulerOffloadConfig

variable {config : SchedulerOffloadConfig}

omit [DecidableEq κ] in
theorem mem_indicesOf {group n : ℕ} {l : List (SnapshotBlock κ)} :
    n ∈ indicesOf group l ↔ ∃ c ∈ l, c.group = group ∧ c.index = n := by
  simp [indicesOf, and_assoc]

/-- What the offload configuration promises: blocks and windows are not empty. -/
structure WellFormed (config : SchedulerOffloadConfig) : Prop where
  size_pos : ∀ g ∈ config.kvGroupConfigs, 0 < g.offloadedBlockSize
  window_pos : ∀ g ∈ config.kvGroupConfigs, ∀ w ∈ g.slidingWindowSizeInBlocks, 0 < w

theorem sizeOf_eq {group : ℕ} {g : GroupOffloadConfig}
    (hg : config.kvGroupConfigs[group]? = some g) : config.sizeOf group = g.offloadedBlockSize := by
  rw [sizeOf, hg]
  rfl

theorem dvd_foldl_lcm (l : List ℕ) (a : ℕ) :
    a ∣ l.foldl Nat.lcm a ∧ ∀ x ∈ l, x ∣ l.foldl Nat.lcm a := by
  induction l generalizing a with
  | nil => exact ⟨dvd_rfl, by simp⟩
  | cons y l ih =>
      obtain ⟨hacc, hall⟩ := ih (a.lcm y)
      refine ⟨(Nat.dvd_lcm_left a y).trans hacc, ?_⟩
      intro x hx
      cases List.mem_cons.mp hx with
      | inl heq => exact heq ▸ (Nat.dvd_lcm_right a y).trans hacc
      | inr hmem => exact hall x hmem

omit [DecidableEq κ] in
/-- Every block size divides the common end. -/
theorem dvd_commonEnd {g : GroupOffloadConfig} (hg : g ∈ config.kvGroupConfigs)
    (candidates : List (SnapshotBlock κ)) :
    g.offloadedBlockSize ∣ config.commonEnd candidates := by
  refine Dvd.dvd.mul_left ?_ _
  exact (dvd_foldl_lcm _ 1).2 _ (List.mem_map_of_mem hg)

omit [DecidableEq κ] in
/-- No group ends before the common end. -/
theorem commonEnd_le {group : ℕ} {g : GroupOffloadConfig}
    (hg : config.kvGroupConfigs[group]? = some g) (candidates : List (SnapshotBlock κ)) :
    config.commonEnd candidates ≤
      ((indicesOf group candidates).max?.getD 0 + 1) * g.offloadedBlockSize := by
  refine (Nat.div_mul_le_self _ _).trans ?_
  have hmem : ((indicesOf group candidates).max?.getD 0 + 1) * g.offloadedBlockSize ∈
      config.kvGroupConfigs.zipIdx.map fun item =>
        ((indicesOf item.2 candidates).max?.getD 0 + 1) * item.1.offloadedBlockSize := by
    refine List.mem_map.mpr ⟨(g, group), ?_, rfl⟩
    exact List.mk_mem_zipIdx_iff_getElem?.mpr hg
  cases hmin : (config.kvGroupConfigs.zipIdx.map fun item =>
      ((indicesOf item.2 candidates).max?.getD 0 + 1) * item.1.offloadedBlockSize).min? with
  | none =>
      rw [List.min?_eq_none_iff.mp hmin] at hmem
      exact absurd hmem List.not_mem_nil
  | some m => exact (List.min?_eq_some_iff.mp hmin).2 _ hmem

omit [DecidableEq κ] in
theorem commonEnd_single {g : GroupOffloadConfig} (hg : config.kvGroupConfigs = [g])
    (candidates : List (SnapshotBlock κ)) :
    config.commonEnd candidates =
      ((indicesOf 0 candidates).max?.getD 0 + 1) * g.offloadedBlockSize := by
  simp only [commonEnd, alignment, hg, List.map_cons, List.map_nil, List.foldl_cons,
    List.foldl_nil, Nat.lcm_one_left, List.zipIdx_cons, List.zipIdx_nil, List.min?_singleton,
    Option.getD_some]
  exact Nat.div_mul_cancel (Nat.dvd_mul_left _ _)

omit [DecidableEq κ] in
/-- A prefix of the sorted candidates holds the earlier candidates of its groups. -/
theorem mem_take_of_index_lt (hwf : config.WellFormed) {l : List (SnapshotBlock κ)}
    (hsorted : l.Pairwise fun a b => config.candidateLe a b = true) {n : ℕ}
    {c c' : SnapshotBlock κ} {g : GroupOffloadConfig}
    (hg : config.kvGroupConfigs[c.group]? = some g) (hc : c ∈ l.take n) (hc' : c' ∈ l)
    (hgroup : c'.group = c.group) (hindex : c'.index < c.index) : c' ∈ l.take n := by
  have hpos := hwf.size_pos g (List.mem_of_getElem? hg)
  have hend : config.endOf c' < config.endOf c := by
    rw [endOf, endOf, hgroup, sizeOf_eq hg]
    exact Nat.mul_lt_mul_of_pos_right (by omega) hpos
  rw [← List.take_append_drop n l] at hc' hsorted
  cases List.mem_append.mp hc' with
  | inl hmem => exact hmem
  | inr hmem =>
      have hle := of_decide_eq_true ((List.pairwise_append.mp hsorted).2.2 c hc c' hmem)
      rw [Prod.Lex.toLex_le_toLex] at hle
      omega

end SchedulerOffloadConfig

/-! ## The batch -/

namespace SnapshotView

/-- The batch that is cut from the candidates of the snapshot. -/
def batch (v : SnapshotView κ η) (groups : List (SnapshotGroup κ η)) (limit : ℕ) :
    List (SnapshotBlock κ) :=
  v.config.boundCandidates (v.snapshotCandidates groups) limit

/-- The candidates within the limit. -/
def withinLimit (v : SnapshotView κ η) (groups : List (SnapshotGroup κ η)) (limit : ℕ) :
    List (SnapshotBlock κ) :=
  (v.snapshotCandidates groups).take (limit / v.config.blockSizeFactor)

/-- The common boundary of the candidates within the limit. -/
def boundary (v : SnapshotView κ η) (groups : List (SnapshotGroup κ η)) (limit : ℕ) : ℕ :=
  v.config.commonEnd (v.withinLimit groups limit)

/-- Block `n` of a group without a window is left out because some request holds it. -/
def Skipped (v : SnapshotView κ η) (groups : List (SnapshotGroup κ η)) (group n : ℕ) : Prop :=
  ∃ entries entry, groups[group]? = some entries ∧ entries[n]? = some entry ∧
    v.isShared group false entry = true

/-- Block `n` of a group without a window can be stored: it is not left out, and up to it there is
no stale block. -/
def Offered (v : SnapshotView κ η) (groups : List (SnapshotGroup κ η)) (group n : ℕ) : Prop :=
  ∃ entries entry, groups[group]? = some entries ∧ entries[n]? = some entry ∧
    v.isShared group false entry = false ∧
    ∀ m ≤ n, ∀ e, entries[m]? = some e → v.isStale false e = false

/-- The blocks of the group before block `n` that are not left out. -/
def keptBefore (v : SnapshotView κ η) (groups : List (SnapshotGroup κ η)) (group n : ℕ) : List ℕ :=
  (List.range n).filter fun i =>
    !((groups[group]?.bind fun entries => entries[i]?).any (v.isShared group false))

variable {v : SnapshotView κ η} {groups : List (SnapshotGroup κ η)} {limit group m n : ℕ}
  {g : GroupOffloadConfig}

omit [DecidableEq κ] [DecidableEq η] in
theorem mem_keptBefore : m ∈ v.keptBefore groups group n ↔ m < n ∧ ¬v.Skipped groups group m := by
  have hskips : (groups[group]?.bind fun entries => entries[m]?).any (v.isShared group false) =
      true ↔ v.Skipped groups group m := by
    rw [Option.any_eq_true]
    constructor
    · rintro ⟨entry, hentry, hshared⟩
      obtain ⟨entries, hentries, hentry⟩ := Option.bind_eq_some_iff.mp hentry
      exact ⟨entries, entry, hentries, hentry, hshared⟩
    · rintro ⟨entries, entry, hentries, hentry, hshared⟩
      exact ⟨entry, Option.bind_eq_some_iff.mpr ⟨entries, hentries, hentry⟩, hshared⟩
  rw [keptBefore, List.mem_filter, List.mem_range, Bool.not_eq_true', ← hskips,
    Bool.not_eq_true]

omit [DecidableEq κ] [DecidableEq η] in
theorem nodup_keptBefore : (v.keptBefore groups group n).Nodup := List.nodup_range.filter _

omit [DecidableEq κ] in
theorem Offered.not_skipped (h : v.Offered groups group n) : ¬v.Skipped groups group n := by
  obtain ⟨entries, entry, hentries, hentry, hshared, -⟩ := h
  rintro ⟨entries', entry', hentries', hentry', hshared'⟩
  obtain rfl : entries = entries' := Option.some.inj (hentries.symm.trans hentries')
  obtain rfl : entry = entry' := Option.some.inj (hentry.symm.trans hentry')
  rw [hshared] at hshared'
  cases hshared'

omit [DecidableEq κ] in
/-- The blocks before one that is offered are offered too, unless they are left out. -/
theorem Offered.earlier (h : v.Offered groups group m) (hle : n ≤ m)
    (hkept : ¬v.Skipped groups group n) : v.Offered groups group n := by
  obtain ⟨entries, entry, hentries, hentry, -, hfresh⟩ := h
  have hlength := (List.getElem?_eq_some_iff.mp hentry).1
  have hn : entries[n]? = some entries[n] := List.getElem?_eq_getElem (hle.trans_lt hlength)
  refine ⟨entries, _, hentries, hn, ?_, fun l hl => hfresh l (hl.trans hle)⟩
  rw [← Bool.not_eq_true]
  exact fun hshared => hkept ⟨entries, _, hentries, hn, hshared⟩

/-- The candidates of a group without a window are the blocks that are offered. -/
theorem mem_candidates_iff (hretained : v.retained = []) (hpending : v.pendingRetention = [])
    (hg : v.config.kvGroupConfigs[group]? = some g) (hfull : g.slidingWindowSizeInBlocks = none) :
    n ∈ indicesOf group (v.snapshotCandidates groups) ↔ v.Offered groups group n := by
  have hkept : ∀ entry : SnapshotEntry κ η, v.isRetained entry = false := by
    intro entry
    simp [isRetained, hretained, hpending]
  rw [mem_indicesOf]
  constructor
  · rintro ⟨c, hc, rfl, rfl⟩
    obtain ⟨entries, g', hentries, hg', hmem⟩ := mem_snapshotCandidates.mp hc
    obtain rfl : g = g' := Option.some.inj (hg.symm.trans hg')
    rw [candidatesOf, hfull] at hmem
    obtain ⟨-, m, entry, hindex, hentry, hshared, hfresh⟩ := mem_groupCandidates hmem
    rw [Nat.zero_add] at hindex
    rw [hkept, Bool.false_or] at hshared
    exact ⟨entries, entry, hentries, hindex ▸ hentry, hshared, hindex ▸ hfresh⟩
  · rintro ⟨entries, entry, hentries, hentry, hshared, hfresh⟩
    obtain ⟨c, hc, hgroup, hindex⟩ := @exists_mem_groupCandidates _ _ _ _ v group false entries 0 n
      entry hentry hfresh (by rw [hkept, hshared]; rfl)
    rw [Nat.zero_add] at hindex
    refine ⟨c, mem_snapshotCandidates.mpr ⟨entries, g, hgroup ▸ hentries, hgroup ▸ hg, ?_⟩,
      hgroup, hindex⟩
    rw [candidatesOf, hfull, hgroup]
    exact hc

omit [DecidableEq κ] in
theorem indicesOf_subset {l l' : List (SnapshotBlock κ)} (h : l ⊆ l') :
    indicesOf group l ⊆ indicesOf group l' := by
  intro n hn
  obtain ⟨c, hc, hgroup⟩ := mem_indicesOf.mp hn
  exact mem_indicesOf.mpr ⟨c, h hc, hgroup⟩

theorem mem_withinLimit_earlier (hwf : v.config.WellFormed) (hretained : v.retained = [])
    (hpending : v.pendingRetention = []) (hg : v.config.kvGroupConfigs[group]? = some g)
    (hfull : g.slidingWindowSizeInBlocks = none)
    (hm : m ∈ indicesOf group (v.withinLimit groups limit)) (hle : n ≤ m)
    (hkept : ¬v.Skipped groups group n) : n ∈ indicesOf group (v.withinLimit groups limit) := by
  rcases hle.lt_or_eq with hlt | rfl
  · have hoffered := (mem_candidates_iff hretained hpending hg hfull).mp
      (indicesOf_subset (List.take_subset _ _) hm)
    obtain ⟨c', hc', hgroup', hindex'⟩ := mem_indicesOf.mp
      ((mem_candidates_iff hretained hpending hg hfull).mpr (hoffered.earlier hle hkept))
    obtain ⟨c, hc, hgroup, hindex⟩ := mem_indicesOf.mp hm
    refine mem_indicesOf.mpr ⟨c', ?_, hgroup', hindex'⟩
    exact mem_take_of_index_lt hwf (snapshotCandidates_sorted groups) (hgroup ▸ hg) hc hc'
      (hgroup'.trans hgroup.symm) (by omega)
  · exact hm

/-- In a group without a window the candidates within the limit are all the blocks up to their
last one, but for those that are skipped. -/
theorem mem_withinLimit (hwf : v.config.WellFormed) (hretained : v.retained = [])
    (hpending : v.pendingRetention = []) (hg : v.config.kvGroupConfigs[group]? = some g)
    (hfull : g.slidingWindowSizeInBlocks = none)
    (hsome : indicesOf group (v.withinLimit groups limit) ≠ []) (n : ℕ) :
    n ∈ indicesOf group (v.withinLimit groups limit) ↔
      n ≤ (indicesOf group (v.withinLimit groups limit)).max?.getD 0 ∧
        ¬v.Skipped groups group n := by
  cases hmax : (indicesOf group (v.withinLimit groups limit)).max? with
  | none => exact absurd (List.max?_eq_none_iff.mp hmax) hsome
  | some last =>
      obtain ⟨hlast, hle⟩ := List.max?_eq_some_iff.mp hmax
      rw [Option.getD_some]
      constructor
      · intro hn
        exact ⟨hle n hn, ((mem_candidates_iff hretained hpending hg hfull).mp
          (indicesOf_subset (List.take_subset _ _) hn)).not_skipped⟩
      · rintro ⟨hn, hkept⟩
        exact mem_withinLimit_earlier hwf hretained hpending hg hfull hlast hn hkept

/-- How a batch is cut: at `stop`, with all windows before it, and all blocks of the other groups
but for the skipped ones. -/
structure Cut (v : SnapshotView κ η) (groups : List (SnapshotGroup κ η)) (stop : ℕ)
    (batch : List (SnapshotBlock κ)) : Prop where
  pos : 0 < stop
  full : ∀ group g, v.config.kvGroupConfigs[group]? = some g →
    g.slidingWindowSizeInBlocks = none → ∀ n, n ∈ indicesOf group batch ↔
      n < stop / g.offloadedBlockSize ∧ ¬ v.Skipped groups group n
  windowed : ∀ group g w, v.config.kvGroupConfigs[group]? = some g →
    g.slidingWindowSizeInBlocks = some w → ∀ n, stop / g.offloadedBlockSize - w ≤ n →
      n < stop / g.offloadedBlockSize → n ∈ indicesOf group batch
  ends : ∀ c ∈ batch, v.config.endOf c ≤ stop
  valid : ∀ c ∈ batch, ∃ g, v.config.kvGroupConfigs[c.group]? = some g

theorem valid_of_mem_withinLimit {c : SnapshotBlock κ} (hc : c ∈ v.withinLimit groups limit) :
    ∃ g, v.config.kvGroupConfigs[c.group]? = some g := by
  obtain ⟨entries, g, -, hg, -⟩ := mem_snapshotCandidates.mp (List.mem_of_mem_take hc)
  exact ⟨g, hg⟩

omit [DecidableEq κ] [DecidableEq η] in
theorem endOf_pos (hwf : v.config.WellFormed) {c : SnapshotBlock κ} {g : GroupOffloadConfig}
    (hg : v.config.kvGroupConfigs[c.group]? = some g) : 0 < v.config.endOf c := by
  rw [endOf, sizeOf_eq hg]
  exact Nat.mul_pos (Nat.succ_pos _) (hwf.size_pos g (List.mem_of_getElem? hg))

/-- The batch of a single group without a window is everything within the limit. -/
theorem cut_single (hwf : v.config.WellFormed) (hretained : v.retained = [])
    (hpending : v.pendingRetention = []) {g : GroupOffloadConfig}
    (hconfig : v.config.kvGroupConfigs = [g]) (hfull : g.slidingWindowSizeInBlocks = none)
    (hsome : v.withinLimit groups limit ≠ []) :
    Cut v groups (v.boundary groups limit) (v.withinLimit groups limit) := by
  have hzero : ∀ {group : ℕ} {g' : GroupOffloadConfig},
      v.config.kvGroupConfigs[group]? = some g' → group = 0 ∧ g' = g := by
    intro group g' hg'
    rw [hconfig] at hg'
    cases group with
    | zero => exact ⟨rfl, (Option.some.inj hg').symm⟩
    | succ n => cases hg'
  have hg : v.config.kvGroupConfigs[0]? = some g := by rw [hconfig]; rfl
  have hpos := hwf.size_pos g (List.mem_of_getElem? hg)
  have hbound : v.boundary groups limit =
      ((indicesOf 0 (v.withinLimit groups limit)).max?.getD 0 + 1) * g.offloadedBlockSize :=
    commonEnd_single hconfig _
  have hindices : indicesOf 0 (v.withinLimit groups limit) ≠ [] := by
    obtain ⟨c, hc⟩ := List.exists_mem_of_ne_nil _ hsome
    obtain ⟨g', hg'⟩ := valid_of_mem_withinLimit hc
    exact List.ne_nil_of_mem (mem_indicesOf.mpr ⟨c, hc, (hzero hg').1, rfl⟩)
  refine ⟨?_, ?_, ?_, ?_, fun c hc => valid_of_mem_withinLimit hc⟩
  · rw [hbound]
    exact Nat.mul_pos (Nat.succ_pos _) hpos
  · intro group g' hg' _ n
    obtain ⟨rfl, rfl⟩ := hzero hg'
    rw [mem_withinLimit hwf hretained hpending hg' hfull hindices, hbound,
      Nat.mul_div_cancel _ hpos, Nat.lt_succ_iff]
  · intro group g' w hg' hw
    obtain ⟨rfl, rfl⟩ := hzero hg'
    rw [hfull] at hw
    cases hw
  · intro c hc
    obtain ⟨g', hg'⟩ := valid_of_mem_withinLimit hc
    obtain ⟨hgroup, rfl⟩ := hzero hg'
    rw [endOf, sizeOf_eq hg', hbound]
    refine Nat.mul_le_mul_right _ (Nat.succ_le_succ ?_)
    exact List.le_max?_getD_of_mem (mem_indicesOf.mpr ⟨c, hc, hgroup, rfl⟩)

/-- Otherwise the batch is what ends by the common boundary, if the windows before it are
complete. -/
theorem cut_filter (hwf : v.config.WellFormed) (hretained : v.retained = [])
    (hpending : v.pendingRetention = [])
    (hsome : ∀ group < v.config.kvGroupConfigs.length,
      indicesOf group (v.withinLimit groups limit) ≠ [])
    (hcovered : v.config.windowsCovered (v.withinLimit groups limit) (v.boundary groups limit) =
      true)
    (hbatch : (v.withinLimit groups limit).filter
      (fun c => decide (v.config.endOf c ≤ v.boundary groups limit)) ≠ []) :
    Cut v groups (v.boundary groups limit) ((v.withinLimit groups limit).filter
      fun c => decide (v.config.endOf c ≤ v.boundary groups limit)) := by
  have hmem : ∀ {group : ℕ} {g : GroupOffloadConfig},
      v.config.kvGroupConfigs[group]? = some g → ∀ n,
      n ∈ indicesOf group ((v.withinLimit groups limit).filter
          fun c => decide (v.config.endOf c ≤ v.boundary groups limit)) ↔
        n ∈ indicesOf group (v.withinLimit groups limit) ∧
          n < v.boundary groups limit / g.offloadedBlockSize := by
    intro group g hg n
    have hpos := hwf.size_pos g (List.mem_of_getElem? hg)
    have hend : ∀ c : SnapshotBlock κ, c.group = group → c.index = n →
        (v.config.endOf c ≤ v.boundary groups limit ↔
          n < v.boundary groups limit / g.offloadedBlockSize) := by
      intro c hgroup hindex
      rw [endOf, hgroup, sizeOf_eq hg, hindex, ← Nat.le_div_iff_mul_le hpos, Nat.succ_le_iff]
    simp only [mem_indicesOf, List.mem_filter, decide_eq_true_eq]
    constructor
    · rintro ⟨c, ⟨hc, hle⟩, hgroup, hindex⟩
      exact ⟨⟨c, hc, hgroup, hindex⟩, (hend c hgroup hindex).mp hle⟩
    · rintro ⟨⟨c, hc, hgroup, hindex⟩, hlt⟩
      exact ⟨c, ⟨hc, (hend c hgroup hindex).mpr hlt⟩, hgroup, hindex⟩
  refine ⟨?_, ?_, ?_, ?_, ?_⟩
  · obtain ⟨c, hc⟩ := List.exists_mem_of_ne_nil _ hbatch
    obtain ⟨hin, hend⟩ := List.mem_filter.mp hc
    obtain ⟨g, hg⟩ := valid_of_mem_withinLimit hin
    exact (endOf_pos hwf hg).trans_le (of_decide_eq_true hend)
  · intro group g hg hfull n
    have hlength := (List.getElem?_eq_some_iff.mp hg).1
    have hpos := hwf.size_pos g (List.mem_of_getElem? hg)
    rw [hmem hg, mem_withinLimit hwf hretained hpending hg hfull (hsome group hlength)]
    have hle : n < v.boundary groups limit / g.offloadedBlockSize →
        n ≤ (indicesOf group (v.withinLimit groups limit)).max?.getD 0 := by
      intro hn
      have hstop := (Nat.le_div_iff_mul_le hpos).mp (Nat.succ_le_of_lt hn)
      have hcommon := hstop.trans (commonEnd_le hg _)
      exact Nat.succ_le_succ_iff.mp (Nat.le_of_mul_le_mul_right hcommon hpos)
    grind
  · intro group g w hg hw n hlow hhigh
    refine (hmem hg n).mpr ⟨?_, hhigh⟩
    have hall := List.all_eq_true.mp hcovered (g, group) (List.mk_mem_zipIdx_iff_getElem?.mpr hg)
    simp only [hw] at hall
    refine of_decide_eq_true (List.all_eq_true.mp hall n ?_)
    rw [List.mem_range'_1]
    omega
  · exact fun c hc => of_decide_eq_true (List.mem_filter.mp hc).2
  · exact fun c hc => valid_of_mem_withinLimit (List.mem_filter.mp hc).1

theorem batch_eq (v : SnapshotView κ η) (groups : List (SnapshotGroup κ η)) (limit : ℕ) :
    v.batch groups limit =
      if (v.withinLimit groups limit).isEmpty || v.config.isSingleFull
      then v.withinLimit groups limit
      else if (List.range v.config.kvGroupConfigs.length).any fun group =>
          (indicesOf group (v.withinLimit groups limit)).isEmpty then []
      else if v.config.windowsCovered (v.withinLimit groups limit) (v.boundary groups limit)
      then (v.withinLimit groups limit).filter
        fun c => decide (v.config.endOf c ≤ v.boundary groups limit)
      else [] := rfl

omit [DecidableEq κ] [DecidableEq η] in
theorem eq_single_of_isSingleFull (h : v.config.isSingleFull = true) :
    ∃ g, v.config.kvGroupConfigs = [g] ∧ g.slidingWindowSizeInBlocks = none := by
  rw [isSingleFull] at h
  split at h
  · next g hconfig => exact ⟨g, hconfig, Option.isNone_iff_eq_none.mp h⟩
  · cases h

omit [DecidableEq κ] [DecidableEq η] in
theorem eq_zero_of_single {g' : GroupOffloadConfig} (hconfig : v.config.kvGroupConfigs = [g])
    (h : v.config.kvGroupConfigs[n]? = some g') : n = 0 := by
  have := (List.getElem?_eq_some_iff.mp h).1
  rw [hconfig, List.length_singleton] at this
  omega

/-- All candidates are those of a single group. -/
theorem length_indicesOf_single (hconfig : v.config.kvGroupConfigs = [g]) :
    (indicesOf 0 (v.withinLimit groups limit)).length = (v.withinLimit groups limit).length := by
  rw [indicesOf, List.length_map, List.filter_eq_self.mpr]
  intro c hc
  obtain ⟨g', hg'⟩ := valid_of_mem_withinLimit hc
  exact decide_eq_true (eq_zero_of_single hconfig hg')

/-- Where a candidate does not fit, the limit is used up. -/
theorem length_withinLimit (h : n ∈ indicesOf group (v.snapshotCandidates groups))
    (hbehind : n ∉ indicesOf group (v.withinLimit groups limit)) :
    (v.withinLimit groups limit).length = limit / v.config.blockSizeFactor := by
  rw [withinLimit, List.length_take, min_eq_left_iff]
  by_contra hshort
  have hall : v.withinLimit groups limit = v.snapshotCandidates groups :=
    List.take_of_length_le (not_le.mp hshort).le
  exact hbehind (hall ▸ h)

/-- A batch is cut only when every group has candidates within the limit. -/
theorem group_ne_nil (hbatch : v.batch groups limit ≠ [])
    (hg : v.config.kvGroupConfigs[group]? = some g) :
    indicesOf group (v.withinLimit groups limit) ≠ [] := by
  rw [batch_eq] at hbatch
  split at hbatch
  · next hall =>
    have hsingle : v.config.isSingleFull = true := by
      cases (Bool.or_eq_true _ _).mp hall with
      | inl hempty => exact absurd (List.isEmpty_iff.mp hempty) hbatch
      | inr hsingle => exact hsingle
    obtain ⟨g', hconfig, -⟩ := eq_single_of_isSingleFull hsingle
    obtain ⟨c, hc⟩ := List.exists_mem_of_ne_nil _ hbatch
    obtain ⟨g'', hg''⟩ := valid_of_mem_withinLimit hc
    refine List.ne_nil_of_mem (mem_indicesOf.mpr ⟨c, hc, ?_, rfl⟩)
    rw [eq_zero_of_single hconfig hg'', eq_zero_of_single hconfig hg]
  · split at hbatch
    · exact absurd rfl hbatch
    · next hnone =>
      intro hempty
      refine hnone (List.any_eq_true.mpr ⟨group, ?_, ?_⟩)
      · exact List.mem_range.mpr (List.getElem?_eq_some_iff.mp hg).1
      · rw [hempty]
        rfl

theorem batch_cut (hwf : v.config.WellFormed) (hretained : v.retained = [])
    (hpending : v.pendingRetention = []) (hbatch : v.batch groups limit ≠ []) :
    Cut v groups (v.boundary groups limit) (v.batch groups limit) := by
  have hgroups : ∀ group < v.config.kvGroupConfigs.length,
      indicesOf group (v.withinLimit groups limit) ≠ [] :=
    fun group hgroup => group_ne_nil hbatch (List.getElem?_eq_getElem hgroup)
  rw [batch_eq] at hbatch ⊢
  split at hbatch
  · next hall =>
    rw [if_pos hall]
    cases (Bool.or_eq_true _ _).mp hall with
    | inl hempty => exact absurd (List.isEmpty_iff.mp hempty) hbatch
    | inr hsingle =>
        obtain ⟨g, hconfig, hfull⟩ := eq_single_of_isSingleFull hsingle
        exact cut_single hwf hretained hpending hconfig hfull hbatch
  · next hall =>
    rw [if_neg hall]
    split at hbatch
    · exact absurd rfl hbatch
    · next hnone =>
      rw [if_neg hnone]
      split at hbatch
      · next hcovered =>
        rw [if_pos hcovered]
        exact cut_filter hwf hretained hpending hgroups hcovered hbatch
      · exact absurd rfl hbatch

end SnapshotView

/-! ## Loadable batches -/

/-- The batch can be loaded: it ends at a common boundary `stop` and is complete before it. -/
structure LoadableUpTo (config : SchedulerOffloadConfig) (batch : List (SnapshotBlock κ))
    (stop : ℕ) : Prop where
  pos : 0 < stop
  dvd : ∀ g ∈ config.kvGroupConfigs, g.offloadedBlockSize ∣ stop
  full : ∀ group g, config.kvGroupConfigs[group]? = some g → g.slidingWindowSizeInBlocks = none →
    ∀ n, n ∈ indicesOf group batch ↔ n < stop / g.offloadedBlockSize
  windowed : ∀ group g w, config.kvGroupConfigs[group]? = some g →
    g.slidingWindowSizeInBlocks = some w → ∀ n, stop / g.offloadedBlockSize - w ≤ n →
      n < stop / g.offloadedBlockSize → n ∈ indicesOf group batch
  ends : ∀ c ∈ batch, config.endOf c ≤ stop

/-- Of the blocks without a window that end by `boundary`, exactly those behind `stop` are
skipped; next to a windowed group there are none. -/
structure SkipsBehind (v : SnapshotView κ η) (groups : List (SnapshotGroup κ η))
    (boundary stop : ℕ) : Prop where
  pos : 0 < stop
  dvd : ∀ g ∈ v.config.kvGroupConfigs, g.offloadedBlockSize ∣ stop
  le : stop ≤ boundary
  windowed : (∃ g ∈ v.config.kvGroupConfigs, g.slidingWindowSizeInBlocks.isSome = true) →
    stop = boundary
  skipped : ∀ group g, v.config.kvGroupConfigs[group]? = some g →
    g.slidingWindowSizeInBlocks = none → ∀ n, (n + 1) * g.offloadedBlockSize ≤ boundary →
      (v.Skipped groups group n ↔ stop < (n + 1) * g.offloadedBlockSize)

section Loadable

variable {v : SnapshotView κ η} {groups : List (SnapshotGroup κ η)} {limit boundary stop : ℕ}
variable {batch : List (SnapshotBlock κ)}

omit [DecidableEq κ] [DecidableEq η] in
theorem SnapshotView.Cut.loadable (hwf : v.config.WellFormed)
    (hcut : SnapshotView.Cut v groups boundary batch)
    (h : SkipsBehind v groups boundary stop) : LoadableUpTo v.config batch stop := by
  have hfull : ∀ group g, v.config.kvGroupConfigs[group]? = some g →
      g.slidingWindowSizeInBlocks = none → ∀ n, n ∈ indicesOf group batch ↔
        n < stop / g.offloadedBlockSize := by
    intro group g hg hnone n
    have hpos := hwf.size_pos g (List.mem_of_getElem? hg)
    have hskipped := h.skipped group g hg hnone n
    have hle := h.le
    rw [hcut.full group g hg hnone, ← Nat.succ_le_iff, ← Nat.succ_le_iff,
      Nat.le_div_iff_mul_le hpos, Nat.le_div_iff_mul_le hpos]
    constructor
    · rintro ⟨hn, hnot⟩
      rw [hskipped hn] at hnot
      exact not_lt.mp hnot
    · intro hn
      exact ⟨hn.trans hle, fun hs => absurd ((hskipped (hn.trans hle)).mp hs) (not_lt.mpr hn)⟩
  refine ⟨h.pos, h.dvd, hfull, ?_, ?_⟩
  · intro group g w hg hw
    have heq := h.windowed ⟨g, List.mem_of_getElem? hg, by rw [hw]; rfl⟩
    rw [heq]
    exact hcut.windowed group g w hg hw
  · intro c hc
    obtain ⟨g, hg⟩ := hcut.valid c hc
    have hpos := hwf.size_pos g (List.mem_of_getElem? hg)
    cases hw : g.slidingWindowSizeInBlocks with
    | some w =>
        rw [h.windowed ⟨g, List.mem_of_getElem? hg, by rw [hw]; rfl⟩]
        exact hcut.ends c hc
    | none =>
        have hin := (hfull c.group g hg hw c.index).mp (mem_indicesOf.mpr ⟨c, hc, rfl, rfl⟩)
        rw [endOf, sizeOf_eq hg, ← Nat.le_div_iff_mul_le hpos]
        exact hin

omit [DecidableEq κ] [DecidableEq η] in
theorem LoadableUpTo.skipsBehind (hwf : v.config.WellFormed)
    (hcut : SnapshotView.Cut v groups boundary batch)
    (hdvd : ∀ g ∈ v.config.kvGroupConfigs, g.offloadedBlockSize ∣ boundary)
    (hsome : v.config.kvGroupConfigs ≠ []) (h : LoadableUpTo v.config batch stop) :
    SkipsBehind v groups boundary stop := by
  -- the last block of a group before a boundary ends at the boundary
  have hlast : ∀ {group : ℕ} {g : GroupOffloadConfig} {e : ℕ},
      v.config.kvGroupConfigs[group]? = some g → 0 < e → g.offloadedBlockSize ∣ e →
      e / g.offloadedBlockSize - 1 < e / g.offloadedBlockSize ∧
        ∀ c : SnapshotBlock κ, c.group = group → c.index = e / g.offloadedBlockSize - 1 →
          v.config.endOf c = e := by
    intro group g e hg he hdiv
    have hpos := hwf.size_pos g (List.mem_of_getElem? hg)
    have hcount := Nat.div_pos (Nat.le_of_dvd he hdiv) hpos
    refine ⟨by omega, ?_⟩
    intro c hgroup hindex
    rw [endOf, hgroup, sizeOf_eq hg, hindex, Nat.sub_add_cancel hcount]
    exact Nat.div_mul_cancel hdiv
  have hle : stop ≤ boundary := by
    obtain ⟨g, hmem⟩ := List.exists_mem_of_ne_nil _ hsome
    obtain ⟨group, hg⟩ := List.getElem?_of_mem hmem
    obtain ⟨hlt, hend⟩ := hlast hg h.pos (h.dvd g hmem)
    have hin : stop / g.offloadedBlockSize - 1 ∈ indicesOf group batch := by
      cases hw : g.slidingWindowSizeInBlocks with
      | none => exact (h.full group g hg hw _).mpr hlt
      | some w =>
          have := hwf.window_pos g hmem w hw
          exact h.windowed group g w hg hw _ (by omega) hlt
    obtain ⟨c, hc, hgroup, hindex⟩ := mem_indicesOf.mp hin
    exact hend c hgroup hindex ▸ hcut.ends c hc
  refine ⟨h.pos, h.dvd, hle, ?_, ?_⟩
  · rintro ⟨g, hmem, hsomeWindow⟩
    obtain ⟨w, hw⟩ := Option.isSome_iff_exists.mp hsomeWindow
    obtain ⟨group, hg⟩ := List.getElem?_of_mem hmem
    obtain ⟨hlt, hend⟩ := hlast hg hcut.pos (hdvd g hmem)
    have := hwf.window_pos g hmem w hw
    obtain ⟨c, hc, hgroup, hindex⟩ :=
      mem_indicesOf.mp (hcut.windowed group g w hg hw _ (by omega) hlt)
    exact hle.antisymm (hend c hgroup hindex ▸ h.ends c hc)
  · intro group g hg hnone n hn
    have hpos := hwf.size_pos g (List.mem_of_getElem? hg)
    have hcutMem := hcut.full group g hg hnone n
    have hmem := h.full group g hg hnone n
    rw [← Nat.succ_le_iff, Nat.le_div_iff_mul_le hpos] at hcutMem hmem
    have hiff : ¬ v.Skipped groups group n ↔ (n + 1) * g.offloadedBlockSize ≤ stop := by
      rw [← hmem, hcutMem]
      exact ⟨fun hs => ⟨hn, hs⟩, fun hs => hs.2⟩
    rw [← not_le, ← hiff, not_not]

/-- A batch can be loaded again exactly when no block of a group without a window is left out before
the common boundary for being shared, or those left out are exactly the ones behind a smaller
common boundary. -/
theorem loadable_iff_skipsBehind (hwf : v.config.WellFormed) (hretained : v.retained = [])
    (hpending : v.pendingRetention = []) (hbatch : v.batch groups limit ≠ []) :
    (∃ stop, LoadableUpTo v.config (v.batch groups limit) stop) ↔
      ∃ stop, SkipsBehind v groups (v.boundary groups limit) stop := by
  have hcut := SnapshotView.batch_cut hwf hretained hpending hbatch
  constructor
  · rintro ⟨stop, hload⟩
    obtain ⟨c, hc⟩ := List.exists_mem_of_ne_nil _ hbatch
    obtain ⟨g, hg⟩ := hcut.valid c hc
    exact ⟨stop, hload.skipsBehind hwf hcut (fun g hg => dvd_commonEnd hg _)
      (List.ne_nil_of_mem (List.mem_of_getElem? hg))⟩
  · rintro ⟨stop, hskips⟩
    exact ⟨stop, hcut.loadable hwf hskips⟩

theorem batch_length_le (v : SnapshotView κ η) (groups : List (SnapshotGroup κ η)) (limit : ℕ) :
    (v.batch groups limit).length * v.config.blockSizeFactor ≤ limit := by
  obtain ⟨k, hk, heq⟩ : ∃ k ≤ limit / v.config.blockSizeFactor,
      v.batch groups limit = (v.snapshotCandidates groups).take k :=
    boundCandidates_eq_take (SnapshotView.snapshotCandidates_sorted groups) limit
  have hlength : (v.batch groups limit).length ≤ limit / v.config.blockSizeFactor := by
    rw [heq]
    exact (List.length_take_le _ _).trans hk
  exact (Nat.mul_le_mul_right _ hlength).trans (Nat.div_mul_le_self _ _)

/-! ## Gaps -/

/-- In every group without a window, a block that is left out because some request holds it has no
block behind it that is offered, or there are blocks enough before it to fill the limit. -/
def Gapless (v : SnapshotView κ η) (groups : List (SnapshotGroup κ η)) (limit : ℕ) : Prop :=
  ∀ group g, v.config.kvGroupConfigs[group]? = some g → g.slidingWindowSizeInBlocks = none →
    ∀ n m, n < m → v.Skipped groups group n → v.Offered groups group m →
      limit / v.config.blockSizeFactor ≤ (v.keptBefore groups group n).length

omit [DecidableEq κ] in
theorem length_indicesOf_le (group : ℕ) (l : List (SnapshotBlock κ)) :
    (indicesOf group l).length ≤ l.length := by
  unfold indicesOf
  rw [List.length_map]
  exact List.length_filter_le _ _

omit [DecidableEq κ] in
theorem max_mem_indicesOf {group : ℕ} {l : List (SnapshotBlock κ)} (h : indicesOf group l ≠ []) :
    (indicesOf group l).max?.getD 0 ∈ indicesOf group l := by
  cases hmax : (indicesOf group l).max? with
  | none => exact absurd (List.max?_eq_none_iff.mp hmax) h
  | some last => exact List.max?_mem hmax

/-- Then there is no gap before a block within the limit. -/
theorem Gapless.not_skipped (h : Gapless v groups limit) (hwf : v.config.WellFormed)
    (hretained : v.retained = []) (hpending : v.pendingRetention = []) {group m n : ℕ}
    {g : GroupOffloadConfig} (hg : v.config.kvGroupConfigs[group]? = some g)
    (hfull : g.slidingWindowSizeInBlocks = none)
    (hm : m ∈ indicesOf group (v.withinLimit groups limit)) (hle : n ≤ m) :
    ¬v.Skipped groups group n := by
  intro hskipped
  have hoffered := (SnapshotView.mem_candidates_iff hretained hpending hg hfull).mp
    (SnapshotView.indicesOf_subset (List.take_subset _ _) hm)
  have hlt : n < m := hle.lt_of_ne fun heq => hoffered.not_skipped (heq ▸ hskipped)
  have hfill := h group g hg hfull n m hlt hskipped hoffered
  -- Block `m` and the blocks before the gap do not fit.
  have hnodup : (m :: v.keptBefore groups group n).Nodup := by
    refine List.nodup_cons.mpr ⟨fun hmem => ?_, SnapshotView.nodup_keptBefore⟩
    have := (SnapshotView.mem_keptBefore.mp hmem).1
    omega
  have hsubset : m :: v.keptBefore groups group n ⊆
      indicesOf group (v.withinLimit groups limit) := by
    intro i hi
    rcases List.mem_cons.mp hi with rfl | hi
    · exact hm
    · obtain ⟨hin, hkept⟩ := SnapshotView.mem_keptBefore.mp hi
      exact SnapshotView.mem_withinLimit_earlier hwf hretained hpending hg hfull hm (by omega) hkept
  have hcount := (hnodup.subperm hsubset).length_le
  have hwithin := length_indicesOf_le group (v.withinLimit groups limit)
  have hlimit : (v.withinLimit groups limit).length ≤ limit / v.config.blockSizeFactor :=
    List.length_take_le _ _
  rw [List.length_cons] at hcount
  omega

/-- Without gaps the batch can be loaded up to the common boundary. -/
theorem Gapless.skipsBehind (h : Gapless v groups limit) (hwf : v.config.WellFormed)
    (hretained : v.retained = []) (hpending : v.pendingRetention = [])
    (hbatch : v.batch groups limit ≠ []) :
    SkipsBehind v groups (v.boundary groups limit) (v.boundary groups limit) where
  pos := (SnapshotView.batch_cut hwf hretained hpending hbatch).pos
  dvd _ hg := dvd_commonEnd hg _
  le := le_rfl
  windowed _ := rfl
  skipped group g hg hfull n hn := by
    refine iff_of_false ?_ (not_lt.mpr hn)
    have hpos := hwf.size_pos g (List.mem_of_getElem? hg)
    have hle := Nat.le_of_mul_le_mul_right (hn.trans (commonEnd_le hg _)) hpos
    exact h.not_skipped hwf hretained hpending hg hfull
      (max_mem_indicesOf (SnapshotView.group_ne_nil hbatch hg)) (Nat.succ_le_succ_iff.mp hle)

/-- A single group is loaded up to the last block within the limit, so it has no gap. -/
theorem gapless_of_loadable (hwf : v.config.WellFormed) (hretained : v.retained = [])
    (hpending : v.pendingRetention = []) (hbatch : v.batch groups limit ≠ [])
    (hsingle : v.config.isSingleFull = true)
    (h : LoadableUpTo v.config (v.batch groups limit) stop) : Gapless v groups limit := by
  obtain ⟨g, hconfig, hfull⟩ := SnapshotView.eq_single_of_isSingleFull hsingle
  have hg : v.config.kvGroupConfigs[0]? = some g := by
    rw [hconfig]
    rfl
  have hpos := hwf.size_pos g (List.mem_of_getElem? hg)
  have hcut := SnapshotView.batch_cut hwf hretained hpending hbatch
  have hskips := h.skipsBehind hwf hcut (fun g hg => dvd_commonEnd hg _)
    (List.ne_nil_of_mem (List.mem_of_getElem? hg))
  have hsome := SnapshotView.group_ne_nil hbatch hg
  have hmem := SnapshotView.mem_withinLimit hwf hretained hpending hg hfull hsome
  set last := (indicesOf 0 (v.withinLimit groups limit)).max?.getD 0
  have hbound : v.boundary groups limit = (last + 1) * g.offloadedBlockSize :=
    commonEnd_single hconfig _
  -- The last block is not skipped, so the batch is loaded behind it and nothing before is skipped.
  have hkept : ∀ n ≤ last, ¬v.Skipped groups 0 n := by
    have hin : last ∈ indicesOf 0 (v.withinLimit groups limit) := max_mem_indicesOf hsome
    have hend := (not_congr (hskips.skipped 0 g hg hfull last hbound.ge)).mp ((hmem last).mp hin).2
    intro n hn
    have hle : (n + 1) * g.offloadedBlockSize ≤ (last + 1) * g.offloadedBlockSize :=
      Nat.mul_le_mul_right _ (Nat.succ_le_succ hn)
    rw [hskips.skipped 0 g hg hfull n (hle.trans hbound.ge)]
    exact not_lt.mpr (hle.trans (not_lt.mp hend))
  intro group g' hg' _ n m hlt hskipped hoffered
  obtain rfl := SnapshotView.eq_zero_of_single hconfig hg'
  have hbehind : last < n := not_le.mp fun hle => hkept n hle hskipped
  -- Block `m` is a candidate behind the limit, so the limit is used up before the gap.
  have hcandidate := (SnapshotView.mem_candidates_iff hretained hpending hg hfull).mpr hoffered
  have hfilled : (v.withinLimit groups limit).length = limit / v.config.blockSizeFactor := by
    refine SnapshotView.length_withinLimit hcandidate fun hin => ?_
    have := ((hmem m).mp hin).1
    omega
  have hlength : (indicesOf 0 (v.withinLimit groups limit)).length =
      (v.withinLimit groups limit).length := SnapshotView.length_indicesOf_single hconfig
  have hsubset : indicesOf 0 (v.withinLimit groups limit) ⊆ v.keptBefore groups 0 n := by
    intro i hi
    obtain ⟨hle, hi⟩ := (hmem i).mp hi
    exact SnapshotView.mem_keptBefore.mpr ⟨hle.trans_lt hbehind, hi⟩
  have hnodup : (indicesOf 0 (v.withinLimit groups limit)).Nodup :=
    (((List.take_sublist _ _).filter _).map _).nodup
      (SnapshotView.nodup_indicesOf_single hconfig hfull groups)
  have hcount := (hnodup.subperm hsubset).length_le
  omega

/-- A batch can be loaded again if in no group without a window a block is left out, for being
shared, before one that is offered and fits; of a single group only then. It fits the limit. -/
theorem bounded_batch_loadable (hwf : v.config.WellFormed) (hretained : v.retained = [])
    (hpending : v.pendingRetention = []) (hbatch : v.batch groups limit ≠ []) :
    (Gapless v groups limit → ∃ stop, LoadableUpTo v.config (v.batch groups limit) stop) ∧
      (v.config.isSingleFull = true →
        (∃ stop, LoadableUpTo v.config (v.batch groups limit) stop) → Gapless v groups limit) ∧
      (v.batch groups limit).length * v.config.blockSizeFactor ≤ limit := by
  refine ⟨?_, ?_, batch_length_le v groups limit⟩
  · intro hgapless
    have hskips := hgapless.skipsBehind hwf hretained hpending hbatch
    exact (loadable_iff_skipsBehind hwf hretained hpending hbatch).mpr ⟨_, hskips⟩
  · rintro hsingle ⟨stop, hload⟩
    exact gapless_of_loadable hwf hretained hpending hbatch hsingle hload

end Loadable

/-! ## A hole in a batch -/

/-- Three intact blocks of one group; block `2` is held by a request. -/
def threeBlocks : SnapshotGroup ℕ ℕ :=
  [⟨10, [1], [some 101]⟩, ⟨11, [2], [some 102]⟩, ⟨12, [3], [some 103]⟩]

/-- A single group without a window whose spec is, or is not, exactly `FullAttentionSpec`. -/
def sharedView (shareable : Bool) : SnapshotView ℕ ℕ where
  config := ⟨[⟨1, 1, none⟩], 1, 1⟩
  shareableGroups := if shareable then [0] else []
  blocks := fun bid => ⟨some (100 + bid), if bid = 2 then 1 else 0⟩
  onCpu := fun _ => false

theorem sharedView_wellFormed (shareable : Bool) : (sharedView shareable).config.WellFormed := by
  constructor <;> simp [sharedView]

theorem sharedView_candidates (shareable : Bool) :
    (sharedView shareable).snapshotCandidates [threeBlocks] =
      (sharedView shareable).candidatesOf 0 ⟨1, 1, none⟩ threeBlocks := by
  cases shareable <;> exact List.mergeSort_of_pairwise (by decide +kernel)

theorem sharedView_batch (shareable : Bool) (limit : ℕ) :
    (sharedView shareable).batch [threeBlocks] limit =
      ((sharedView shareable).candidatesOf 0 ⟨1, 1, none⟩ threeBlocks).take limit := by
  rw [SnapshotView.batch, sharedView_candidates, boundCandidates]
  have hfactor : (sharedView shareable).config.blockSizeFactor = 1 := rfl
  have hsingle : (sharedView shareable).config.isSingleFull = true := rfl
  rw [hfactor, hsingle, Nat.div_one, Bool.or_true]
  rfl

theorem sharedView_skipped {n : ℕ} (h : (sharedView false).Skipped [threeBlocks] 0 n) : n = 1 := by
  obtain ⟨entries, entry, hentries, hentry, hshared⟩ := h
  obtain rfl : threeBlocks = entries := Option.some.inj hentries
  rcases n with _ | _ | _ | n
  · obtain rfl := Option.some.inj hentry
    cases hshared
  · rfl
  · obtain rfl := Option.some.inj hentry
    cases hshared
  · cases hentry

/-- A full-attention group may share its blocks, and a block that is left out does no harm behind
the limit. -/
theorem shareable_batch_is_loadable :
    (((sharedView true).batch [threeBlocks] 3).map (·.index) = [0, 1, 2] ∧ ∃ stop,
      LoadableUpTo (sharedView true).config ((sharedView true).batch [threeBlocks] 3) stop) ∧
    (((sharedView false).batch [threeBlocks] 1).map (·.index) = [0] ∧ ∃ stop,
      LoadableUpTo (sharedView false).config ((sharedView false).batch [threeBlocks] 1) stop) := by
  have hindices : ((sharedView true).batch [threeBlocks] 3).map (·.index) = [0, 1, 2] := by
    rw [sharedView_batch]
    decide +kernel
  have hfirst : ((sharedView false).batch [threeBlocks] 1).map (·.index) = [0] := by
    rw [sharedView_batch]
    decide +kernel
  have hbatch : (sharedView true).batch [threeBlocks] 3 ≠ [] := by
    intro hnil
    rw [hnil] at hindices
    cases hindices
  have hbatch' : (sharedView false).batch [threeBlocks] 1 ≠ [] := by
    intro hnil
    rw [hnil] at hfirst
    cases hfirst
  refine ⟨⟨hindices, (bounded_batch_loadable (sharedView_wellFormed true) rfl rfl hbatch).1 ?_⟩,
    hfirst, (bounded_batch_loadable (sharedView_wellFormed false) rfl rfl hbatch').1 ?_⟩
  · rintro (_ | group) g hg - n m - ⟨entries, entry, -, -, hshared⟩
    · simp [SnapshotView.isShared, sharedView] at hshared
    · cases hg
  · rintro (_ | group) g hg - n m - hskipped -
    · rw [sharedView_skipped hskipped]
      decide +kernel
    · cases hg

/-- The block that a request holds is left out of the batch of another group, which goes on behind
it: the batch cannot be loaded. -/
theorem shared_block_leaves_hole :
    ((sharedView false).batch [threeBlocks] 3).map (·.index) = [0, 2] ∧
      ¬ ∃ stop, LoadableUpTo (sharedView false).config
        ((sharedView false).batch [threeBlocks] 3) stop := by
  have hindices : indicesOf 0 ((sharedView false).batch [threeBlocks] 3) = [0, 2] := by
    rw [sharedView_batch]
    decide +kernel
  constructor
  · rw [sharedView_batch]
    decide +kernel
  · rintro ⟨stop, hload⟩
    have hfull := hload.full 0 ⟨1, 1, none⟩ rfl rfl
    rw [hindices] at hfull
    have hlast : 2 < stop / 1 := (hfull 2).mp (by simp)
    have hhole := (hfull 1).mpr (Nat.lt_of_succ_lt hlast)
    simp at hhole

end TokenCake.Offload
