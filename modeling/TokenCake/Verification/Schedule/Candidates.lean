import TokenCake.Verification.Schedule.Waiting

/-! # The order of the candidates

Inside a band of scores the cache may reorder requests, and it never lets a request overtake one
whose score is higher by more than the band. -/

namespace TokenCake.Sched

variable {agents : Agents} {affinity : Request → ℚ × ℤ} {band : ℤ}
  {candidates group items : List (Request × QueueName)} {x y : Request × QueueName} {id : String}

namespace Agents

/-! ## The order of the scores -/

section Plain

/-- The key that orders two candidates. -/
def orderKey (agents : Agents) (r : Request) : ℤ ×ₗ ℤ ×ₗ ℤ ×ₗ ℚ ×ₗ String :=
  toLex (-agents.score r.requestId,
    toLex (-(agents.agentScores.get? r.requestId).getD (agents.score r.requestId),
      toLex (r.priority, toLex (r.arrivalTime, r.requestId))))

/-- The candidates sorted by their keys. -/
def plainOrder (agents : Agents) (candidates : List (Request × QueueName)) :
    List (Request × QueueName) :=
  candidates.mergeSort fun a b => !agents.orderBefore b.1 a.1

theorem plainOrder_perm (agents : Agents) (candidates : List (Request × QueueName)) :
    (agents.plainOrder candidates).Perm candidates := List.mergeSort_perm ..

theorem not_orderBefore_iff {a b : Request} :
    (!agents.orderBefore b a) = true ↔ agents.orderKey a ≤ agents.orderKey b := by
  simp [orderBefore, orderKey]

theorem plainOrder_pairwise (agents : Agents) (candidates : List (Request × QueueName)) :
    (agents.plainOrder candidates).Pairwise
      fun x y => agents.orderKey x.1 ≤ agents.orderKey y.1 := by
  refine (List.pairwise_mergeSort ?_ ?_ candidates).imp fun {a b} h => not_orderBefore_iff.mp h
  · intro a b c hab hbc
    exact not_orderBefore_iff.mpr ((not_orderBefore_iff.mp hab).trans (not_orderBefore_iff.mp hbc))
  · intro a b
    rw [Bool.or_eq_true, not_orderBefore_iff, not_orderBefore_iff]
    exact le_total ..

/-- Scores descend along the keys. -/
theorem score_le_of_orderKey_le {a b : Request} (h : agents.orderKey a ≤ agents.orderKey b) :
    agents.score b.requestId ≤ agents.score a.requestId := by
  rcases Prod.Lex.toLex_le_toLex.mp h with hlt | ⟨heq, -⟩
  · dsimp only at hlt
    omega
  · dsimp only at heq
    omega

theorem plainOrder_score (agents : Agents) (candidates : List (Request × QueueName)) :
    (agents.plainOrder candidates).Pairwise
      fun x y => agents.score y.1.requestId ≤ agents.score x.1.requestId :=
  (agents.plainOrder_pairwise candidates).imp fun {_ _} h => score_le_of_orderKey_le h

end Plain

/-! ## Bands -/

section Bands

/-- Two scores of one band are at most the band apart. -/
theorem scoreBands_score (hband : 0 ≤ band) (fuel : ℕ)
    (hitems : items.Pairwise fun x y => agents.score y.1.requestId ≤ agents.score x.1.requestId)
    (hgroup : group ∈ agents.scoreBands band fuel items) (hx : x ∈ group) (hy : y ∈ group) :
    agents.score y.1.requestId ≤ agents.score x.1.requestId + band := by
  induction fuel generalizing items with
  | zero => exact absurd hgroup List.not_mem_nil
  | succ fuel ih =>
      cases items with
      | nil => exact absurd hgroup List.not_mem_nil
      | cons first rest =>
          obtain ⟨hfirst, hrest⟩ := List.pairwise_cons.mp hitems
          rcases List.mem_cons.mp hgroup with rfl | hgroup
          · have hle : agents.score y.1.requestId ≤ agents.score first.1.requestId := by
              rcases List.mem_cons.mp hy with rfl | hy
              · exact le_rfl
              · exact hfirst y ((List.takeWhile_sublist _).subset hy)
            have hnear : agents.score first.1.requestId - band ≤ agents.score x.1.requestId := by
              rcases List.mem_cons.mp hx with rfl | hx
              · omega
              · have hnear := List.mem_takeWhile_imp hx
                exact of_decide_eq_true hnear
            omega
          · exact ih (hrest.sublist (List.dropWhile_sublist _)) hgroup

/-- What is true of all pairs of the sorted bands is true of them after a reordering. -/
theorem pairwise_flatten_reordered {R : Request × QueueName → Request × QueueName → Prop}
    {groups : List (List (Request × QueueName))}
    {reorder : List (Request × QueueName) → List (Request × QueueName)}
    (hperm : ∀ group, (reorder group).Perm group)
    (hinside : ∀ group ∈ groups, ∀ x ∈ group, ∀ y ∈ group, R x y)
    (hacross : groups.Pairwise fun g g' => ∀ x ∈ g, ∀ y ∈ g', R x y) :
    (groups.map reorder).flatten.Pairwise R := by
  rw [List.pairwise_flatten]
  constructor
  · intro group hgroup
    obtain ⟨g, hg, rfl⟩ := List.mem_map.mp hgroup
    refine List.pairwise_iff_forall_sublist.mpr fun {x y} hxy => ?_
    have hmem : ∀ z ∈ [x, y], z ∈ g := fun z hz => (hperm g).mem_iff.mp (hxy.subset hz)
    exact hinside g hg x (hmem x (by simp)) y (hmem y (by simp))
  · refine List.pairwise_map.mpr (hacross.imp fun {g g'} h x hx y hy => ?_)
    exact h x ((hperm g).mem_iff.mp hx) y ((hperm g').mem_iff.mp hy)

end Bands

/-! ## Promotions -/

section Promotions

/-- The positions of the requests of a group. -/
theorem positions_get? (hnodup : (group.map (·.1.requestId)).Nodup) (id : String) :
    (OrdDict.ofList (group.zipIdx.map fun (item, i) => (item.1.requestId, i))).get? id =
      if id ∈ group.map (·.1.requestId) then some ((group.map (·.1.requestId)).idxOf id)
      else none := by
  have hentries : (group.zipIdx.map fun (item, i) => (item.1.requestId, i)) =
      (group.map (·.1.requestId)).map fun k => (k, (group.map (·.1.requestId)).idxOf k) := by
    apply List.ext_getElem
    · simp
    · intro i hi hi'
      have hindex := hnodup.idxOf_getElem i (by simpa using hi)
      simp only [List.getElem_map] at hindex
      simp [hindex]
  rw [hentries, OrdDict.get?_ofList_map]

/-- A request is promoted if and only if it comes earlier than before. -/
theorem mem_promoted {preferred : List (Request × QueueName)}
    (hnodup : (group.map (·.1.requestId)).Nodup) (hperm : preferred.Perm group) :
    id ∈ promoted group preferred ↔
      (preferred.map (·.1.requestId)).idxOf id < (group.map (·.1.requestId)).idxOf id := by
  have hids : ∀ id, id ∈ preferred.map (·.1.requestId) ↔ id ∈ group.map (·.1.requestId) :=
    fun id => (hperm.map _).mem_iff
  have hlength : (preferred.map (·.1.requestId)).length = (group.map (·.1.requestId)).length :=
    (hperm.map _).length_eq
  have hnodup' : (preferred.map (·.1.requestId)).Nodup := (hperm.map _).nodup_iff.mpr hnodup
  unfold promoted
  constructor
  · intro h
    obtain ⟨⟨item, i⟩, hitem, rfl⟩ := List.mem_map.mp h
    obtain ⟨hzip, hlt⟩ := List.mem_filter.mp hitem
    have hlt := of_decide_eq_true hlt
    obtain ⟨hi, hget⟩ := List.getElem?_eq_some_iff.mp (List.mem_zipIdx_iff_getElem?.mp hzip)
    have hindex := hnodup'.idxOf_getElem i (by simpa using hi)
    rw [List.getElem_map, hget] at hindex
    have hmem : item.1.requestId ∈ group.map (·.1.requestId) :=
      (hids _).mp (List.mem_map_of_mem (List.mem_of_getElem hget))
    rw [positions_get? hnodup, if_pos hmem] at hlt
    exact hindex.trans_lt hlt
  · intro hlt
    have hmem : id ∈ preferred.map (·.1.requestId) := by
      by_contra hnone
      rw [List.idxOf_eq_length hnone, List.idxOf_eq_length (mt (hids id).mpr hnone), hlength] at hlt
      exact lt_irrefl _ hlt
    have hindex : (preferred.map (·.1.requestId))[(preferred.map (·.1.requestId)).idxOf id]? =
        some id := List.getElem?_idxOf hmem
    rw [List.getElem?_map, Option.map_eq_some_iff] at hindex
    obtain ⟨item, hitem, hid⟩ := hindex
    refine List.mem_map.mpr ⟨(item, (preferred.map (·.1.requestId)).idxOf id),
      List.mem_filter.mpr ⟨List.mem_zipIdx_iff_getElem?.mpr hitem, ?_⟩, hid⟩
    dsimp only
    rw [hid, positions_get? hnodup, if_pos ((hids id).mp hmem)]
    exact decide_eq_true hlt

theorem flatten_map_perm {reorder : List (Request × QueueName) → List (Request × QueueName)}
    (hperm : ∀ group, (reorder group).Perm group) (groups : List (List (Request × QueueName))) :
    (groups.map reorder).flatten.Perm groups.flatten := by
  induction groups with
  | nil => exact .refl _
  | cons group groups ih => exact (hperm group).append ih

/-- The promotions of all groups are those of their concatenation. -/
theorem mem_flatMap_promoted {groups : List (List (Request × QueueName))}
    {reorder : List (Request × QueueName) → List (Request × QueueName)}
    (hperm : ∀ group, (reorder group).Perm group)
    (hnodup : (groups.flatten.map (·.1.requestId)).Nodup) :
    (id ∈ groups.flatMap fun group => promoted group (reorder group)) ↔
      ((groups.map reorder).flatten.map (·.1.requestId)).idxOf id <
        (groups.flatten.map (·.1.requestId)).idxOf id := by
  induction groups with
  | nil => simp
  | cons group groups ih =>
      rw [List.flatten_cons, List.map_append, List.nodup_append] at hnodup
      obtain ⟨hgroup, hgroups, hdisjoint⟩ := hnodup
      have hids : id ∈ (reorder group).map (·.1.requestId) ↔ id ∈ group.map (·.1.requestId) :=
        ((hperm group).map _).mem_iff
      have hlength : ((reorder group).map (·.1.requestId)).length =
          (group.map (·.1.requestId)).length := ((hperm group).map _).length_eq
      rw [List.flatMap_cons, List.mem_append, mem_promoted hgroup (hperm group), ih hgroups,
        List.map_cons, List.flatten_cons, List.flatten_cons, List.map_append, List.map_append,
        List.idxOf_append, List.idxOf_append]
      by_cases hmem : id ∈ group.map (·.1.requestId)
      · -- The request is in no other group.
        have hrest : id ∉ groups.flatten.map (·.1.requestId) :=
          fun hrest => hdisjoint id hmem id hrest rfl
        have hperm' : ((groups.map reorder).flatten.map (·.1.requestId)).Perm
            (groups.flatten.map (·.1.requestId)) := (flatten_map_perm hperm groups).map _
        rw [if_pos (hids.mpr hmem), if_pos hmem, List.idxOf_eq_length hrest,
          List.idxOf_eq_length (mt hperm'.mem_iff.mp hrest), hperm'.length_eq]
        exact or_iff_left (lt_irrefl _)
      · rw [if_neg (mt hids.mp hmem), if_neg hmem, List.idxOf_eq_length hmem,
          List.idxOf_eq_length (mt hids.mp hmem), hlength]
        omega

end Promotions

/-! ## The result -/

section Result

/-- The candidates of a band, those with more of their prefix in use first. -/
def preferredOrder (affinity : Request → ℚ × ℤ) (group : List (Request × QueueName)) :
    List (Request × QueueName) :=
  group.mergeSort fun a b => decide (toLex (affinity b.1) ≤ toLex (affinity a.1))

theorem preferredOrder_perm (affinity : Request → ℚ × ℤ) (group : List (Request × QueueName)) :
    (preferredOrder affinity group).Perm group := List.mergeSort_perm ..

theorem affinity_le_trans (affinity : Request → ℚ × ℤ) (a b c : Request × QueueName)
    (hab : decide (toLex (affinity b.1) ≤ toLex (affinity a.1)) = true)
    (hbc : decide (toLex (affinity c.1) ≤ toLex (affinity b.1)) = true) :
    decide (toLex (affinity c.1) ≤ toLex (affinity a.1)) = true :=
  decide_eq_true ((of_decide_eq_true hbc).trans (of_decide_eq_true hab))

theorem affinity_le_total (affinity : Request → ℚ × ℤ) (a b : Request × QueueName) :
    (decide (toLex (affinity b.1) ≤ toLex (affinity a.1)) ||
      decide (toLex (affinity a.1) ≤ toLex (affinity b.1))) = true := by
  rw [Bool.or_eq_true, decide_eq_true_eq, decide_eq_true_eq]
  exact le_total ..

/-- Requests with equal affinity keep their order. -/
theorem preferredOrder_stable (hxy : [x, y].Sublist group) (heq : affinity x.1 = affinity y.1) :
    [x, y].Sublist (preferredOrder affinity group) :=
  List.pair_sublist_mergeSort (affinity_le_trans affinity) (affinity_le_total affinity)
    (decide_eq_true (heq ▸ le_rfl)) hxy

theorem preferredOrder_eq (h : ∀ x ∈ group, ∀ y ∈ group, affinity x.1 = affinity y.1) :
    preferredOrder affinity group = group := by
  refine List.mergeSort_of_pairwise (List.pairwise_iff_forall_sublist.mpr fun {x y} hxy => ?_)
  refine decide_eq_true (le_of_eq (congrArg toLex ?_))
  exact h y (hxy.subset (by simp)) x (hxy.subset (by simp))

theorem orderCandidates_eq (agents : Agents) (applies : Bool) (affinity : Request → ℚ × ℤ)
    (candidates : List (Request × QueueName)) : agents.orderCandidates applies affinity candidates =
      if agents.cacheAffinityScoreBand = 0 || !applies then agents.plainOrder candidates
      else ((agents.scoreBands agents.cacheAffinityScoreBand (agents.plainOrder candidates).length
        (agents.plainOrder candidates)).map (preferredOrder affinity)).flatten := rfl

theorem cachePreferred_eq (agents : Agents) (applies : Bool) (affinity : Request → ℚ × ℤ)
    (candidates : List (Request × QueueName)) : agents.cachePreferred applies affinity candidates =
      if agents.cacheAffinityScoreBand = 0 || !applies then []
      else (agents.scoreBands agents.cacheAffinityScoreBand (agents.plainOrder candidates).length
        (agents.plainOrder candidates)).flatMap fun group =>
          promoted group (preferredOrder affinity group) := rfl

/-- The order of the candidates is a permutation in which nobody overtakes a request whose score
is higher by more than the band. It keeps the order of the keys between requests with equal
affinity, and the preferred requests are those that come earlier than in the order of the
keys. -/
theorem orderCandidates_banded (agents : Agents) (applies : Bool) (affinity : Request → ℚ × ℤ)
    (candidates : List (Request × QueueName)) (hband : 0 < agents.cacheAffinityScoreBand)
    (hdistinct : (candidates.map (·.1.requestId)).Nodup) :
    (agents.orderCandidates applies affinity candidates).Perm candidates ∧
    (agents.orderCandidates applies affinity candidates).Pairwise (fun x y =>
      agents.score y.1.requestId ≤ agents.score x.1.requestId + agents.cacheAffinityScoreBand) ∧
    (∀ group ∈ agents.scoreBands agents.cacheAffinityScoreBand
        (agents.plainOrder candidates).length (agents.plainOrder candidates),
      ∀ x y, [x, y].Sublist group → affinity x.1 = affinity y.1 →
        [x, y].Sublist (agents.orderCandidates applies affinity candidates)) ∧
    ((∀ x ∈ candidates, ∀ y ∈ candidates, affinity x.1 = affinity y.1) →
      agents.orderCandidates applies affinity candidates = agents.plainOrder candidates) ∧
    ∀ id, id ∈ agents.cachePreferred applies affinity candidates ↔
      ((agents.orderCandidates applies affinity candidates).map (·.1.requestId)).idxOf id <
        ((agents.plainOrder candidates).map (·.1.requestId)).idxOf id := by
  refine ⟨agents.orderCandidates_perm applies affinity candidates, ?_⟩
  have hperm := agents.plainOrder_perm candidates
  have hscores := agents.plainOrder_score candidates
  have hnodup : ((agents.plainOrder candidates).map (·.1.requestId)).Nodup :=
    (hperm.map _).nodup_iff.mpr hdistinct
  have hflatten := agents.scoreBands_flatten agents.cacheAffinityScoreBand
    (agents.plainOrder candidates).length (agents.plainOrder candidates) le_rfl
  generalize hbands : agents.scoreBands agents.cacheAffinityScoreBand
    (agents.plainOrder candidates).length (agents.plainOrder candidates) = bands at hflatten
  rw [orderCandidates_eq, cachePreferred_eq, hbands]
  by_cases hplain : (agents.cacheAffinityScoreBand = 0 || !applies) = true
  · rw [if_pos hplain, if_pos hplain]
    refine ⟨hscores.imp fun {x y} h => by omega, fun group hgroup x y hxy _ => ?_, fun _ => rfl,
      fun id => ?_⟩
    · rw [← hflatten]
      exact hxy.trans (List.sublist_flatten_of_mem hgroup)
    · simp
  · rw [if_neg hplain, if_neg hplain]
    refine ⟨?_, fun group hgroup x y hxy heq => ?_, fun hequal => ?_, fun id => ?_⟩
    · refine pairwise_flatten_reordered (preferredOrder_perm affinity) ?_ ?_
      · intro group hgroup x hx y hy
        exact scoreBands_score hband.le _ hscores (hbands ▸ hgroup) hx hy
      · -- Scores descend from one band to the next.
        rw [← hflatten, List.pairwise_flatten] at hscores
        refine hscores.2.imp fun {g g'} h x hx y hy => ?_
        have := h x hx y hy
        omega
    · refine (preferredOrder_stable hxy heq).trans (List.sublist_flatten_of_mem ?_)
      exact List.mem_map_of_mem hgroup
    · have hmem : ∀ group ∈ bands, ∀ x ∈ group, x ∈ candidates := by
        intro group hgroup x hx
        rw [← hperm.mem_iff, ← hflatten]
        exact List.mem_flatten_of_mem hgroup hx
      have hsame : bands.map (preferredOrder affinity) = bands := by
        refine (List.map_congr_left fun group hgroup => ?_).trans (List.map_id bands)
        exact preferredOrder_eq fun x hx y hy =>
          hequal x (hmem group hgroup x hx) y (hmem group hgroup y hy)
      rw [hsame, hflatten]
    · rw [← hflatten] at hnodup ⊢
      exact mem_flatMap_promoted (preferredOrder_perm affinity) hnodup

/-- Two candidates whose scores are one apart, and a band of two. -/
def closeAgents : Agents where
  metadata := ["a", "b"]
  scores := .ofList [("a", 10), ("b", 9)]
  agentScores := .empty
  decodePrefillTokenBudget := 0
  cacheAffinityScoreBand := 2

def closeCandidates : List (Request × QueueName) :=
  [({ requestId := "a", promptTokenIds := [], maxTokens := 1 }, .waiting),
    ({ requestId := "b", promptTokenIds := [], maxTokens := 1 }, .waiting)]

/-- More of the prefix of `b` is in use. -/
def closeAffinity (request : Request) : ℚ × ℤ := if request.requestId = "b" then (1, 1) else (0, 0)

theorem plainOrder_close : closeAgents.plainOrder closeCandidates = closeCandidates :=
  List.mergeSort_of_pairwise (by decide +kernel)

theorem orderCandidates_close :
    closeAgents.orderCandidates true closeAffinity closeCandidates = closeCandidates.reverse := by
  have hbands : closeAgents.scoreBands 2 2 closeCandidates = [closeCandidates] := by decide +kernel
  have hpreferred : preferredOrder closeAffinity closeCandidates = closeCandidates.reverse := by
    simp [preferredOrder, closeCandidates, closeAffinity, List.mergeSort,
      List.MergeSort.Internal.splitInTwo, Prod.Lex.toLex_le_toLex]
  rw [orderCandidates_eq, plainOrder_close, if_neg (by decide)]
  change ((closeAgents.scoreBands 2 2 closeCandidates).map _).flatten = _
  rw [hbands, List.map_singleton, hpreferred]
  rfl

/-- The cache moves `b` before `a`, and only `b` is preferred. -/
theorem close_banded :
    closeAgents.orderCandidates true closeAffinity closeCandidates = closeCandidates.reverse ∧
    (closeAgents.orderCandidates true closeAffinity closeCandidates).Pairwise (fun x y =>
      closeAgents.score y.1.requestId ≤ closeAgents.score x.1.requestId + 2) ∧
    "b" ∈ closeAgents.cachePreferred true closeAffinity closeCandidates ∧
    "a" ∉ closeAgents.cachePreferred true closeAffinity closeCandidates := by
  obtain ⟨-, hbanded, -, -, hpreferred⟩ := orderCandidates_banded closeAgents true closeAffinity
    closeCandidates (by decide) (by decide +kernel)
  refine ⟨orderCandidates_close, hbanded, ?_, ?_⟩
  · rw [hpreferred, orderCandidates_close, plainOrder_close]
    decide +kernel
  · rw [hpreferred, orderCandidates_close, plainOrder_close]
    decide +kernel

end Result

end Agents

end TokenCake.Sched
