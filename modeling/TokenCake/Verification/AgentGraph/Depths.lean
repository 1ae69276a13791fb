import TokenCake.Lib.Search
import TokenCake.Model.NodeDepths
import TokenCake.Verification.AgentGraph.Graphs

/-! # The depths of agent nodes

The loop of `analyse_depth_info` is a search that labels nodes at the first visit. For which graphs
the labels are distances in every order depends on the graph alone. -/

namespace TokenCake.Agent

/-- The state of the search: the depths found so far, and the nodes in `bfs_set`. -/
def DepthState.toSearch {ν : Type} [DecidableEq ν] (s : DepthState ν) : Search.State ν where
  label u := s.nodeDepthDict.get? u
  pending := {u | u ∈ s.bfsSet}

namespace InDegreePriorityGraph

open Relation Search

variable {ν τ : Type} [DecidableEq ν] {g g' : InDegreePriorityGraph ν τ} {s s' : DepthState ν}
  {u v : ν} {depths depths' : OrdDict ν ℕ} {order : List ν}

/-! ## The loop is a search -/

/-- The loop over the successors labels those that have no depth yet. -/
theorem foldlM_visitSon {depth : ℕ} (sons : List ν) (hu : s.nodeDepthDict.get? u = some depth) :
    ∃ s', sons.foldlM (visitSon u) s = .ok s' ∧
      (∀ v, s'.nodeDepthDict.get? v =
        if s.nodeDepthDict.get? v = none ∧ v ∈ sons then some (depth + 1)
        else s.nodeDepthDict.get? v) ∧
      ∀ v, v ∈ s'.bfsSet ↔ v ∈ s.bfsSet ∨ (s.nodeDepthDict.get? v = none ∧ v ∈ sons) := by
  induction sons generalizing s with
  | nil => exact ⟨s, rfl, by simp, by simp⟩
  | cons son sons ih =>
      by_cases hson : son ∈ s.nodeDepthDict.keys
      · obtain ⟨s', hloop, hdepths, hset⟩ := ih hu
        have hlabelled : s.nodeDepthDict.get? son ≠ none := fun hnone =>
          OrdDict.get?_eq_none_iff.mp hnone hson
        have hsons : ∀ v, (s.nodeDepthDict.get? v = none ∧ v ∈ son :: sons) ↔
            (s.nodeDepthDict.get? v = none ∧ v ∈ sons) := by
          intro v
          rw [List.mem_cons]
          constructor
          · rintro ⟨hnone, rfl | hv⟩
            · exact absurd hnone hlabelled
            · exact ⟨hnone, hv⟩
          · rintro ⟨hnone, hv⟩
            exact ⟨hnone, .inr hv⟩
        refine ⟨s', ?_, fun v => ?_, fun v => ?_⟩
        · rw [List.foldlM_cons, visitSon, if_pos hson]
          exact hloop
        · simp only [hdepths, hsons]
        · rw [hset, hsons]
      · have hnone := OrdDict.get?_eq_none_iff.mpr hson
        have hne : u ≠ son := by
          rintro rfl
          simp [hu] at hnone
        have hu' : (s.nodeDepthDict.insert son (depth + 1)).get? u = some depth := by
          rw [OrdDict.get?_insert, if_neg hne, hu]
        obtain ⟨s', hloop, hdepths, hset⟩ :=
          ih (s := ⟨s.nodeDepthDict.insert son (depth + 1), insert son s.bfsSet⟩) hu'
        refine ⟨s', ?_, fun v => ?_, fun v => ?_⟩
        · rw [List.foldlM_cons, visitSon, if_neg hson, hu]
          exact hloop
        · rw [hdepths, OrdDict.get?_insert]
          by_cases hv : v = son
          · simp [hv, hnone]
          · simp [hv]
        · rw [hset, OrdDict.get?_insert, Finset.mem_insert]
          by_cases hv : v = son
          · simp [hv, hnone]
          · simp [hv]

theorem visitNode_expand (hu : s.toSearch.label u ≠ none) :
    ∃ s', g.visitNode s u = .ok s' ∧ s'.toSearch = s.toSearch.expand g.Edge u := by
  obtain ⟨depth, hdepth⟩ := Option.ne_none_iff_exists'.mp hu
  have hdepth : s.nodeDepthDict.get? u = some depth := hdepth
  obtain ⟨s', hloop, hdepths, hset⟩ := foldlM_visitSon
    (s := { s with bfsSet := s.bfsSet.erase u }) (g.successors u) hdepth
  refine ⟨s', hloop, ?_⟩
  have hlabel : s'.toSearch.label = (s.toSearch.expand g.Edge u).label := by
    funext v
    refine (hdepths v).trans ?_
    by_cases hv : s.nodeDepthDict.get? v = none ∧ v ∈ g.successors u
    · rw [if_pos hv, expand_label_new hv.1 hv.2]
      exact (congrArg (Option.map (· + 1)) hdepth).symm
    · rw [if_neg hv, expand_label_old hv]
      rfl
  have hpending : s'.toSearch.pending = (s.toSearch.expand g.Edge u).pending := by
    ext v
    refine (hset v).trans ?_
    rw [Finset.mem_erase, and_comm]
    rfl
  calc s'.toSearch = ⟨s'.toSearch.label, s'.toSearch.pending⟩ := rfl
    _ = s.toSearch.expand g.Edge u := by rw [hlabel, hpending]

theorem toSearch_initialDepths : g.initialDepths.toSearch = start g.entryNode := by
  have hlabel : g.initialDepths.toSearch.label = (start g.entryNode).label := by
    funext v
    by_cases hv : v = g.entryNode <;>
      simp [DepthState.toSearch, initialDepths, start, OrdDict.ofList, OrdDict.get?_insert, hv]
  have hpending : g.initialDepths.toSearch.pending = (start g.entryNode).pending := by
    ext v
    simp [DepthState.toSearch, initialDepths, start]
  calc g.initialDepths.toSearch =
        ⟨g.initialDepths.toSearch.label, g.initialDepths.toSearch.pending⟩ := rfl
    _ = start g.entryNode := by rw [hlabel, hpending]

/-- Runs of the loop are runs of the search. -/
theorem run_search (h : Explored g.Edge g.entryNode s.toSearch) (run : Run g.Pops s order s') :
    Run (Step g.Edge) s.toSearch order s'.toSearch := by
  induction run with
  | nil => exact .nil _
  | cons hstep _ ih =>
      obtain ⟨hu, hvisit⟩ := hstep
      obtain ⟨t, hvisit', ht⟩ := visitNode_expand (g := g) (h.pending_label _ hu)
      obtain rfl : _ = t := Except.ok.inj (hvisit.symm.trans hvisit')
      have hstep : Step g.Edge _ _ _ := ⟨hu, ht⟩
      exact .cons hstep (ih (h.step hstep))

/-- Runs of the search are runs of the loop. -/
theorem exists_run {t t' : Search.State ν} (h : Explored g.Edge g.entryNode t)
    (run : Run (Step g.Edge) t order t') (hs : s.toSearch = t) :
    ∃ s', Run g.Pops s order s' ∧ s'.toSearch = t' := by
  induction run generalizing s with
  | nil => exact ⟨s, .nil s, hs⟩
  | cons hstep _ ih =>
      subst hs
      obtain ⟨s₁, hvisit, hs₁⟩ := visitNode_expand (g := g) (h.pending_label _ hstep.1)
      obtain ⟨s', hrun, hs'⟩ := ih (h.step hstep) (hs₁.trans hstep.2.symm)
      exact ⟨s', .cons ⟨hstep.1, hvisit⟩ hrun, hs'⟩

/-! ## The depths of the nodes -/

/-- The last loop gives every node of a list its depth. -/
theorem foldlM_assignDepth (us : List ν) (g : InDegreePriorityGraph ν τ)
    (hus : ∀ u ∈ us, depths.get? u ≠ none) :
    ∃ g', us.foldlM (assignDepth depths) g = .ok g' ∧
      ∀ u, (g'.kvargs u).depth = if u ∈ us then depths.get? u else (g.kvargs u).depth := by
  induction us generalizing g with
  | nil => exact ⟨g, rfl, by simp⟩
  | cons u us ih =>
      obtain ⟨hu, hus⟩ := List.forall_mem_cons.mp hus
      obtain ⟨depth, hdepth⟩ := Option.ne_none_iff_exists'.mp hu
      obtain ⟨g', hrest, hg'⟩ := ih (g.addKvargs u fun k => { k with depth := some depth }) hus
      refine ⟨g', ?_, fun v => ?_⟩
      · rw [List.foldlM_cons, assignDepth, hdepth]
        exact hrest
      · rw [hg']
        by_cases hv : v = u
        · subst hv
          simp [addKvargs, hdepth]
        · simp [addKvargs, hv]

theorem analyseDepthInfo_ok (h : ∀ u ∈ g.nodes.keys, depths.get? u ≠ none) :
    ∃ g', g.analyseDepthInfo depths = .ok g' ∧
      ∀ u ∈ g.nodes.keys, (g'.kvargs u).depth = depths.get? u := by
  obtain ⟨g', hrun, hg'⟩ := foldlM_assignDepth g.nodes.keys g h
  exact ⟨g', hrun, fun u hu => (hg' u).trans (if_pos hu)⟩

/-- `analyse_depth_info` reads the depths of the nodes only. -/
theorem analyseDepthInfo_congr (h : ∀ u ∈ g.nodes.keys, depths.get? u = depths'.get? u) :
    g.analyseDepthInfo depths = g.analyseDepthInfo depths' := by
  have hloop : ∀ (us : List ν) (g : InDegreePriorityGraph ν τ),
      (∀ u ∈ us, depths.get? u = depths'.get? u) →
      us.foldlM (assignDepth depths) g = us.foldlM (assignDepth depths') g := by
    intro us
    induction us with
    | nil => exact fun g _ => rfl
    | cons u us ih =>
        intro g hus
        obtain ⟨hu, hus⟩ := List.forall_mem_cons.mp hus
        rw [List.foldlM_cons, List.foldlM_cons, assignDepth, assignDepth, hu]
        cases depths'.get? u with
        | none => rfl
        | some depth => exact ih _ hus
  exact hloop g.nodes.keys g h

theorem mem_keys_of_walk (hg : g.Wired) {n : ℕ} (hwalk : Walk g.Edge g.entryNode n u) :
    u ∈ g.nodes.keys := by
  cases hwalk with
  | root => exact hg.entry_mem
  | step _ hedge => exact (hg.edge_mem _ _ hedge).2

/-- The nodes are finitely many and the edges lead to nodes. -/
theorem finite_reachable (hg : g.Wired) : {u | ∃ n, Walk g.Edge g.entryNode n u}.Finite :=
  (List.finite_toSet g.nodes.keys).subset fun _ ⟨_, hwalk⟩ => mem_keys_of_walk hg hwalk

theorem exists_walk (h : ReflTransGen g.Edge g.entryNode u) :
    ∃ n, Walk g.Edge g.entryNode n u := by
  induction h with
  | refl => exact ⟨0, .root⟩
  | tail _ hedge ih =>
      obtain ⟨n, hwalk⟩ := ih
      exact ⟨n + 1, .step hwalk hedge⟩

/-- The loop ends in every order, after at most one round for every node. -/
theorem depthLoop_terminates (hg : g.Wired) (run : Run g.Pops g.initialDepths order s) :
    order.length ≤ g.nodes.size ∧
      ∃ rest s', Run g.Pops s rest s' ∧ g.NodeDepths s'.nodeDepthDict := by
  have hstart : Explored g.Edge g.entryNode g.initialDepths.toSearch :=
    toSearch_initialDepths (g := g) ▸ explored_start
  have hrun := run_search hstart run
  have hs : Explored g.Edge g.entryNode s.toSearch :=
    hrun.invariant (fun _ _ _ _ h hstep => h.step hstep) hstart
  constructor
  · have hlength := hstart.run_length_le (finite_reachable hg) hrun
    have hnodes : (untaken g.Edge g.entryNode g.initialDepths.toSearch).ncard ≤ g.nodes.size := by
      have hsubset : untaken g.Edge g.entryNode g.initialDepths.toSearch ⊆
          (g.nodes.keys.toFinset : Set ν) := by
        rintro u ⟨⟨n, hwalk⟩, -⟩
        exact List.mem_toFinset.mpr (mem_keys_of_walk hg hwalk)
      refine (Set.ncard_le_ncard hsubset (Finset.finite_toSet _)).trans ?_
      rw [Set.ncard_coe_finset]
      refine (List.toFinset_card_le _).trans ?_
      rw [OrdDict.keys, List.length_map, OrdDict.size]
    omega
  · obtain ⟨rest, t, hrest, hdone⟩ := hs.exists_finish (finite_reachable hg)
    obtain ⟨s', hrun', rfl⟩ := exists_run hs hrest rfl
    refine ⟨rest, s', hrun', order ++ rest, s', run.append hrun', ?_, rfl⟩
    exact Finset.eq_empty_of_forall_notMem fun u hu => by
      have hmem : u ∈ s'.toSearch.pending := hu
      simp [hdone] at hmem

/-! ## Distances -/

/-- What the depths found in one order are. -/
theorem NodeDepths.labels (h : g.NodeDepths depths) :
    ∃ order s, Run (Step g.Edge) (start g.entryNode) order s ∧ s.pending = ∅ ∧
      s.label = depths.get? := by
  obtain ⟨order, s, run, hdone, rfl⟩ := h
  have hstart : Explored g.Edge g.entryNode g.initialDepths.toSearch :=
    toSearch_initialDepths (g := g) ▸ explored_start
  have hrun := run_search hstart run
  rw [toSearch_initialDepths] at hrun
  refine ⟨order, s.toSearch, hrun, ?_, rfl⟩
  ext u
  simp [DepthState.toSearch, hdone]

theorem nodeDepths_of_labels {t : Search.State ν}
    (run : Run (Step g.Edge) (start g.entryNode) order t) (hdone : t.pending = ∅) :
    ∃ depths, g.NodeDepths depths ∧ t.label = depths.get? := by
  obtain ⟨s, hrun, rfl⟩ := exists_run explored_start run toSearch_initialDepths
  refine ⟨s.nodeDepthDict, ⟨order, s, hrun, ?_, rfl⟩, rfl⟩
  refine Finset.eq_empty_of_forall_notMem fun u hu => ?_
  have hmem : u ∈ s.toSearch.pending := hu
  simp [hdone] at hmem

/-- Every node that can be reached gets a depth. -/
theorem NodeDepths.ne_none (h : g.NodeDepths depths) {n : ℕ}
    (hwalk : Walk g.Edge g.entryNode n u) : depths.get? u ≠ none := by
  obtain ⟨order, s, run, hdone, hlabel⟩ := h.labels
  exact hlabel ▸ (explored_of_run run).label_of_walk hdone hwalk

variable [DecidableEq τ]

/-- In whatever order the loop takes the nodes, the depths are distances from the entry node, and
a request is sent with the same metadata. -/
structure Reproducible (g : InDegreePriorityGraph ν τ) : Prop where
  shortest : ∀ depths, g.NodeDepths depths → ∃ g', g.analyseDepthInfo depths = .ok g' ∧
    ∀ u ∈ g.nodes.keys, ∃ depth, (g'.kvargs u).depth = some depth ∧
      Distance g.Edge g.entryNode u depth
  metadata : ∀ depths depths', g.NodeDepths depths → g.NodeDepths depths' →
    ∃ g' g'', g.setPriorities depths = .ok g' ∧ g.setPriorities depths' = .ok g'' ∧
      ∀ u ∈ g.nodes.keys, g'.agentInfo u = g''.agentInfo u

/-- The depths do not depend on the order just when every predecessor of a node that can be taken
before its other predecessors is one edge nearer to the entry node. -/
theorem reproducible_iff (hg : g.Wired)
    (hreach : ∀ u ∈ g.nodes.keys, ReflTransGen g.Edge g.entryNode u) :
    g.Reproducible ↔ Unambiguous g.Edge g.entryNode := by
  have hlabelled : ∀ depths, g.NodeDepths depths → ∀ u ∈ g.nodes.keys, depths.get? u ≠ none := by
    intro depths hdepths u hu
    obtain ⟨n, hwalk⟩ := exists_walk (hreach u hu)
    exact hdepths.ne_none hwalk
  constructor
  · intro h
    refine (labels_distance_iff (finite_reachable hg)).mp fun order t run hdone u n hu => ?_
    obtain ⟨depths, hdepths, hlabel⟩ := nodeDepths_of_labels run hdone
    have hmem := mem_keys_of_walk hg ((explored_of_run run).walk u n hu)
    obtain ⟨g', hrun, hdistances⟩ := h.shortest depths hdepths
    obtain ⟨g'', hrun', hdepth⟩ := analyseDepthInfo_ok (hlabelled depths hdepths)
    obtain rfl : g' = g'' := Except.ok.inj (hrun.symm.trans hrun')
    obtain ⟨depth, hget, hdistance⟩ := hdistances u hmem
    rw [hdepth u hmem, ← hlabel, hu] at hget
    exact Option.some.inj hget ▸ hdistance
  · intro h
    have hdistance : ∀ depths, g.NodeDepths depths → ∀ u ∈ g.nodes.keys,
        ∃ depth, depths.get? u = some depth ∧ Distance g.Edge g.entryNode u depth := by
      intro depths hdepths u hu
      obtain ⟨depth, hdepth⟩ := Option.ne_none_iff_exists'.mp (hlabelled depths hdepths u hu)
      obtain ⟨order, s, run, hdone, hlabel⟩ := hdepths.labels
      exact ⟨depth, hdepth, label_distance h run (hlabel ▸ hdepth)⟩
    refine ⟨fun depths hdepths => ?_, fun depths depths' hdepths hdepths' => ?_⟩
    · obtain ⟨g', hrun, hg'⟩ := analyseDepthInfo_ok (hlabelled depths hdepths)
      refine ⟨g', hrun, fun u hu => ?_⟩
      rw [hg' u hu]
      exact hdistance depths hdepths u hu
    · have heq : ∀ u ∈ g.nodes.keys, depths.get? u = depths'.get? u := by
        intro u hu
        obtain ⟨depth, hdepth, hu₁⟩ := hdistance depths hdepths u hu
        obtain ⟨depth', hdepth', hu₂⟩ := hdistance depths' hdepths' u hu
        rw [hdepth, hdepth', hu₁.unique hu₂]
      obtain ⟨g', hrun, -⟩ := analyseDepthInfo_ok (hlabelled depths hdepths)
      have hset : ∃ g'', g.setPriorities depths = .ok g'' := by
        rw [setPriorities, hrun]
        exact ⟨_, rfl⟩
      obtain ⟨g'', hset⟩ := hset
      refine ⟨g'', g'', hset, ?_, fun u _ => rfl⟩
      rw [setPriorities, ← analyseDepthInfo_congr heq]
      exact hset

/-! ### Branches of different lengths -/

/-- Node `2` leads to the exit node `1` at once, node `3` by way of node `4`. -/
def forked : InDegreePriorityGraph ℕ String where
  entryNode := 0
  exitNode := 1
  nodes := .ofList [(0, .void), (1, .void), (2, .void), (3, .void), (4, .void)]
  edges := .ofList [(0, [2, 3]), (2, [1]), (3, [4]), (4, [1])]
  nodeType _ := "llm"
  kvargs _ := {}

theorem forked_edge_iff {u v : ℕ} :
    forked.Edge u v ↔ (u, v) ∈ [(0, 2), (0, 3), (2, 1), (3, 4), (4, 1)] := by
  have hentries : forked.edges.entries = [(0, [2, 3]), (2, [1]), (3, [4]), (4, [1])] := by decide
  rw [LLMAppGraph.edge_iff]
  simp only [OrdDict.get?_eq_some_iff, hentries, List.mem_cons, List.not_mem_nil, or_false,
    Prod.mk.injEq]
  constructor
  · rintro ⟨l, (⟨rfl, rfl⟩ | ⟨rfl, rfl⟩ | ⟨rfl, rfl⟩ | ⟨rfl, rfl⟩), hv⟩ <;> simp_all
  · rintro (⟨rfl, rfl⟩ | ⟨rfl, rfl⟩ | ⟨rfl, rfl⟩ | ⟨rfl, rfl⟩ | ⟨rfl, rfl⟩) <;> simp

theorem forked_wired : forked.Wired := by
  refine ⟨by decide, by decide, fun u v h => ?_⟩
  have hkeys : forked.nodes.keys = [0, 1, 2, 3, 4] := by decide
  have hedge := forked_edge_iff.mp h
  rw [hkeys]
  simp only [List.mem_cons, List.not_mem_nil, or_false, Prod.mk.injEq] at hedge ⊢
  omega

theorem forked_reachable : ∀ u ∈ forked.nodes.keys, ReflTransGen forked.Edge forked.entryNode u := by
  intro u hu
  have hkeys : forked.nodes.keys = [0, 1, 2, 3, 4] := by decide
  rw [hkeys] at hu
  have hone : ∀ v, forked.Edge 0 v → ReflTransGen forked.Edge 0 v := fun v => .single
  simp only [List.mem_cons, List.not_mem_nil, or_false] at hu
  rcases hu with rfl | rfl | rfl | rfl | rfl
  · exact .refl
  · exact (hone 2 (forked_edge_iff.mpr (by decide))).tail (forked_edge_iff.mpr (by decide))
  · exact hone 2 (forked_edge_iff.mpr (by decide))
  · exact hone 3 (forked_edge_iff.mpr (by decide))
  · exact (hone 3 (forked_edge_iff.mpr (by decide))).tail (forked_edge_iff.mpr (by decide))

/-- The exit node is two edges away. -/
theorem forked_exit_walk : Walk forked.Edge forked.entryNode 2 1 := by
  have hfirst : forked.Edge 0 2 := forked_edge_iff.mpr (by decide)
  have hsecond : forked.Edge 2 1 := forked_edge_iff.mpr (by decide)
  exact .step (.step .root hfirst) hsecond

theorem forked_not_unambiguous : ¬Unambiguous forked.Edge forked.entryNode := by
  intro h
  have hnot : ∀ u v, (u, v) ∉ [(0, 2), (0, 3), (2, 1), (3, 4), (4, 1)] → ¬forked.Edge u v :=
    fun u v hout hedge => hout (forked_edge_iff.mp hedge)
  have hfirst : forked.Edge 0 3 := forked_edge_iff.mpr (by decide)
  have hsecond : forked.Edge 3 4 := forked_edge_iff.mpr (by decide)
  have hlast : forked.Edge 4 1 := forked_edge_iff.mpr (by decide)
  have hthree : Before forked.Edge 0 1 3 := .step .root (hnot 0 1 (by decide)) hfirst
  have hfour : Before forked.Edge 0 1 4 := .step hthree (hnot 3 1 (by decide)) hsecond
  have hrank : ∀ n u, Walk forked.Edge 0 n u →
      (if u = 0 then 0 else if u = 2 ∨ u = 3 then 1 else 2) ≤ n := by
    intro n u hwalk
    induction hwalk with
    | root => decide
    | step _ hedge ih =>
        have hmem := forked_edge_iff.mp hedge
        simp only [List.mem_cons, List.not_mem_nil, or_false, Prod.mk.injEq] at hmem
        rcases hmem with ⟨rfl, rfl⟩ | ⟨rfl, rfl⟩ | ⟨rfl, rfl⟩ | ⟨rfl, rfl⟩ | ⟨rfl, rfl⟩ <;>
          simp at ih ⊢ <;> omega
  have hwalk : Walk forked.Edge 0 2 4 := .step (.step .root hfirst) hsecond
  have hdistance : Distance forked.Edge 0 4 2 := ⟨hwalk, fun n hn => hrank n 4 hn⟩
  have hexit := h 4 1 (by decide) hfour hlast 2 hdistance
  have hle : 3 ≤ 2 := hexit.2 forked_exit_walk
  omega

theorem forked_not_reproducible : ¬forked.Reproducible := fun h =>
  forked_not_unambiguous ((reproducible_iff forked_wired forked_reachable).mp h)

/-- `set_priorities` when the nodes are popped in the order of the list. -/
def prioritiesInOrder? (g : InDegreePriorityGraph ν τ) (order : List ν) :
    Option (InDegreePriorityGraph ν τ) := do
  let s ← order.foldlM (fun s u => if u ∈ s.bfsSet then (g.visitNode s u).toOption else none)
    g.initialDepths
  if s.bfsSet = ∅ then (g.setPriorities s.nodeDepthDict).toOption else none

theorem nodeDepths_of_prioritiesInOrder? (h : g.prioritiesInOrder? order = some g') :
    ∃ depths, g.NodeDepths depths ∧ g.setPriorities depths = .ok g' := by
  obtain ⟨s, hloop, hrest⟩ := Option.bind_eq_some_iff.mp h
  split at hrest
  · next hdone =>
      refine ⟨s.nodeDepthDict, ⟨order, s, ?_, hdone, rfl⟩, ?_⟩
      · refine Run.of_foldlM (fun s u t hstep => ?_) hloop
        split at hstep
        · next hu =>
            cases hvisit : g.visitNode s u with
            | error e => simp [hvisit, Except.toOption] at hstep
            | ok t' =>
                simp only [hvisit, Except.toOption, Option.some.injEq] at hstep
                exact ⟨hu, hstep ▸ hvisit⟩
        · cases hstep
      · cases hset : g.setPriorities s.nodeDepthDict with
        | error e => simp [hset, Except.toOption] at hrest
        | ok g'' =>
            simp only [hset, Except.toOption, Option.some.injEq] at hrest
            rw [hrest]
  · cases hrest

/-- When the long branch is taken first, the exit node gets the depth three and the request for
node `2` another remaining depth. -/
theorem forked_depths_vary : (∀ u ∈ forked.nodes.keys, ReflTransGen forked.Edge forked.entryNode u) ∧
    Walk forked.Edge forked.entryNode 2 1 ∧
    ∃ depths depths' g' g'', forked.NodeDepths depths ∧ forked.NodeDepths depths' ∧
      forked.setPriorities depths = .ok g' ∧ forked.setPriorities depths' = .ok g'' ∧
      (g'.kvargs 1).depth = some 3 ∧ (g'.agentInfo 2).remainingDepth = 2 ∧
      (g''.kvargs 1).depth = some 2 ∧ (g''.agentInfo 2).remainingDepth = 1 := by
  have hlong : (forked.prioritiesInOrder? [0, 3, 4, 1, 2]).any (fun g' =>
      decide ((g'.kvargs 1).depth = some 3 ∧ (g'.agentInfo 2).remainingDepth = 2)) = true := by
    decide +kernel
  have hshort : (forked.prioritiesInOrder? [0, 2, 1, 3, 4]).any (fun g' =>
      decide ((g'.kvargs 1).depth = some 2 ∧ (g'.agentInfo 2).remainingDepth = 1)) = true := by
    decide +kernel
  obtain ⟨g', hg', hlong⟩ := (Option.any_eq_true ..).mp hlong
  obtain ⟨g'', hg'', hshort⟩ := (Option.any_eq_true ..).mp hshort
  obtain ⟨depths, hdepths, hset⟩ := nodeDepths_of_prioritiesInOrder? hg'
  obtain ⟨depths', hdepths', hset'⟩ := nodeDepths_of_prioritiesInOrder? hg''
  obtain ⟨hdepth, hremaining⟩ := of_decide_eq_true hlong
  obtain ⟨hdepth', hremaining'⟩ := of_decide_eq_true hshort
  exact ⟨forked_reachable, forked_exit_walk, depths, depths', g', g'', hdepths, hdepths', hset,
    hset', hdepth, hremaining, hdepth', hremaining'⟩

end InDegreePriorityGraph

end TokenCake.Agent
