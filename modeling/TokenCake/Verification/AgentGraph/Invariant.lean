import TokenCake.Verification.AgentGraph.Graphs

/-! # The invariant of a request

`Frame` says what the run leaves of the graph, `Entries` which nodes have entered the waiting
list, and `Arrivals` which outputs have been delivered. While `submit_output` goes through the
successors of a node, the list `rest` of those still to come is owed an output. -/

namespace TokenCake.Agent

open Relation

variable {ν : Type} [DecidableEq ν] {g : LLMAppGraph ν} {r : ApplicationRequest ν}
  {u v w : ν} {rest : List ν}

/-- The edges of the entry node are the waiting list; all others are as they were. -/
structure Frame (g : LLMAppGraph ν) (r : ApplicationRequest ν) : Prop where
  entryNode_eq : r.graph.entryNode = g.entryNode
  exitNode_eq : r.graph.exitNode = g.exitNode
  nodes_eq : r.graph.nodes = g.nodes
  shared : r.ownList = none
  entry_key : ∃ l, r.graph.edges.get? g.entryNode = some l
  edges_eq : ∀ v, v ≠ g.entryNode → r.graph.edges.get? v = g.edges.get? v
  entry_finished : g.entryNode ∈ r.finishedNodes

structure Entries (g : LLMAppGraph ν) (rest : List ν) (r : ApplicationRequest ν) : Prop where
  finished_nodup : r.finishedNodes.Nodup
  completions_eq : completions r.history = r.finishedNodes
  waiting_nodup : r.waitingOrRunning.Nodup
  mem_waiting : ∀ v, v ∈ r.waitingOrRunning ↔ v ∈ entrances r.history ∧ v ∉ r.finishedNodes
  finished_entered : ∀ v ∈ r.finishedNodes, v = g.entryNode ∨ v ∈ entrances r.history
  entrances_nodup : (entrances r.history).Nodup
  entered_iff : ∀ v, v ∈ entrances r.history ↔
    v ∈ g.nodes.keys ∧ v ≠ g.entryNode ∧ v ∉ rest ∧ ∀ p, g.Edge p v → p ∈ r.finishedNodes
  ordered : Ordered g r.history

/-- The chain that `u` has left for `v`. -/
def queuedFor (r : ApplicationRequest ν) (v u : ν) : Option LLMTextChunkChain :=
  (r.queuedOutputs.get? v).bind (·.get? u)

structure Arrivals (g : LLMAppGraph ν) (u : ν) (rest : List ν) (r : ApplicationRequest ν) :
    Prop where
  output_of_finished : ∀ w ∈ r.finishedNodes, ∃ item, outputs r.history w = [item] ∧
    ∀ v, g.Edge w v → ¬ (w = u ∧ v ∈ rest) →
      ∃ chain, item.getItem v = some chain ∧ deliveries r.history w v = [chain]
  not_delivered : ∀ w v, ¬ (w ∈ r.finishedNodes ∧ g.Edge w v) ∨ (w = u ∧ v ∈ rest) →
    deliveries r.history w v = []
  no_output : ∀ w, w ∉ r.finishedNodes → outputs r.history w = []
  queued_eq : ∀ v w, queuedFor r v w = (deliveries r.history w v).head?

/-! ## The frame -/

namespace Frame

theorem waiting_eq (h : Frame g r) :
    r.graph.edges.get? g.entryNode = some r.waitingOrRunning := by
  obtain ⟨l, hl⟩ := h.entry_key
  simp [ApplicationRequest.waitingOrRunning, h.shared, LLMAppGraph.successors, h.entryNode_eq, hl]

theorem successors_eq (h : Frame g r) (hu : u ≠ g.entryNode) :
    r.graph.successors u = g.successors u := by
  rw [LLMAppGraph.successors, h.edges_eq u hu, LLMAppGraph.successors]

/-- The waiting list makes the entry node a predecessor of what waits; it has finished, so the
test of `submit_output` and `get_node_input` is about the edges of the graph. -/
theorem all_predecessors_iff (h : Frame g r) :
    (r.graph.predecessors v).all (· ∈ r.finishedNodes) = true ↔
      ∀ p, g.Edge p v → p ∈ r.finishedNodes := by
  simp only [List.all_eq_true, decide_eq_true_eq, LLMAppGraph.mem_predecessors]
  constructor
  · intro hall p hedge
    by_cases hp : p = g.entryNode
    · rw [hp]
      exact h.entry_finished
    · exact hall p (by rw [LLMAppGraph.Edge, h.successors_eq hp]; exact hedge)
  · intro hall p hedge
    by_cases hp : p = g.entryNode
    · rw [hp]
      exact h.entry_finished
    · exact hall p (by rw [LLMAppGraph.Edge, ← h.successors_eq hp]; exact hedge)

theorem getNode_eq (h : Frame g r) {node : Node ν} (hnode : g.nodes.get? u = some node) :
    r.graph.getNode u = .ok node := by
  rw [LLMAppGraph.getNode, h.nodes_eq, hnode]

theorem setWaitingOrRunning (h : Frame g r) (l : List ν) :
    Frame g (r.setWaitingOrRunning l) := by
  simp only [ApplicationRequest.setWaitingOrRunning, h.shared]
  refine ⟨h.entryNode_eq, h.exitNode_eq, h.nodes_eq, rfl, ⟨l, ?_⟩, fun v hv => ?_,
    h.entry_finished⟩
  · simp [OrdDict.get?_modify, h.entryNode_eq, h.waiting_eq]
  · simp [OrdDict.get?_modify, h.entryNode_eq, hv, h.edges_eq v hv]

theorem waiting_set (h : Frame g r) (l : List ν) :
    (r.setWaitingOrRunning l).waitingOrRunning = l := by
  have hframe := (h.setWaitingOrRunning l).waiting_eq
  have hset : (r.setWaitingOrRunning l).graph.edges.get? g.entryNode = some l := by
    simp [ApplicationRequest.setWaitingOrRunning, h.shared, OrdDict.get?_modify, h.entryNode_eq,
      h.waiting_eq]
  exact Option.some.inj (hframe.symm.trans hset)

end Frame

section Fields

@[simp] theorem setWaitingOrRunning_finishedNodes (l : List ν) :
    (r.setWaitingOrRunning l).finishedNodes = r.finishedNodes := by
  unfold ApplicationRequest.setWaitingOrRunning
  split <;> rfl

@[simp] theorem setWaitingOrRunning_history (l : List ν) :
    (r.setWaitingOrRunning l).history = r.history := by
  unfold ApplicationRequest.setWaitingOrRunning
  split <;> rfl

@[simp] theorem setWaitingOrRunning_queuedOutputs (l : List ν) :
    (r.setWaitingOrRunning l).queuedOutputs = r.queuedOutputs := by
  unfold ApplicationRequest.setWaitingOrRunning
  split <;> rfl

@[simp] theorem setWaitingOrRunning_runningNodeInputs (l : List ν) :
    (r.setWaitingOrRunning l).runningNodeInputs = r.runningNodeInputs := by
  unfold ApplicationRequest.setWaitingOrRunning
  split <;> rfl

end Fields

/-! ## Delivering one output -/

theorem Frame.receive (h : Frame g r) (chain : LLMTextChunkChain) :
    Frame g (r.receive u v chain) :=
  ⟨h.entryNode_eq, h.exitNode_eq, h.nodes_eq, h.shared, h.entry_key, h.edges_eq, h.entry_finished⟩

theorem Frame.enter (h : Frame g r) : Frame g (r.enter v) :=
  have hset := h.setWaitingOrRunning (r.waitingOrRunning ++ [v])
  ⟨hset.entryNode_eq, hset.exitNode_eq, hset.nodes_eq, hset.shared, hset.entry_key,
    hset.edges_eq, hset.entry_finished⟩

/-- The entries do not depend on anything else. -/
theorem Entries.congr {r' : ApplicationRequest ν} (h : Entries g rest r)
    (hfinished : r'.finishedNodes = r.finishedNodes)
    (hwaiting : r'.waitingOrRunning = r.waitingOrRunning)
    (hentrances : entrances r'.history = entrances r.history)
    (hcompletions : completions r'.history = completions r.history)
    (hordered : Ordered g r'.history) : Entries g rest r' where
  finished_nodup := hfinished ▸ h.finished_nodup
  completions_eq := by rw [hcompletions, hfinished, h.completions_eq]
  waiting_nodup := hwaiting ▸ h.waiting_nodup
  mem_waiting := by
    rw [hwaiting, hentrances, hfinished]
    exact h.mem_waiting
  finished_entered := by
    rw [hfinished, hentrances]
    exact h.finished_entered
  entrances_nodup := hentrances ▸ h.entrances_nodup
  entered_iff := by
    rw [hentrances, hfinished]
    exact h.entered_iff
  ordered := hordered

theorem Entries.receive (h : Entries g rest r) (chain : LLMTextChunkChain) :
    Entries g rest (r.receive u v chain) :=
  h.congr rfl rfl (by simp [ApplicationRequest.receive, Event.entrance?])
    (by simp [ApplicationRequest.receive, Event.completion?])
    (h.ordered.append_one (by rintro v ⟨⟩))

/-- The next successor has a predecessor that has not finished: it does not enter yet. -/
theorem Entries.skip (h : Entries g (v :: rest) r) (hwait : ¬ ∀ p, g.Edge p v → p ∈ r.finishedNodes) :
    Entries g rest r where
  finished_nodup := h.finished_nodup
  completions_eq := h.completions_eq
  waiting_nodup := h.waiting_nodup
  mem_waiting := h.mem_waiting
  finished_entered := h.finished_entered
  entrances_nodup := h.entrances_nodup
  ordered := h.ordered
  entered_iff := by
    intro w
    rw [h.entered_iff w]
    by_cases hw : w = v
    · subst hw
      simp [hwait]
    · simp [hw]

/-- The last predecessor of the next successor has finished: it enters. -/
theorem Entries.enter (hframe : Frame g r) (h : Entries g (v :: rest) r) (hv : v ∈ g.nodes.keys)
    (hne : v ≠ g.entryNode) (hrest : v ∉ rest) (hopen : v ∉ r.finishedNodes)
    (hready : ∀ p, g.Edge p v → p ∈ r.finishedNodes) : Entries g rest (r.enter v) := by
  have hnew : v ∉ entrances r.history := fun hmem =>
    ((h.entered_iff v).mp hmem).2.2.1 (List.mem_cons_self ..)
  have hentrances : entrances (r.enter v).history = entrances r.history ++ [v] := by
    simp [ApplicationRequest.enter, Event.entrance?]
  have hcompletions : completions (r.enter v).history = completions r.history := by
    simp [ApplicationRequest.enter, Event.completion?]
  have hfinished : (r.enter v).finishedNodes = r.finishedNodes := by
    simp [ApplicationRequest.enter]
  have hwaiting : (r.enter v).waitingOrRunning = r.waitingOrRunning ++ [v] :=
    hframe.waiting_set _
  constructor
  case finished_nodup => exact hfinished ▸ h.finished_nodup
  case completions_eq => rw [hcompletions, hfinished, h.completions_eq]
  case waiting_nodup =>
    rw [hwaiting]
    have hnot : v ∉ r.waitingOrRunning := fun hmem => hnew ((h.mem_waiting v).mp hmem).1
    exact List.nodup_append_comm.mp (List.nodup_cons.mpr ⟨hnot, h.waiting_nodup⟩)
  case mem_waiting =>
    intro w
    rw [hwaiting, hentrances, hfinished, List.mem_append, List.mem_append, h.mem_waiting w]
    by_cases hw : w = v
    · subst hw
      simp [hopen]
    · simp [hw]
  case finished_entered =>
    intro w hw
    rw [hentrances, List.mem_append]
    exact (h.finished_entered w (hfinished ▸ hw)).imp_right .inl
  case entrances_nodup =>
    rw [hentrances]
    exact List.nodup_append_comm.mp (List.nodup_cons.mpr ⟨hnew, h.entrances_nodup⟩)
  case entered_iff =>
    intro w
    rw [hentrances, hfinished, List.mem_append, List.mem_singleton, h.entered_iff w]
    by_cases hw : w = v
    · subst hw
      simpa [hv, hne, hrest] using hready
    · simp [hw]
  case ordered =>
    simp only [ApplicationRequest.enter, setWaitingOrRunning_history]
    refine h.ordered.append_one ?_
    intro w hw p hedge
    obtain rfl : v = w := by injection hw
    rw [h.completions_eq]
    exact hready p hedge

theorem Arrivals.enter (h : Arrivals g u rest r) : Arrivals g u rest (r.enter v) := by
  have houtputs : ∀ w, outputs (r.enter v).history w = outputs r.history w := by
    simp [ApplicationRequest.enter, Event.output?]
  have hdeliveries : ∀ w s, deliveries (r.enter v).history w s = deliveries r.history w s := by
    simp [ApplicationRequest.enter, Event.delivery?]
  have hfinished : (r.enter v).finishedNodes = r.finishedNodes := by
    simp [ApplicationRequest.enter]
  have hqueued : (r.enter v).queuedOutputs = r.queuedOutputs := by
    simp [ApplicationRequest.enter]
  constructor
  · simpa only [houtputs, hdeliveries, hfinished] using h.output_of_finished
  · simpa only [hdeliveries, hfinished] using h.not_delivered
  · simpa only [houtputs, hfinished] using h.no_output
  · simpa only [queuedFor, hqueued, hdeliveries] using h.queued_eq

theorem Arrivals.receive {chain : LLMTextChunkChain} {item : TransferDataItem ν}
    (h : Arrivals g u (v :: rest) r) (hrest : v ∉ rest) (hu : u ∈ r.finishedNodes)
    (hedge : g.Edge u v) (houtput : outputs r.history u = [item])
    (hitem : item.getItem v = some chain) : Arrivals g u rest (r.receive u v chain) := by
  have houtputs : ∀ w, outputs (r.receive u v chain).history w = outputs r.history w := by
    simp [ApplicationRequest.receive, Event.output?]
  have hother : ∀ w s, ¬ (w = u ∧ s = v) →
      deliveries (r.receive u v chain).history w s = deliveries r.history w s := by
    intro w s hne
    have hswap : ¬ (u = w ∧ v = s) := fun heq => hne ⟨heq.1.symm, heq.2.symm⟩
    simp [ApplicationRequest.receive, Event.delivery?, hswap]
  have hnone : deliveries r.history u v = [] :=
    h.not_delivered u v (.inr ⟨rfl, List.mem_cons_self ..⟩)
  have hself : deliveries (r.receive u v chain).history u v = [chain] := by
    simp [ApplicationRequest.receive, Event.delivery?, hnone]
  constructor
  case output_of_finished =>
    intro w hw
    obtain ⟨out, hout, hall⟩ := h.output_of_finished w hw
    refine ⟨out, (houtputs w).trans hout, fun s hs howed => ?_⟩
    by_cases heq : w = u ∧ s = v
    · obtain ⟨rfl, rfl⟩ := heq
      obtain rfl : out = item := List.singleton_inj.mp (hout.symm.trans houtput)
      exact ⟨chain, hitem, hself⟩
    · rw [hother w s heq]
      refine hall s hs fun hstill => ?_
      rcases List.mem_cons.mp hstill.2 with hsv | hmem
      · exact heq ⟨hstill.1, hsv⟩
      · exact howed ⟨hstill.1, hmem⟩
  case not_delivered =>
    intro w s hcase
    have hne : ¬ (w = u ∧ s = v) := by
      rintro ⟨rfl, rfl⟩
      rcases hcase with hno | hmem
      · exact hno ⟨hu, hedge⟩
      · exact hrest hmem.2
    rw [hother w s hne]
    exact h.not_delivered w s (hcase.imp_right fun hmem => ⟨hmem.1, List.mem_cons_of_mem _ hmem.2⟩)
  case no_output =>
    intro w hw
    exact (houtputs w).trans (h.no_output w hw)
  case queued_eq =>
    intro s w
    have hqueued : queuedFor (r.receive u v chain) s w =
        if s = v ∧ w = u then some chain else queuedFor r s w := by
      simp only [queuedFor, ApplicationRequest.receive, OrdDict.get?_insert]
      by_cases hs : s = v
      · subst hs
        by_cases hw : w = u
        · simp [hw]
        · cases r.queuedOutputs.get? s <;> simp [hw, OrdDict.get?_insert]
      · simp [hs]
    rw [hqueued]
    by_cases heq : w = u ∧ s = v
    · obtain ⟨rfl, rfl⟩ := heq
      simp [hself]
    · rw [hother w s heq, if_neg fun h' => heq h'.symm]
      exact h.queued_eq s w

/-! ## The loop of `submit_output` -/

/-- What holds while `item`, the output of `u`, is still to be delivered to `rest`. -/
structure Owing (g : LLMAppGraph ν) (u : ν) (item : TransferDataItem ν) (rest : List ν)
    (r : ApplicationRequest ν) : Prop where
  frame : Frame g r
  entries : Entries g rest r
  arrivals : Arrivals g u rest r
  output_eq : outputs r.history u = [item]
  finished : u ∈ r.finishedNodes
  rest_nodup : rest.Nodup
  rest_edges : ∀ v ∈ rest, g.Edge u v

/-- The nodes that run are not touched by the loop. -/
structure Continues (r r' : ApplicationRequest ν) : Prop where
  finishedNodes_eq : r'.finishedNodes = r.finishedNodes
  inputs_eq : r'.runningNodeInputs = r.runningNodeInputs
  waiting_subset : ∀ v ∈ r.waitingOrRunning, v ∈ r'.waitingOrRunning

theorem Continues.trans {r₁ r₂ r₃ : ApplicationRequest ν} (h : Continues r₁ r₂)
    (h' : Continues r₂ r₃) : Continues r₁ r₃ :=
  ⟨h'.finishedNodes_eq.trans h.finishedNodes_eq, h'.inputs_eq.trans h.inputs_eq,
    fun v hv => h'.waiting_subset v (h.waiting_subset v hv)⟩

theorem Continues.enter (hframe : Frame g r) (v : ν) : Continues r (r.enter v) where
  finishedNodes_eq := by simp [ApplicationRequest.enter]
  inputs_eq := by simp [ApplicationRequest.enter]
  waiting_subset := by
    intro w hw
    have hwaiting : (r.enter v).waitingOrRunning = r.waitingOrRunning ++ [v] :=
      hframe.waiting_set _
    rw [hwaiting]
    exact List.mem_append_left _ hw

/-- One round of the loop: no assertion fails, and the next successor has its chain. -/
theorem Owing.deliver (hg : g.Executable) {item : TransferDataItem ν}
    (h : Owing g u item (v :: rest) r) (hitem : (item.getItem v).isSome) :
    ∃ r', r.deliver u item v = .ok r' ∧ Owing g u item rest r' ∧ Continues r r' := by
  obtain ⟨chain, hchain⟩ := Option.isSome_iff_exists.mp hitem
  obtain ⟨hrest, hrest_nodup⟩ := List.nodup_cons.mp h.rest_nodup
  have hedge : g.Edge u v := h.rest_edges v (List.mem_cons_self ..)
  have hne : v ≠ g.entryNode := fun heq => hg.not_edge_entry (heq ▸ hedge)
  have hopen : v ∉ r.finishedNodes := by
    intro hmem
    rcases h.entries.finished_entered v hmem with heq | hentered
    · exact hne heq
    · exact ((h.entries.entered_iff v).mp hentered).2.2.1 (List.mem_cons_self ..)
  have hfree : ((r.queuedOutputs.get? v).getD .empty).contains u = false := by
    have hqueued : queuedFor r v u = none := by
      rw [h.arrivals.queued_eq, h.arrivals.not_delivered u v (.inr ⟨rfl, List.mem_cons_self ..⟩)]
      rfl
    rw [← Bool.not_eq_true, OrdDict.contains_iff]
    rintro ⟨c, hc⟩
    simp only [queuedFor] at hqueued
    cases hget : r.queuedOutputs.get? v <;> simp_all
  have hframe := h.frame.receive (u := u) (v := v) chain
  have hentries := h.entries.receive (u := u) (v := v) chain
  have harrivals := h.arrivals.receive hrest h.finished hedge h.output_eq hchain
  have houtput : outputs (r.receive u v chain).history u = [item] := by
    simpa [ApplicationRequest.receive, Event.output?] using h.output_eq
  have hcontinues : Continues r (r.receive u v chain) := ⟨rfl, rfl, fun _ hw => hw⟩
  have hrest_edges : ∀ s ∈ rest, g.Edge u s := fun s hs =>
    h.rest_edges s (List.mem_cons_of_mem _ hs)
  by_cases hready : ∀ p, g.Edge p v → p ∈ (r.receive u v chain).finishedNodes
  · refine ⟨(r.receive u v chain).enter v, ?_, ?_, hcontinues.trans (.enter hframe v)⟩
    · simp [ApplicationRequest.deliver, hfree, hchain, hframe.all_predecessors_iff.mpr hready]
    · refine ⟨hframe.enter, hentries.enter hframe (hg.edge_mem u v hedge).2 hne hrest hopen hready,
        harrivals.enter, ?_, ?_, hrest_nodup, hrest_edges⟩
      · simpa [ApplicationRequest.enter, Event.output?] using houtput
      · simpa [ApplicationRequest.enter, ApplicationRequest.receive] using h.finished
  · refine ⟨r.receive u v chain, ?_, ?_, hcontinues⟩
    · simp [ApplicationRequest.deliver, hfree, hchain, mt hframe.all_predecessors_iff.mp hready]
    · exact ⟨hframe, hentries.skip hready, harrivals, houtput, h.finished, hrest_nodup,
        hrest_edges⟩

theorem Owing.deliver_all (hg : g.Executable) {item : TransferDataItem ν}
    (hitem : ∀ v ∈ g.successors u, (item.getItem v).isSome) (h : Owing g u item rest r) :
    ∃ r', rest.foldlM (ApplicationRequest.deliver u item) r = .ok r' ∧
      Owing g u item [] r' ∧ Continues r r' := by
  induction rest generalizing r with
  | nil => exact ⟨r, rfl, h, rfl, rfl, fun _ hv => hv⟩
  | cons v rest ih =>
      obtain ⟨r₁, hdeliver, howing, hcontinues⟩ :=
        h.deliver hg (hitem v (h.rest_edges v (List.mem_cons_self ..)))
      obtain ⟨r₂, hloop, hdone, hcontinues'⟩ := ih howing
      refine ⟨r₂, ?_, hdone, hcontinues.trans hcontinues'⟩
      rw [List.foldlM_cons, hdeliver]
      exact hloop

end TokenCake.Agent
