import TokenCake.Lib.Run
import TokenCake.Verification.AgentGraph.Invariant

/-! # The executor respects dependencies and does not get stuck -/

namespace TokenCake.Agent

open Relation

variable {ν : Type} [DecidableEq ν] {g : LLMAppGraph ν} {r : ApplicationRequest ν} {u v : ν}

/-! ## Requests between two calls -/

structure Idle (g : LLMAppGraph ν) (r : ApplicationRequest ν) : Prop where
  frame : Frame g r
  entries : Entries g [] r
  arrivals : Arrivals g g.entryNode [] r

theorem Owing.idle {item : TransferDataItem ν} (h : Owing g u item [] r) : Idle g r where
  frame := h.frame
  entries := h.entries
  arrivals :=
    ⟨fun w hw => (h.arrivals.output_of_finished w hw).imp fun _ hout =>
        ⟨hout.1, fun v hedge _ => hout.2 v hedge (by simp)⟩,
      fun w v hcase => h.arrivals.not_delivered w v (hcase.imp_right (by simp)),
      h.arrivals.no_output, h.arrivals.queued_eq⟩

namespace Idle

theorem mem_nodes (h : Idle g r) (hu : u ∈ r.waitingOrRunning) :
    u ∈ g.nodes.keys ∧ u ≠ g.entryNode ∧ u ∉ r.finishedNodes ∧
      ∀ p, g.Edge p u → p ∈ r.finishedNodes := by
  obtain ⟨hentered, hopen⟩ := (h.entries.mem_waiting u).mp hu
  obtain ⟨hmem, hne, _, hready⟩ := (h.entries.entered_iff u).mp hentered
  exact ⟨hmem, hne, hopen, hready⟩

/-- A waiting node has at least one chain in its queue. -/
theorem queued (hg : g.Executable) (h : Idle g r) (hu : u ∈ r.waitingOrRunning) :
    ∃ queue, r.queuedOutputs.get? u = some queue := by
  obtain ⟨hmem, hne, _, hready⟩ := h.mem_nodes hu
  obtain ⟨p, hedge⟩ := hg.exists_edge hmem hne
  obtain ⟨item, _, hall⟩ := h.arrivals.output_of_finished p (hready p hedge)
  obtain ⟨chain, _, hdelivered⟩ := hall u hedge (by simp)
  have hqueued : queuedFor r u p = some chain := by
    rw [h.arrivals.queued_eq, hdelivered]
    rfl
  obtain ⟨queue, hqueue, _⟩ := Option.bind_eq_some_iff.mp hqueued
  exact ⟨queue, hqueue⟩

end Idle

/-! ## Starting a node -/

/-- Local nodes take the queued item, the others the chain made of it. -/
def Node.Accepts : Node ν → NodeInput ν → Prop
  | .llm _ _ _, .chain _ => True
  | .void, .item _ => True
  | .text _, .item _ => True
  | _, _ => False

theorem getNodeInput_ok (hg : g.Executable) (h : Idle g r) (hu : u ∈ r.waitingOrRunning) :
    ∃ node input, g.nodes.get? u = some node ∧ r.graph.getNode u = .ok node ∧
      r.getNodeInput u = .ok input ∧ node.Accepts input := by
  obtain ⟨hmem, _, _, hready⟩ := h.mem_nodes hu
  obtain ⟨node, hnode⟩ := OrdDict.mem_keys_iff.mp hmem
  obtain ⟨queue, hqueue⟩ := h.queued hg hu
  have hget := h.frame.getNode_eq hnode
  have hall := h.frame.all_predecessors_iff.mpr hready
  have hcall : r.getNodeInput u =
      if node.typeStep = 1 then .ok (.item (.map queue))
      else (node.preprocess (.map queue)).map .chain := by
    simp only [ApplicationRequest.getNodeInput, hget, hqueue, hall, if_true]
    rfl
  cases node with
  | void => exact ⟨_, .item (.map queue), hnode, hget, hcall, trivial⟩
  | text composer => exact ⟨_, .item (.map queue), hnode, hget, hcall, trivial⟩
  | llm needValue inputComposer outputComposer =>
      refine ⟨_, .chain (inputComposer (.map queue)), hnode, hget, ?_, trivial⟩
      rw [hcall, if_neg]
      · rfl
      · cases needValue <;> simp [Node.typeStep]

/-! ## Submitting an output -/

/-- The output of a task can be turned into an item for all successors. -/
theorem composeOutput_ok {node : Node ν} {input : NodeInput ν} (haccepts : node.Accepts input)
    (hserves : node.Serves (g.successors u)) (reply : String) :
    ∃ output item, sendRequest node input reply = .ok output ∧
      ApplicationRequest.composeOutput node input output = .ok item ∧
      ∀ v ∈ g.successors u, (item.getItem v).isSome := by
  cases node with
  | void =>
      cases input with
      | item i => exact ⟨.item i, i, rfl, rfl, hserves i⟩
      | chain c => exact haccepts.elim
  | text composer =>
      cases input with
      | item i => exact ⟨.item (composer i), composer i, rfl, rfl, hserves i⟩
      | chain c => exact haccepts.elim
  | llm needValue inputComposer outputComposer =>
      cases input with
      | item i => exact haccepts.elim
      | chain c =>
          refine ⟨.text reply, outputComposer ⟨c.chunks ++ [⟨reply⟩]⟩, ?_, ?_, hserves _⟩
          · cases needValue <;> rfl
          · cases needValue <;> rfl

/-- The request when `submit_output` reaches its loop. -/
def composed (r : ApplicationRequest ν) (u : ν) (item : TransferDataItem ν) :
    ApplicationRequest ν :=
  let retired := r.retire u
  { retired with
    runningNodeInputs := retired.runningNodeInputs.erase u
    middleOutputs := retired.middleOutputs ++ [item.toText]
    history := retired.history ++ [Event.composed u item] }

section Composed

variable (item : TransferDataItem ν)

@[simp] theorem composed_finishedNodes :
    (composed r u item).finishedNodes = r.finishedNodes ++ [u] := by
  simp [composed, ApplicationRequest.retire]

theorem composed_history :
    (composed r u item).history = r.history ++ [.finished u] ++ [.composed u item] := by
  simp [composed, ApplicationRequest.retire]

@[simp] theorem composed_queuedOutputs :
    (composed r u item).queuedOutputs = r.queuedOutputs := by
  simp [composed, ApplicationRequest.retire]

@[simp] theorem composed_runningNodeInputs :
    (composed r u item).runningNodeInputs = r.runningNodeInputs.erase u := by
  simp [composed, ApplicationRequest.retire]

theorem Frame.composed (h : Frame g r) : Frame g (composed r u item) :=
  have hset := h.setWaitingOrRunning (r.waitingOrRunning.erase u)
  ⟨hset.entryNode_eq, hset.exitNode_eq, hset.nodes_eq, hset.shared, hset.entry_key,
    hset.edges_eq, by simp [h.entry_finished]⟩

theorem composed_waiting (h : Frame g r) :
    (Agent.composed r u item).waitingOrRunning = r.waitingOrRunning.erase u :=
  h.waiting_set _

end Composed

theorem Idle.composed (hg : g.Executable) (h : Idle g r) (hu : u ∈ r.waitingOrRunning)
    (item : TransferDataItem ν) : Owing g u item (g.successors u) (composed r u item) := by
  obtain ⟨_, hentry, hopen, _⟩ := h.mem_nodes hu
  have hentrances : entrances (Agent.composed r u item).history = entrances r.history := by
    simp [composed_history, Event.entrance?, -List.append_assoc]
  have hdeliveries : ∀ w v, deliveries (Agent.composed r u item).history w v =
      deliveries r.history w v := by
    simp [composed_history, Event.delivery?, -List.append_assoc]
  have houtput : outputs (Agent.composed r u item).history u = [item] := by
    simp [composed_history, Event.output?, -List.append_assoc, h.arrivals.no_output u hopen]
  have hother : ∀ w, w ≠ u →
      outputs (Agent.composed r u item).history w = outputs r.history w := by
    intro w hw
    simp [composed_history, Event.output?, -List.append_assoc, hw.symm]
  refine ⟨h.frame.composed item, ?_, ?_, houtput, by simp, hg.nodup u, fun _ hv => hv⟩
  · constructor
    case finished_nodup =>
      rw [composed_finishedNodes]
      exact List.nodup_append_comm.mp (List.nodup_cons.mpr ⟨hopen, h.entries.finished_nodup⟩)
    case completions_eq => simp [composed_history, Event.completion?, -List.append_assoc, h.entries.completions_eq]
    case waiting_nodup =>
      rw [composed_waiting item h.frame]
      exact h.entries.waiting_nodup.erase u
    case mem_waiting =>
      intro v
      rw [composed_waiting item h.frame, h.entries.waiting_nodup.mem_erase_iff, hentrances,
        h.entries.mem_waiting v, composed_finishedNodes, List.mem_append, List.mem_singleton]
      tauto
    case finished_entered =>
      intro v hv
      rw [hentrances]
      rw [composed_finishedNodes, List.mem_append, List.mem_singleton] at hv
      rcases hv with hv | rfl
      · exact h.entries.finished_entered v hv
      · exact .inr ((h.entries.mem_waiting v).mp hu).1
    case entrances_nodup => exact hentrances ▸ h.entries.entrances_nodup
    case entered_iff =>
      intro v
      rw [hentrances, h.entries.entered_iff v, composed_finishedNodes]
      simp only [List.mem_append, List.mem_singleton, List.not_mem_nil, not_false_eq_true,
        true_and]
      refine and_congr_right fun _ => and_congr_right fun _ => ⟨fun hready => ?_, fun hcase => ?_⟩
      · exact ⟨fun hedge => hopen (hready u hedge), fun p hedge => .inl (hready p hedge)⟩
      · intro p hedge
        rcases hcase.2 p hedge with hp | rfl
        · exact hp
        · exact absurd hedge hcase.1
    case ordered =>
      rw [composed_history]
      exact (h.entries.ordered.append_one (by rintro v ⟨⟩)).append_one (by rintro v ⟨⟩)
  · constructor
    case output_of_finished =>
      intro w hw
      by_cases heq : w = u
      · subst heq
        exact ⟨item, houtput, fun v hedge howed => absurd ⟨rfl, hedge⟩ howed⟩
      · rw [composed_finishedNodes, List.mem_append, List.mem_singleton] at hw
        obtain ⟨out, hout, hall⟩ := h.arrivals.output_of_finished w (hw.resolve_right heq)
        refine ⟨out, (hother w heq).trans hout, fun v hedge _ => ?_⟩
        rw [hdeliveries]
        exact hall v hedge (by simp)
    case not_delivered =>
      intro w v hcase
      rw [hdeliveries]
      refine h.arrivals.not_delivered w v (.inl ?_)
      rintro ⟨hw, hedge⟩
      rcases hcase with hno | ⟨rfl, _⟩
      · exact hno ⟨by simp [hw], hedge⟩
      · exact hopen hw
    case no_output =>
      intro w hw
      rw [composed_finishedNodes, List.mem_append, List.mem_singleton, not_or] at hw
      exact (hother w hw.2).trans (h.arrivals.no_output w hw.1)
    case queued_eq =>
      intro v w
      rw [hdeliveries, ← h.arrivals.queued_eq, queuedFor, composed_queuedOutputs, queuedFor]

theorem submitOutput_ok (hg : g.Executable) (h : Idle g r) (hu : u ∈ r.waitingOrRunning)
    (hexit : u ≠ g.exitNode) {node : Node ν} (hnode : g.nodes.get? u = some node)
    {input : NodeInput ν} (hinput : r.runningNodeInputs.get? u = some input)
    {output : NodeOutput ν} {item : TransferDataItem ν}
    (hcompose : ApplicationRequest.composeOutput node input output = .ok item)
    (hitem : ∀ v ∈ g.successors u, (item.getItem v).isSome) :
    ∃ r', r.submitOutput u output = .ok r' ∧ Idle g r' ∧ Continues (composed r u item) r' := by
  have hset := h.frame.setWaitingOrRunning (r.waitingOrRunning.erase u)
  have hcomposed := h.composed hg hu item
  have hsuccessors : (composed r u item).graph.successors u = g.successors u :=
    hcomposed.frame.successors_eq (h.mem_nodes hu).2.1
  obtain ⟨r', hloop, howing, hcontinues⟩ := hcomposed.deliver_all hg hitem
  refine ⟨r', ?_, howing.idle, hcontinues⟩
  have hretired : (r.retire u).runningNodeInputs.get? u = some input := by
    simpa [ApplicationRequest.retire] using hinput
  have hlast : ¬ u = (r.retire u).graph.exitNode := fun heq => hexit (heq.trans hset.exitNode_eq)
  have hget : (r.retire u).graph.getNode u = .ok node := hset.getNode_eq hnode
  simp only [ApplicationRequest.submitOutput, if_pos hu, hretired, if_neg hlast, hget]
  change (do
    let item ← ApplicationRequest.composeOutput node input output
    ((composed r u item).graph.successors u).foldlM (ApplicationRequest.deliver u item)
      (composed r u item)) = .ok r'
  rw [hcompose]
  change ((composed r u item).graph.successors u).foldlM _ _ = _
  rw [hsuccessors]
  exact hloop

/-! ## The driver -/

structure Good (g : LLMAppGraph ν) (d : Driver ν) : Prop where
  request : Idle g d.appReq
  exit_open : g.exitNode ∉ d.appReq.finishedNodes
  running_nodup : d.runningNodes.Nodup
  task : ∀ u input, (u, input) ∈ d.tasks →
    u ∈ d.appReq.waitingOrRunning ∧ u ≠ g.exitNode ∧
      d.appReq.runningNodeInputs.get? u = some input ∧
      ∃ node, g.nodes.get? u = some node ∧ node.Accepts input

namespace Good

variable {d : Driver ν}

theorem start (hg : g.Executable) (h : Good g d) (hu : u ∈ d.appReq.waitingOrRunning)
    (hexit : u ≠ d.appReq.graph.exitNode) (hnew : u ∉ d.runningNodes) :
    ∃ d', d.start u = .ok d' ∧ Good g d' := by
  obtain ⟨node, input, hnode, hget, hinput, haccepts⟩ := getNodeInput_ok hg h.request hu
  refine ⟨⟨d.appReq.submitInput u input, d.tasks ++ [(u, input)]⟩, ?_, ?_⟩
  · simp only [Driver.start, hget, hinput]
    rfl
  · obtain ⟨hframe, hentries, harrivals⟩ := h.request
    constructor
    case request =>
      exact ⟨⟨hframe.1, hframe.2, hframe.3, hframe.4, hframe.5, hframe.6, hframe.7⟩,
        hentries.congr rfl rfl rfl rfl hentries.ordered,
        ⟨harrivals.1, harrivals.2, harrivals.3, harrivals.4⟩⟩
    case exit_open => exact h.exit_open
    case running_nodup =>
      rw [Driver.runningNodes, List.map_append]
      exact List.nodup_append_comm.mp (List.nodup_cons.mpr ⟨hnew, h.running_nodup⟩)
    case task =>
      intro v other hmem
      rcases List.mem_append.mp hmem with hold | hlast
      · obtain ⟨hwaiting, hne, hother, hfits⟩ := h.task v other hold
        have hvu : v ≠ u := by
          rintro rfl
          exact hnew (List.mem_map_of_mem hold)
        refine ⟨hwaiting, hne, ?_, hfits⟩
        rw [ApplicationRequest.submitInput, OrdDict.get?_insert, if_neg hvu]
        exact hother
      · obtain ⟨rfl, rfl⟩ := Prod.mk.inj (List.mem_singleton.mp hlast)
        exact ⟨hu, fun heq => hexit (heq.trans hframe.exitNode_eq.symm),
          OrdDict.get?_insert_self .., node, hnode, haccepts⟩

theorem submit (hg : g.Executable) (h : Good g d) (hu : u ∈ d.runningNodes) (reply : String) :
    ∃ d', d.submit u reply = .ok d' ∧ Good g d' := by
  obtain ⟨⟨u', input⟩, hmem, rfl⟩ := List.mem_map.mp hu
  obtain ⟨hwaiting, hexit, hinput, node, hnode, haccepts⟩ := h.task u' input hmem
  have hfind : d.tasks.find? (·.1 = u') = some (u', input) := by
    cases hfind : d.tasks.find? (·.1 = u') with
    | none => simpa using List.find?_eq_none.mp hfind _ hmem
    | some task =>
        have hkey : task.1 = u' := by simpa using List.find?_some hfind
        rw [List.inj_on_of_nodup_map h.running_nodup (List.mem_of_find?_eq_some hfind) hmem hkey]
  have hentry : u' ≠ g.entryNode := (h.request.mem_nodes hwaiting).2.1
  obtain ⟨output, item, hsend, hcompose, hitem⟩ :=
    composeOutput_ok haccepts (hg.serves u' node hnode hentry) reply
  obtain ⟨r', hsubmit, hidle, hcontinues⟩ :=
    submitOutput_ok hg h.request hwaiting hexit hnode hinput hcompose hitem
  refine ⟨⟨r', d.tasks.eraseP (·.1 = u')⟩, ?_, ?_⟩
  · simp only [Driver.submit, hfind, h.request.frame.getNode_eq hnode]
    change (sendRequest node input reply >>= fun output =>
      d.appReq.submitOutput u' output >>= fun appReq =>
        Except.ok (Driver.mk appReq (d.tasks.eraseP (·.1 = u')))) = _
    rw [hsend]
    change (d.appReq.submitOutput u' output >>= _) = _
    rw [hsubmit]
    rfl
  · have hsublist : (d.tasks.eraseP (·.1 = u')).Sublist d.tasks := List.eraseP_sublist
    constructor
    case request => exact hidle
    case exit_open =>
      rw [hcontinues.finishedNodes_eq, composed_finishedNodes, List.mem_append,
        List.mem_singleton, not_or]
      exact ⟨h.exit_open, fun heq => hexit heq.symm⟩
    case running_nodup => exact (hsublist.map Prod.fst).nodup h.running_nodup
    case task =>
      intro v other hother
      obtain ⟨hv, hne, hget, hfits⟩ := h.task v other (hsublist.subset hother)
      have hvu : v ≠ u' := by
        rintro rfl
        have hkeys : (d.tasks.eraseP (·.1 = v)).map Prod.fst = d.runningNodes.erase v := by
          rw [Driver.runningNodes, List.erase_eq_eraseP', List.eraseP_map]
          rfl
        have hleft : v ∈ d.runningNodes.erase v := hkeys ▸ List.mem_map_of_mem hother
        exact (h.running_nodup.mem_erase_iff.mp hleft).1 rfl
      refine ⟨hcontinues.waiting_subset v ?_, hne, ?_, hfits⟩
      · rw [composed_waiting item h.request.frame]
        exact (List.mem_erase_of_ne hvu).mpr hv
      · rw [hcontinues.inputs_eq, composed_runningNodeInputs, OrdDict.get?_erase, if_neg hvu]
        exact hget

theorem act (hg : g.Executable) (h : Good g d) {action : DriverAction ν}
    (henabled : d.Enabled action) : ∃ d', d.act action = .ok d' ∧ Good g d' := by
  cases action with
  | start u => exact h.start hg henabled.1 henabled.2.1 henabled.2.2
  | submit u reply => exact h.submit hg henabled reply

end Good

/-! ## The first state -/

theorem Frame.new (hg : g.Executable) (prompt : String) : Frame g (.new prompt g) := by
  obtain ⟨l, hl⟩ := hg.entry_key
  have hkey : g.edges.contains g.entryNode = true := OrdDict.contains_iff.mpr ⟨l, hl⟩
  exact ⟨rfl, rfl, rfl, by simp [ApplicationRequest.new, hkey], ⟨l, hl⟩, fun _ _ => rfl,
    by simp [ApplicationRequest.new]⟩

theorem waiting_new (hg : g.Executable) (prompt : String) :
    (ApplicationRequest.new prompt g).waitingOrRunning = g.successors g.entryNode := by
  obtain ⟨l, hl⟩ := hg.entry_key
  have hkey : g.edges.contains g.entryNode = true := OrdDict.contains_iff.mpr ⟨l, hl⟩
  simp [ApplicationRequest.new, ApplicationRequest.waitingOrRunning, hkey]

section NewHistory

variable (prompt : String)

theorem entrances_new :
    entrances (ApplicationRequest.new prompt g).history = g.successors g.entryNode := by
  simp [ApplicationRequest.new, entrances, List.filterMap_map, Function.comp_def,
    Event.entrance?, List.filterMap_cons]

theorem completions_new :
    completions (ApplicationRequest.new prompt g).history = [g.entryNode] := by
  simp [ApplicationRequest.new, completions, List.filterMap_map, Function.comp_def,
    Event.completion?, List.filterMap_cons]

theorem outputs_new (u : ν) : outputs (ApplicationRequest.new prompt g).history u =
    if g.entryNode = u then [.chain (.fromSingleText prompt)] else [] := by
  by_cases hu : g.entryNode = u <;>
    simp [ApplicationRequest.new, outputs, List.filterMap_map, Function.comp_def,
      Event.output?, List.filterMap_cons, hu]

theorem deliveries_new (hg : g.Executable) (u v : ν) :
    deliveries (ApplicationRequest.new prompt g).history u v =
      if g.entryNode = u ∧ v ∈ g.successors g.entryNode then [.fromSingleText prompt] else [] := by
  have hone : ∀ nodes : List ν, nodes.Nodup → deliveries
      (nodes.map (Event.delivered g.entryNode · (.fromSingleText prompt))) u v =
        if g.entryNode = u ∧ v ∈ nodes then [.fromSingleText prompt] else [] := by
    intro nodes hnodup
    induction nodes with
    | nil => simp [deliveries]
    | cons w nodes ih =>
        obtain ⟨hnot, hnodup⟩ := List.nodup_cons.mp hnodup
        rw [List.map_cons, ← List.singleton_append, deliveries_append, ih hnodup]
        by_cases hv : v = w
        · subst hv
          by_cases hu : g.entryNode = u <;> simp [Event.delivery?, hu, hnot]
        · simp [Event.delivery?, hv, Ne.symm hv]
  have hskip : deliveries (ApplicationRequest.new prompt g).history u v = deliveries
      ((g.successors g.entryNode).map (Event.delivered g.entryNode · (.fromSingleText prompt)))
        u v := by
    simp [ApplicationRequest.new, deliveries, List.filterMap_map, Function.comp_def,
      Event.delivery?, List.filterMap_cons]
  rw [hskip, hone _ (hg.nodup _)]

theorem ordered_new (hg : g.Executable) : Ordered g (ApplicationRequest.new prompt g).history := by
  intro before v after heq p hedge
  have hv : v ∈ g.successors g.entryNode := by
    rw [← entrances_new prompt, heq]
    simp [Event.entrance?, entrances]
  obtain rfl := hg.entry_only v hv p hedge
  cases before with
  | nil => cases (List.cons.inj heq).1
  | cons first before =>
      rw [← (List.cons.inj heq).1]
      simp [completions, Event.completion?]

end NewHistory

theorem Idle.new (hg : g.Executable) (prompt : String) : Idle g (.new prompt g) := by
  refine ⟨.new hg prompt, ?_, ?_⟩
  · have hfinished : (ApplicationRequest.new prompt g).finishedNodes = [g.entryNode] := rfl
    constructor
    case finished_nodup => exact List.nodup_singleton _
    case completions_eq => rw [completions_new, hfinished]
    case waiting_nodup =>
      rw [waiting_new hg]
      exact hg.nodup _
    case mem_waiting =>
      intro v
      rw [waiting_new hg, entrances_new, hfinished, List.mem_singleton]
      refine ⟨fun hv => ⟨hv, ?_⟩, And.left⟩
      rintro rfl
      exact hg.not_edge_entry hv
    case finished_entered => exact fun v hv => .inl (List.mem_singleton.mp hv)
    case entrances_nodup =>
      rw [entrances_new]
      exact hg.nodup _
    case entered_iff =>
      intro v
      rw [entrances_new, hfinished]
      constructor
      · intro hv
        refine ⟨(hg.edge_mem _ v hv).2, ?_, List.not_mem_nil, fun p hedge => ?_⟩
        · rintro rfl
          exact hg.not_edge_entry hv
        · exact List.mem_singleton.mpr (hg.entry_only v hv p hedge)
      · rintro ⟨hmem, hne, _, hready⟩
        obtain ⟨p, hedge⟩ := hg.exists_edge hmem hne
        obtain rfl := List.mem_singleton.mp (hready p hedge)
        exact hedge
    case ordered => exact ordered_new prompt hg
  · constructor
    case output_of_finished =>
      intro w hw
      obtain rfl := List.mem_singleton.mp hw
      refine ⟨_, (outputs_new prompt _).trans (if_pos rfl), fun v hedge _ => ?_⟩
      exact ⟨_, rfl, (deliveries_new prompt hg _ v).trans (if_pos ⟨rfl, hedge⟩)⟩
    case not_delivered =>
      intro w v hcase
      rw [deliveries_new prompt hg, if_neg]
      rintro ⟨rfl, hv⟩
      rcases hcase with hno | ⟨_, hmem⟩
      · exact hno ⟨List.mem_singleton.mpr rfl, hv⟩
      · exact absurd hmem List.not_mem_nil
    case no_output =>
      intro w hw
      rw [outputs_new, if_neg]
      rintro rfl
      exact hw (List.mem_singleton.mpr rfl)
    case queued_eq =>
      intro v w
      rw [deliveries_new prompt hg, queuedFor]
      simp only [ApplicationRequest.new, OrdDict.get?_ofList_map]
      by_cases hv : v ∈ g.successors g.entryNode
      · by_cases hw : g.entryNode = w
        · subst hw
          simp [hv, OrdDict.ofList]
        · simp [hv, hw, OrdDict.ofList, OrdDict.get?_insert, Ne.symm hw]
      · simp [hv]

theorem Good.new (hg : g.Executable) (prompt : String) : Good g (.new prompt g) where
  request := .new hg prompt
  exit_open := fun hmem => hg.entry_ne_exit (List.mem_singleton.mp hmem).symm
  running_nodup := List.nodup_nil
  task := fun _ _ hmem => absurd hmem List.not_mem_nil

/-! ## Correctness -/

/-- What holds in every state of a run over `g`. -/
structure Executes (g : LLMAppGraph ν) (d : Driver ν) : Prop where
  enters_once : (entrances d.appReq.history).Nodup
  enters_ready : Ordered g d.appReq.history
  waits_until_finished : ∀ v, v ∈ d.appReq.waitingOrRunning ↔
    v ∈ entrances d.appReq.history ∧ v ∉ d.appReq.finishedNodes
  finished_eq : completions d.appReq.history = d.appReq.finishedNodes
  never_fails : ∀ action, d.Enabled action → ∃ d', d.act action = .ok d'
  delivers_once : ∀ u ∈ d.appReq.finishedNodes, ∃ item, outputs d.appReq.history u = [item] ∧
    ∀ v ∈ g.successors u, ∃ chain, item.getItem v = some chain ∧
      deliveries d.appReq.history u v = [chain] ∧ queuedFor d.appReq v u = some chain
  delivers_nothing_else : ∀ u v, ¬ (u ∈ d.appReq.finishedNodes ∧ g.Edge u v) →
    deliveries d.appReq.history u v = []
  never_stuck : d.tasks = [] →
    (∀ v ∈ d.appReq.waitingOrRunning, v ∉ d.runningNodes → v = g.exitNode) →
      ∀ v ∈ g.nodes.keys, v ≠ g.exitNode → v ∈ d.appReq.finishedNodes

instance (d : Driver ν) : DecidablePred d.Enabled
  | .start u => inferInstanceAs (Decidable (u ∈ d.appReq.waitingOrRunning ∧
      u ≠ d.appReq.graph.exitNode ∧ u ∉ d.runningNodes))
  | .submit u _ => inferInstanceAs (Decidable (u ∈ d.runningNodes))

end TokenCake.Agent
