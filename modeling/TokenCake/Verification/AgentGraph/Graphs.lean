import TokenCake.Lib.Acyclic
import TokenCake.Model.AgentGraph

/-! # Executable graphs and the histories of their nodes -/

namespace TokenCake.Agent

open Relation

variable {ν : Type} [DecidableEq ν]

/-! ## Graphs -/

/-- What `add_node` and `add_edge` guarantee. -/
structure LLMAppGraph.Wired (g : LLMAppGraph ν) : Prop where
  entry_mem : g.entryNode ∈ g.nodes.keys
  exit_mem : g.exitNode ∈ g.nodes.keys
  edge_mem : ∀ u v, g.Edge u v → u ∈ g.nodes.keys ∧ v ∈ g.nodes.keys

/-- The composers of the node return an item with an entry for every receiver. -/
def Node.Serves (receivers : List ν) : Node ν → Prop
  | .void => ∀ item : TransferDataItem ν, ∀ v ∈ receivers, (item.getItem v).isSome
  | .text composer => ∀ item, ∀ v ∈ receivers, ((composer item).getItem v).isSome
  | .llm _ _ outputComposer => ∀ chain, ∀ v ∈ receivers, ((outputComposer chain).getItem v).isSome

/-- The graphs of the applications: acyclic, without duplicate edges, entered at one node that
alone precedes its successors, and left at one node. -/
structure LLMAppGraph.Executable (g : LLMAppGraph ν) : Prop extends g.Wired where
  entry_ne_exit : g.entryNode ≠ g.exitNode
  acyclic : Acyclic g.Edge
  nodup : ∀ u, (g.successors u).Nodup
  reachable : ∀ u ∈ g.nodes.keys, ReflTransGen g.Edge g.entryNode u
  exit_last : g.successors g.exitNode = []
  entry_only : ∀ v ∈ g.successors g.entryNode, ∀ u, g.Edge u v → u = g.entryNode
  serves : ∀ u node, g.nodes.get? u = some node → u ≠ g.entryNode → node.Serves (g.successors u)

namespace LLMAppGraph

variable {g : LLMAppGraph ν} {u v : ν}

theorem edge_iff : g.Edge u v ↔ ∃ l, g.edges.get? u = some l ∧ v ∈ l := by
  simp only [Edge, successors]
  cases g.edges.get? u <;> simp

theorem mem_predecessors : u ∈ g.predecessors v ↔ g.Edge u v := by
  simp only [predecessors, List.mem_map, List.mem_filter, decide_eq_true_eq, Prod.exists,
    edge_iff, OrdDict.get?_eq_some_iff]
  constructor
  · rintro ⟨u', l, ⟨hmem, hv⟩, rfl⟩
    exact ⟨l, hmem, hv⟩
  · rintro ⟨l, hmem, hv⟩
    exact ⟨u, l, ⟨hmem, hv⟩, rfl⟩

theorem new_wired (entryNode exitNode : ν) : (new entryNode exitNode).Wired where
  entry_mem := by simp [new, OrdDict.ofList, OrdDict.mem_keys_insert]
  exit_mem := by simp [new, OrdDict.ofList, OrdDict.mem_keys_insert]
  edge_mem := by
    intro u v hedge
    simp [Edge, successors, new] at hedge

theorem addNode_wired (h : g.Wired) (u : ν) (node : Node ν) : (g.addNode u node).Wired where
  entry_mem := OrdDict.mem_keys_insert.mpr (.inr h.entry_mem)
  exit_mem := OrdDict.mem_keys_insert.mpr (.inr h.exit_mem)
  edge_mem := by
    intro a b hedge
    obtain ⟨ha, hb⟩ := h.edge_mem a b hedge
    exact ⟨OrdDict.mem_keys_insert.mpr (.inr ha), OrdDict.mem_keys_insert.mpr (.inr hb)⟩

theorem addEdge_wired (h : g.Wired) {src dst : ν} {g' : LLMAppGraph ν}
    (hadd : g.addEdge src dst = .ok g') : g'.Wired := by
  unfold addEdge at hadd
  split at hadd
  · next hnodes =>
      cases hadd
      refine ⟨h.entry_mem, h.exit_mem, fun a b hedge => ?_⟩
      simp only [Edge, successors, OrdDict.get?_insert] at hedge
      by_cases ha : a = src
      · rw [if_pos ha, Option.getD_some, List.mem_append, List.mem_singleton] at hedge
        rcases hedge with hold | rfl
        · exact h.edge_mem a b (by rw [ha]; exact hold)
        · exact ⟨ha ▸ hnodes.1, hnodes.2.1⟩
      · rw [if_neg ha] at hedge
        exact h.edge_mem a b hedge
  · cases hadd

end LLMAppGraph

namespace LLMAppGraph.Executable

variable {g : LLMAppGraph ν} {u v : ν}

theorem not_edge_entry (hg : g.Executable) : ¬ g.Edge u g.entryNode := fun hedge =>
  hg.acyclic.not_edge_root (hg.reachable u (hg.edge_mem u _ hedge).1) hedge

/-- Every node but the entry has a predecessor. -/
theorem exists_edge (hg : g.Executable) (hv : v ∈ g.nodes.keys) (hne : v ≠ g.entryNode) :
    ∃ u, g.Edge u v := by
  rcases (ReflTransGen.cases_tail_iff g.Edge g.entryNode v).mp (hg.reachable v hv) with heq | htail
  · exact absurd heq hne
  · obtain ⟨u, _, hedge⟩ := htail
    exact ⟨u, hedge⟩

/-- The edge table has a key for the entry node, so the waiting list is the list it holds. -/
theorem entry_key (hg : g.Executable) : ∃ l, g.edges.get? g.entryNode = some l := by
  rcases (ReflTransGen.cases_head_iff (r := g.Edge)).mp (hg.reachable _ hg.exit_mem) with heq | hhead
  · exact absurd heq hg.entry_ne_exit
  · obtain ⟨v, hedge, _⟩ := hhead
    obtain ⟨l, hl, _⟩ := edge_iff.mp hedge
    exact ⟨l, hl⟩

end LLMAppGraph.Executable

/-! ## Histories -/

def Event.entrance? : Event ν → Option ν
  | .entered v => some v
  | _ => none

def Event.completion? : Event ν → Option ν
  | .finished v => some v
  | _ => none

def Event.output? (u : ν) : Event ν → Option (TransferDataItem ν)
  | .composed v item => if v = u then some item else none
  | _ => none

def Event.delivery? (u v : ν) : Event ν → Option LLMTextChunkChain
  | .delivered u' v' chain => if u' = u ∧ v' = v then some chain else none
  | _ => none

def entrances (history : List (Event ν)) : List ν := history.filterMap Event.entrance?

def completions (history : List (Event ν)) : List ν := history.filterMap Event.completion?

def outputs (history : List (Event ν)) (u : ν) : List (TransferDataItem ν) :=
  history.filterMap (Event.output? u)

def deliveries (history : List (Event ν)) (u v : ν) : List LLMTextChunkChain :=
  history.filterMap (Event.delivery? u v)

section Append

variable (history later : List (Event ν)) (event : Event ν)

omit [DecidableEq ν] in
@[simp] theorem entrances_append : entrances (history ++ later) = entrances history ++ entrances later :=
  List.filterMap_append

omit [DecidableEq ν] in
@[simp] theorem entrances_singleton : entrances [event] = (Event.entrance? event).toList := by
  cases h : Event.entrance? event <;> simp [entrances, h]

omit [DecidableEq ν] in
@[simp] theorem completions_append : completions (history ++ later) = completions history ++ completions later :=
  List.filterMap_append

omit [DecidableEq ν] in
@[simp] theorem completions_singleton : completions [event] = (Event.completion? event).toList := by
  cases h : Event.completion? event <;> simp [completions, h]

@[simp] theorem outputs_append (u : ν) :
    outputs (history ++ later) u = outputs history u ++ outputs later u :=
  List.filterMap_append

@[simp] theorem outputs_singleton (u : ν) : outputs [event] u = (event.output? u).toList := by
  cases h : event.output? u <;> simp [outputs, h]

@[simp] theorem deliveries_append (u v : ν) :
    deliveries (history ++ later) u v = deliveries history u v ++ deliveries later u v :=
  List.filterMap_append

@[simp] theorem deliveries_singleton (u v : ν) :
    deliveries [event] u v = (event.delivery? u v).toList := by
  cases h : event.delivery? u v <;> simp [deliveries, h]

end Append

/-- Every node enters after all its predecessors have finished. -/
def Ordered (g : LLMAppGraph ν) (history : List (Event ν)) : Prop :=
  ∀ before v after, history = before ++ .entered v :: after →
    ∀ p, g.Edge p v → p ∈ completions before

theorem Ordered.append_one {g : LLMAppGraph ν} {history : List (Event ν)} {event : Event ν}
    (h : Ordered g history)
    (hevent : ∀ v, event = .entered v → ∀ p, g.Edge p v → p ∈ completions history) :
    Ordered g (history ++ [event]) := by
  intro before v after heq p hedge
  rcases List.eq_nil_or_concat after with rfl | ⟨after, last, rfl⟩
  · obtain ⟨rfl, hlast⟩ := List.append_inj' heq rfl
    exact hevent v (List.singleton_inj.mp hlast) p hedge
  · rw [List.concat_eq_append, ← List.cons_append, ← List.append_assoc] at heq
    exact h before v after (List.append_inj' heq rfl).1 p hedge

end TokenCake.Agent
