import Mathlib.Data.Finset.Basic
import Mathlib.Data.Rat.Init
import TokenCake.Lib.Run
import TokenCake.Model.AgentGraph

/-! # The priorities of agent nodes

`InDegreePriorityGraph` and the metadata that `send_application_request` sends with a request.
`τ` is the type of node types; a rational stands in place of the similarity. -/

namespace TokenCake.Agent

/-- The entries of `kvargs` that `set_priorities` writes. -/
structure NodeKvargs where
  depth : Option ℕ := none
  inDegree : Option ℕ := none
  outDegree : Option ℕ := none
  similarity : Option ℚ := none
  priority : Option ℕ := none

structure InDegreePriorityGraph (ν τ : Type) extends LLMAppGraph ν where
  nodeType : ν → τ
  kvargs : ν → NodeKvargs

/-- `node_depth_dict` and `bfs_set`. -/
structure DepthState (ν : Type) where
  nodeDepthDict : OrdDict ν ℕ
  bfsSet : Finset ν

namespace InDegreePriorityGraph

variable {ν τ : Type} [DecidableEq ν] (g : InDegreePriorityGraph ν τ)

def addKvargs (u : ν) (f : NodeKvargs → NodeKvargs) : InDegreePriorityGraph ν τ :=
  { g with kvargs := Function.update g.kvargs u (f (g.kvargs u)) }

/-! ## Depths -/

/-- The body of the loop over the successors of `u`. -/
def visitSon (u : ν) (s : DepthState ν) (son : ν) : Except ExecutorError (DepthState ν) :=
  if son ∈ s.nodeDepthDict.keys then .ok s
  else
    match s.nodeDepthDict.get? u with
    | none => .error .keyError
    | some depth => .ok ⟨s.nodeDepthDict.insert son (depth + 1), insert son s.bfsSet⟩

/-- The body of the loop of `analyse_depth_info` for the node that `bfs_set.pop()` returns. -/
def visitNode (s : DepthState ν) (u : ν) : Except ExecutorError (DepthState ν) :=
  (g.successors u).foldlM (visitSon u) { s with bfsSet := s.bfsSet.erase u }

/-- `bfs_set.pop()` may return any element. -/
def Pops (s : DepthState ν) (u : ν) (s' : DepthState ν) : Prop :=
  u ∈ s.bfsSet ∧ g.visitNode s u = .ok s'

def initialDepths : DepthState ν := ⟨.ofList [(g.entryNode, 0)], {g.entryNode}⟩

/-- The values that `node_depth_dict` may have after the loop. -/
def NodeDepths (depths : OrdDict ν ℕ) : Prop :=
  ∃ order s, Run g.Pops g.initialDepths order s ∧ s.bfsSet = ∅ ∧ s.nodeDepthDict = depths

/-- The body of the last loop of `analyse_depth_info`. -/
def assignDepth (depths : OrdDict ν ℕ) (g : InDegreePriorityGraph ν τ) (u : ν) :
    Except ExecutorError (InDegreePriorityGraph ν τ) :=
  match depths.get? u with
  | none => .error .keyError
  | some depth => .ok (g.addKvargs u fun k => { k with depth := some depth })

/-- What follows the first loop of `analyse_depth_info`. -/
def analyseDepthInfo (depths : OrdDict ν ℕ) : Except ExecutorError (InDegreePriorityGraph ν τ) :=
  g.nodes.keys.foldlM (assignDepth depths) g

/-! ## Degrees, similarities and priorities -/

def analyseDegreeInfo : InDegreePriorityGraph ν τ :=
  g.nodes.keys.foldl (fun g u => g.addKvargs u fun k =>
    { k with
      inDegree := some (g.predecessors u).length
      outDegree := some (g.successors u).length }) g

omit [DecidableEq ν] in
/-- `node.kvargs.get("depth", 0)`. -/
def depthOf (u : ν) : ℕ := (g.kvargs u).depth.getD 0

omit [DecidableEq ν] in
def maxDepth : ℕ := (g.nodes.keys.map g.depthOf).foldl max 0

/-- The entries of `agent_info` that come from the graph. -/
structure AgentInfo where
  priority : ℕ
  inDegree : ℕ
  outDegree : ℕ
  similarity : ℚ
  depth : ℕ
  appMaxDepth : ℕ
  remainingDepth : ℕ

omit [DecidableEq ν] in
def agentInfo (u : ν) : AgentInfo where
  priority := (g.kvargs u).priority.getD 0
  inDegree := (g.kvargs u).inDegree.getD 0
  outDegree := (g.kvargs u).outDegree.getD 0
  similarity := (g.kvargs u).similarity.getD 0
  depth := g.depthOf u
  appMaxDepth := g.maxDepth
  remainingDepth := g.maxDepth - g.depthOf u

variable [DecidableEq τ]

/-- The nodes of every depth and type. -/
def depthTypeDict : OrdDict ℕ (OrdDict τ (List ν)) :=
  let dict := OrdDict.ofList ((List.range (g.maxDepth + 1)).map fun depth => (depth, .empty))
  g.nodes.keys.foldl (fun dict u => dict.modify (g.depthOf u) fun types =>
    types.insert (g.nodeType u) ((types.get? (g.nodeType u)).getD [] ++ [u])) dict

def analyseSimilarityInfo : InDegreePriorityGraph ν τ :=
  let lists := g.depthTypeDict.values.flatMap fun types => types.values
  lists.foldl (fun g nodeList => nodeList.foldl (fun g u =>
    g.addKvargs u fun k => { k with similarity := some (1 / nodeList.length) }) g) g

/-- `set_priorities` for the depths that the loop has found. -/
def setPriorities (depths : OrdDict ν ℕ) : Except ExecutorError (InDegreePriorityGraph ν τ) := do
  let g ← g.analyseDepthInfo depths
  let g := g.analyseDegreeInfo.analyseSimilarityInfo
  return g.nodes.keys.foldl
    (fun g u => g.addKvargs u fun k => { k with priority := some (g.depthOf u) }) g

end InDegreePriorityGraph

end TokenCake.Agent
