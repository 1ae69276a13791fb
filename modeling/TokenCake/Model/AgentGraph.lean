import TokenCake.Lib.OrdDict

/-! # Agent graphs and their execution

The client side of an application: the graph of its nodes, the request that walks through the
graph, and the driver that starts nodes as tasks and hands their outputs back. `ν` is the type
of node ids. -/

namespace TokenCake.Agent

inductive ExecutorError where
  | assertion
  | keyError
  | attributeError
  | typeError
  deriving DecidableEq, Repr

/-! ## Data -/

structure LLMTextChunk where
  text : String
  deriving DecidableEq, Repr

structure LLMTextChunkChain where
  chunks : List LLMTextChunk
  deriving DecidableEq, Repr

namespace LLMTextChunkChain

def fromSingleText (text : String) : LLMTextChunkChain := ⟨[⟨text⟩]⟩

def toText (chain : LLMTextChunkChain) : String := String.join (chain.chunks.map (·.text))

end LLMTextChunkChain

/-- One chain for every receiver, or a single chain for all of them. -/
inductive TransferDataItem (ν : Type) where
  | map (data : OrdDict ν LLMTextChunkChain)
  | chain (data : LLMTextChunkChain)

namespace TransferDataItem

variable {ν : Type}

/-- `__getitem__`; `none` stands for a `KeyError`. -/
def getItem [DecidableEq ν] : TransferDataItem ν → ν → Option LLMTextChunkChain
  | map data, node => data.get? node
  | chain data, _ => some data

def toText : TransferDataItem ν → String
  | map data => String.join (data.values.map (·.toText))
  | chain data => data.toText

end TransferDataItem

/-- What `get_node_input` returns: the queued item itself, or the chain made of it. -/
inductive NodeInput (ν : Type) where
  | item (item : TransferDataItem ν)
  | chain (chain : LLMTextChunkChain)

def NodeInput.chunks {ν : Type} : NodeInput ν → Except ExecutorError (List LLMTextChunk)
  | item _ => .error .attributeError
  | chain c => .ok c.chunks

/-- What a task returns: a text or an item. -/
inductive NodeOutput (ν : Type) where
  | text (text : String)
  | item (item : TransferDataItem ν)

def NodeOutput.toTransferDataItem {ν : Type} : NodeOutput ν → TransferDataItem ν
  | item i => i
  | text t => .chain (.fromSingleText t)

/-- `LLMTextChunk.from_text`, whose argument is a text. -/
def LLMTextChunk.fromText {ν : Type} : NodeOutput ν → Except ExecutorError LLMTextChunk
  | .text t => .ok ⟨t⟩
  | .item _ => .error .typeError

/-! ## Nodes and graphs -/

/-- Void nodes, text nodes, and nodes that call the model (with or without a tool). -/
inductive Node (ν : Type) where
  | void
  | text (composer : TransferDataItem ν → TransferDataItem ν)
  | llm (needValue : Bool) (inputComposer : TransferDataItem ν → LLMTextChunkChain)
      (outputComposer : LLMTextChunkChain → TransferDataItem ν)

namespace Node

variable {ν : Type}

def typeStep : Node ν → ℕ
  | void => 1
  | text _ => 1
  | llm needValue _ _ => if needValue then 4 else 3

/-- `__call__`. -/
def call : Node ν → NodeInput ν → Except ExecutorError (TransferDataItem ν)
  | void, .item item => .ok item
  | text composer, .item item => .ok (composer item)
  | void, .chain _ => .error .typeError
  | text _, .chain _ => .error .typeError
  | llm _ _ _, _ => .error .typeError

def preprocess : Node ν → TransferDataItem ν → Except ExecutorError LLMTextChunkChain
  | llm _ inputComposer _, item => .ok (inputComposer item)
  | _, _ => .error .attributeError

def postprocess : Node ν → LLMTextChunkChain → Except ExecutorError (TransferDataItem ν)
  | llm _ _ outputComposer, chain => .ok (outputComposer chain)
  | _, _ => .error .attributeError

end Node

structure LLMAppGraph (ν : Type) where
  entryNode : ν
  exitNode : ν
  nodes : OrdDict ν (Node ν)
  edges : OrdDict ν (List ν)

namespace LLMAppGraph

variable {ν : Type} [DecidableEq ν]

def new (entryNode exitNode : ν) : LLMAppGraph ν where
  entryNode := entryNode
  exitNode := exitNode
  nodes := .ofList [(entryNode, .void), (exitNode, .void)]
  edges := .empty

def addNode (g : LLMAppGraph ν) (u : ν) (node : Node ν) : LLMAppGraph ν :=
  { g with nodes := g.nodes.insert u node }

def addEdge (g : LLMAppGraph ν) (src dst : ν) : Except ExecutorError (LLMAppGraph ν) :=
  if src ∈ g.nodes.keys ∧ dst ∈ g.nodes.keys ∧ src ≠ dst then
    .ok { g with edges := g.edges.insert src ((g.edges.get? src).getD [] ++ [dst]) }
  else .error .assertion

def successors (g : LLMAppGraph ν) (u : ν) : List ν := (g.edges.get? u).getD []

def predecessors (g : LLMAppGraph ν) (u : ν) : List ν :=
  (g.edges.entries.filter fun e => decide (u ∈ e.2)).map Prod.fst

def getNode (g : LLMAppGraph ν) (u : ν) : Except ExecutorError (Node ν) :=
  match g.nodes.get? u with
  | some node => .ok node
  | none => .error .assertion

def Edge (g : LLMAppGraph ν) (u v : ν) : Prop := v ∈ g.successors u

end LLMAppGraph

/-! ## Requests -/

/-- What happened to the nodes of a request. -/
inductive Event (ν : Type) where
  | entered (node : ν)
  | finished (node : ν)
  | composed (node : ν) (output : TransferDataItem ν)
  | delivered (node successor : ν) (chain : LLMTextChunkChain)

/-- `_waiting_or_running` is bound to the list that `graph.successors` returned: the very list
that the edge table holds for the entry node (`ownList = none`), or a fresh one when the table
has no such key. No function reads `history`: it is there for the statements. -/
structure ApplicationRequest (ν : Type) where
  prompt : String
  graph : LLMAppGraph ν
  finishedNodes : List ν
  ownList : Option (List ν)
  runningNodeInputs : OrdDict ν (NodeInput ν) := .empty
  queuedOutputs : OrdDict ν (OrdDict ν LLMTextChunkChain)
  middleOutputs : List String := []
  output : String := ""
  history : List (Event ν)

namespace ApplicationRequest

variable {ν : Type} [DecidableEq ν]

def waitingOrRunning (r : ApplicationRequest ν) : List ν :=
  r.ownList.getD (r.graph.successors r.graph.entryNode)

/-- Update the waiting list in place, wherever it lives. -/
def setWaitingOrRunning (r : ApplicationRequest ν) (nodes : List ν) : ApplicationRequest ν :=
  match r.ownList with
  | some _ => { r with ownList := some nodes }
  | none =>
      { r with graph :=
          { r.graph with edges := r.graph.edges.modify r.graph.entryNode fun _ => nodes } }

def new (prompt : String) (graph : LLMAppGraph ν) : ApplicationRequest ν :=
  let waiting := graph.successors graph.entryNode
  let chain := LLMTextChunkChain.fromSingleText prompt
  { prompt := prompt
    graph := graph
    finishedNodes := [graph.entryNode]
    ownList := if graph.edges.contains graph.entryNode then none else some []
    queuedOutputs := .ofList (waiting.map fun u => (u, .ofList [(graph.entryNode, chain)]))
    history :=
      .finished graph.entryNode :: .composed graph.entryNode (.chain chain) ::
        (waiting.map .entered ++ waiting.map (.delivered graph.entryNode · chain)) }

def getNodeInput (r : ApplicationRequest ν) (u : ν) : Except ExecutorError (NodeInput ν) := do
  let node ← r.graph.getNode u
  match r.queuedOutputs.get? u with
  | none => .error .assertion
  | some queued =>
      if (r.graph.predecessors u).all (· ∈ r.finishedNodes) then
        if node.typeStep = 1 then .ok (.item (.map queued))
        else (node.preprocess (.map queued)).map .chain
      else .error .assertion

def submitInput (r : ApplicationRequest ν) (u : ν) (input : NodeInput ν) :
    ApplicationRequest ν :=
  { r with runningNodeInputs := r.runningNodeInputs.insert u input }

/-- `self.queued_outputs[successor][u] = chain`, for an entry that may be new. -/
def receive (r : ApplicationRequest ν) (u successor : ν) (chain : LLMTextChunkChain) :
    ApplicationRequest ν :=
  let queued := (r.queuedOutputs.get? successor).getD .empty
  { r with
    queuedOutputs := r.queuedOutputs.insert successor (queued.insert u chain)
    history := r.history ++ [Event.delivered u successor chain] }

/-- `self._waiting_or_running.append(successor)`. -/
def enter (r : ApplicationRequest ν) (successor : ν) : ApplicationRequest ν :=
  let r := r.setWaitingOrRunning (r.waitingOrRunning ++ [successor])
  { r with history := r.history ++ [Event.entered successor] }

/-- The body of the loop of `submit_output` over the successors of `u`. -/
def deliver (u : ν) (item : TransferDataItem ν) (r : ApplicationRequest ν) (successor : ν) :
    Except ExecutorError (ApplicationRequest ν) :=
  let queued := (r.queuedOutputs.get? successor).getD .empty
  if queued.contains u then .error .assertion
  else
    match item.getItem successor with
    | none => .error .keyError
    | some chain =>
        let r := r.receive u successor chain
        if (r.graph.predecessors successor).all (· ∈ r.finishedNodes) then
          .ok (r.enter successor)
        else .ok r

/-- The first lines of `submit_output`: the node leaves the waiting list. -/
def retire (r : ApplicationRequest ν) (u : ν) : ApplicationRequest ν :=
  let r := r.setWaitingOrRunning (r.waitingOrRunning.erase u)
  { r with finishedNodes := r.finishedNodes ++ [u]
           history := r.history ++ [Event.finished u] }

/-- The item that `submit_output` makes of the output of an inner node. -/
def composeOutput (node : Node ν) (input : NodeInput ν) (output : NodeOutput ν) :
    Except ExecutorError (TransferDataItem ν) :=
  if 3 ≤ node.typeStep then do
    let chunks ← input.chunks
    let chunk ← LLMTextChunk.fromText output
    node.postprocess ⟨chunks ++ [chunk]⟩
  else .ok output.toTransferDataItem

/-- The list of the entry node is not iterated here: the entry node never waits. -/
def submitOutput (r : ApplicationRequest ν) (u : ν) (output : NodeOutput ν) :
    Except ExecutorError (ApplicationRequest ν) := do
  if u ∈ r.waitingOrRunning then
    let r := r.retire u
    match r.runningNodeInputs.get? u with
    | none => .error .keyError
    | some input =>
        let r := { r with runningNodeInputs := r.runningNodeInputs.erase u }
        if u = r.graph.exitNode then
          let text := output.toTransferDataItem.toText
          return { r with output := text, middleOutputs := r.middleOutputs ++ [text] }
        else
          let node ← r.graph.getNode u
          let item ← composeOutput node input output
          let r := { r with
            middleOutputs := r.middleOutputs ++ [item.toText]
            history := r.history ++ [Event.composed u item] }
          (r.graph.successors u).foldlM (deliver u item) r
  else .error .assertion

def isFinished (r : ApplicationRequest ν) : Bool := r.graph.exitNode ∈ r.finishedNodes

end ApplicationRequest

/-! ## The driver -/

/-- `send_request`: a local node is called, any other answers with a text. -/
def sendRequest {ν : Type} (node : Node ν) (input : NodeInput ν) (reply : String) :
    Except ExecutorError (NodeOutput ν) :=
  if node.typeStep = 1 then (node.call input).map .item
  else .ok (.text reply)

/-- The request with the tasks in flight (`running_node_uuids` lists their nodes). -/
structure Driver (ν : Type) where
  appReq : ApplicationRequest ν
  tasks : List (ν × NodeInput ν)

inductive DriverAction (ν : Type) where
  | start (node : ν)
  | submit (node : ν) (reply : String)

namespace Driver

variable {ν : Type} [DecidableEq ν]

def new (prompt : String) (graph : LLMAppGraph ν) : Driver ν := ⟨.new prompt graph, []⟩

def runningNodes (d : Driver ν) : List ν := d.tasks.map Prod.fst

def start (d : Driver ν) (u : ν) : Except ExecutorError (Driver ν) := do
  let _ ← d.appReq.graph.getNode u
  let input ← d.appReq.getNodeInput u
  return { appReq := d.appReq.submitInput u input, tasks := d.tasks ++ [(u, input)] }

def submit (d : Driver ν) (u : ν) (reply : String) : Except ExecutorError (Driver ν) := do
  match d.tasks.find? (·.1 = u) with
  | none => .error .keyError
  | some (_, input) =>
      let node ← d.appReq.graph.getNode u
      let output ← sendRequest node input reply
      let appReq ← d.appReq.submitOutput u output
      return { appReq := appReq, tasks := d.tasks.eraseP (·.1 = u) }

def act (d : Driver ν) : DriverAction ν → Except ExecutorError (Driver ν)
  | .start u => d.start u
  | .submit u reply => d.submit u reply

/-- The loop of the driver starts what waits, all but the exit node, and is not running; a task
may end at any time after that. -/
def Enabled (d : Driver ν) : DriverAction ν → Prop
  | .start u =>
      u ∈ d.appReq.waitingOrRunning ∧ u ≠ d.appReq.graph.exitNode ∧ u ∉ d.runningNodes
  | .submit u _ => u ∈ d.runningNodes

end Driver

end TokenCake.Agent
