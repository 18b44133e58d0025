import FromScratch.Inference.Node

/-! The computation graph: nodes by name, edges found by matching output names
against input names, a depth-first topological order and the wavefront levels.
A `Node*` is the name it was stored under and the number of the allocation, so
that a pointer to a node that has been replaced or removed is recognised. -/

namespace FromScratch.Inference
open Lib (FiniteMap)

structure NodeRef where
  name : Text
  id : Nat
deriving DecidableEq

structure NodeEntry (F : Type) where
  id : Nat
  node : Node F
  parents : List NodeRef
  children : List NodeRef

def NodeEntry.ref {F : Type} (entry : NodeEntry F) : NodeRef := ⟨entry.node.name, entry.id⟩

abbrev NodeMap (F : Type) := FiniteMap Text (NodeEntry F)

structure Graph (F : Type) where
  nodeMap : NodeMap F := ∅
  insertionOrder : List Text := []
  inputs : List Text := []
  outputs : List Text := []
  allocated : Nat := 0

/-- The two sets and the list that `visit` fills. -/
structure Search where
  visited : List NodeRef := []
  onStack : List NodeRef := []
  order : List NodeRef := []

namespace Graph
variable {F : Type}

/-- One edge for every output of the producer that the consumer reads. -/
def connect (map : NodeMap F) (producer consumer : Text) : NodeMap F :=
  match map.lookup producer, map.lookup consumer with
  | some source, some target =>
    let edges := source.node.outputs.filter (· ∈ target.node.inputs)
    let map := map.adjust producer fun entry => { entry with children := entry.children ++ edges.map fun _ => target.ref }
    map.adjust consumer fun entry => { entry with parents := entry.parents ++ edges.map fun _ => source.ref }
  | _, _ => map

def updateEdges (walk : FiniteMap.Traversal Text (NodeEntry F)) (map : NodeMap F) (name : Text) : NodeMap F :=
  ((walk.keys map).filter (· ≠ name)).foldl (fun map other => connect (connect map other name) name other) map

def clearEdges (map : NodeMap F) : NodeMap F :=
  map.mapValues fun _ entry => { entry with parents := [], children := [] }

def rebuildEdges (walk : FiniteMap.Traversal Text (NodeEntry F)) (graph : Graph F) : Graph F :=
  let step (map : NodeMap F) (name : Text) :=
    ((walk.keys map).filter (· ≠ name)).foldl (fun map other => connect map name other) map
  { graph with nodeMap := graph.insertionOrder.foldl step (clearEdges graph.nodeMap) }

/-- A node of a name already present replaces the old one, whose edges stay. -/
def addNode (walk : FiniteMap.Traversal Text (NodeEntry F)) (graph : Graph F) (node : Node F) : Graph F :=
  let entry : NodeEntry F :=
    match graph.nodeMap.lookup node.name with
    | some old => { old with id := graph.allocated, node }
    | none => ⟨graph.allocated, node, [], []⟩
  { graph with
    nodeMap := updateEdges walk (graph.nodeMap.insert node.name entry) node.name
    insertionOrder := graph.insertionOrder ++ [node.name]
    allocated := graph.allocated + 1 }

def removeNode (walk : FiniteMap.Traversal Text (NodeEntry F)) (graph : Graph F) (name : Text) : Graph F :=
  if name ∈ graph.nodeMap then
    rebuildEdges walk { graph with
      nodeMap := graph.nodeMap.erase name
      insertionOrder := graph.insertionOrder.filter (· ≠ name) }
  else graph

/-- What a caller does through the pointer that `getNode` returns. The name of a
node cannot be changed. -/
def edit (graph : Graph F) (name : Text) (change : Node F → Node F) : Graph F :=
  { graph with nodeMap := graph.nodeMap.adjust name fun entry => { entry with node := change entry.node } }

/-- `nodeMap_.at(name)`. -/
def entryAt (graph : Graph F) (name : Text) : Except Fault (NodeEntry F) :=
  match graph.nodeMap.lookup name with
  | some entry => .ok entry
  | none => .error .outOfRange

/-- What a `Node*` points at, if the node it was taken from is still there. -/
def deref (graph : Graph F) (ref : NodeRef) : Except Fault (NodeEntry F) :=
  match graph.nodeMap.lookup ref.name with
  | some entry => if entry.id = ref.id then .ok entry else .error .undefined
  | none => .error .undefined

def nodesInInsertionOrder (graph : Graph F) : Except Fault (List (NodeEntry F)) :=
  graph.insertionOrder.mapM graph.entryAt

/-- The fuel bounds the depth of the recursion, which is a path of distinct nodes. -/
def visit (graph : Graph F) : Nat → NodeRef → Search → Except Fault Search
  | 0, _, _ => .error .endless
  | fuel + 1, ref, search =>
    if ref ∈ search.visited then .ok search
    else if ref ∈ search.onStack then
      .error (.runtimeError (text "Graph contains a cycle at node: " ++ ref.name))
    else do
      let entry ← graph.deref ref
      let search ← entry.children.foldlM (fun search child => graph.visit fuel child search)
        { search with onStack := ref :: search.onStack }
      pure { visited := ref :: search.visited, onStack := search.onStack.erase ref, order := search.order ++ [ref] }

def topologicalSort (graph : Graph F) : Except Fault (List NodeRef) := do
  let search ← graph.insertionOrder.foldlM (fun search name => do
    let entry ← graph.entryAt name
    graph.visit (graph.nodeMap.keys.length + 1) entry.ref search) ({} : Search)
  pure search.order.reverse

/-- A parent that has no level yet counts as none. -/
def levelOf (level : FiniteMap NodeRef Nat) (parents : List NodeRef) : Nat :=
  parents.foldl (fun current parent =>
    match level.lookup parent with
    | some found => if current < found + 1 then found + 1 else current
    | none => current) 0

def executionLevels (graph : Graph F) : Except Fault (List (List NodeRef)) := do
  let order ← graph.topologicalSort
  let level ← order.foldlM (fun level ref => do
    let entry ← graph.deref ref
    pure (level.insert ref (levelOf level entry.parents))) (∅ : FiniteMap NodeRef Nat)
  let levelAt ref := (level.lookup ref).getD 0
  let maxLevel := order.foldl (fun most ref => if most < levelAt ref then levelAt ref else most) 0
  let count := if order = [] then 0 else maxLevel + 1
  pure ((List.range count).map fun current => order.filter fun ref => levelAt ref = current)

end Graph

structure Model (F : Type) where
  graph : Graph F := {}
  initializers : FiniteMap Text (Tensor F) := ∅

namespace Model
variable {F : Type}

def addInitializer (model : Model F) (name : Text) (tensor : Tensor F) : Model F :=
  { model with initializers := model.initializers.insert name tensor }

def removeInitializer (model : Model F) (name : Text) : Model F :=
  { model with initializers := model.initializers.erase name }

def hasInitializer (model : Model F) (name : Text) : Bool := name ∈ model.initializers

end Model

/-- What the setters do to a node. -/
inductive Edit (F : Type) where
  | opType (op : OpType)
  | outputs (names : List Text)
  | attr (key : Text) (value : Attribute F)

def Edit.apply {F : Type} : Edit F → Node F → Node F
  | .opType op, node => node.setOpType op
  | .outputs names, node => node.setOutputs names
  | .attr key value, node => node.setAttr key value

/-- The models the public interface can build, each call walking its tables in
an order of its own. -/
inductive Model.Built {F : Type} : Model F → Prop
  | new : Built {}
  | addNode {model : Model F} (built : Built model) (walk : FiniteMap.Traversal Text (NodeEntry F)) (name opTypeStr : Text)
      (inputs outputs : List Text) (attributes : FiniteMap Text (Attribute F)) :
      Built { model with graph := model.graph.addNode walk (Node.make name opTypeStr inputs outputs attributes) }
  | removeNode {model : Model F} (built : Built model) (walk : FiniteMap.Traversal Text (NodeEntry F)) (name : Text) :
      Built { model with graph := model.graph.removeNode walk name }
  | rebuildEdges {model : Model F} (built : Built model) (walk : FiniteMap.Traversal Text (NodeEntry F)) :
      Built { model with graph := model.graph.rebuildEdges walk }
  | edit {model : Model F} (built : Built model) (name : Text) (change : Edit F) :
      Built { model with graph := model.graph.edit name change.apply }
  | setInputs {model : Model F} (built : Built model) (names : List Text) :
      Built { model with graph := { model.graph with inputs := names } }
  | setOutputs {model : Model F} (built : Built model) (names : List Text) :
      Built { model with graph := { model.graph with outputs := names } }
  | addInitializer {model : Model F} (built : Built model) (name : Text) (tensor : Tensor F) :
      Built (model.addInitializer name tensor)
  | removeInitializer {model : Model F} (built : Built model) (name : Text) : Built (model.removeInitializer name)

end FromScratch.Inference
