import FromScratch.Inference.Graph
import FromScratch.Inference.Provider

/-! The load-time rewrites. Each pass looks for its first opportunity, applies it
and starts over, until there is none. -/

namespace FromScratch.Inference
open Lib (FiniteMap)

structure OptimizerOptions where
  fuseActivations : Bool
  foldConstants : Bool
  eliminateDeadNodes : Bool

structure OptimizationReport where
  fusedActivations : Nat
  foldedConstants : Nat
  eliminatedNodes : Nat
  nodesBefore : Nat
  nodesAfter : Nat

/-- What the passes find outside the model: the orders in which the node table is
walked, one for every rebuilding of the edges, and the threads of the kernels. -/
structure Platform (F : Type) where
  folding : Nat → FiniteMap.Traversal Text (NodeEntry F)
  fusing : Nat → FiniteMap.Traversal Text (NodeEntry F)
  eliminating : Nat → FiniteMap.Traversal Text (NodeEntry F)
  threads : Nat → Gemm.Threads F

namespace GraphOptimizer
variable {F : Type}

/-- A `Relu` and the producer it can be fused into. -/
def fusible (graph : Graph F) (target : NodeEntry F) : Except Fault (Option (NodeEntry F × NodeEntry F)) :=
  if target.node.opType ≠ .relu ∨ target.node.inputs.length ≠ 1 then .ok none
  else do
    let entry ← graph.entryAt target.node.name
    match entry.parents with
    | [ref] => do
      let parent ← graph.deref ref
      match parent.node.opType, parent.node.outputs with
      | .gemm, [output] => do
        let producer ← graph.entryAt parent.node.name
        if producer.children.length ≠ 1 ∨ output ∈ graph.outputs then .ok none else .ok (some (target, parent))
      | _, _ => .ok none
    | _ => .ok none

def fuse (walk : FiniteMap.Traversal Text (NodeEntry F)) (graph : Graph F) (target producer : Node F) : Graph F :=
  (graph.edit producer.name fun node => (node.setOpType .gemmRelu).setOutputs target.outputs).removeNode walk target.name

/-- Every round removes a node, so as many rounds as there are nodes, and one
more that finds nothing, are enough. -/
def fuseActivations (platform : Platform F) : Nat → Model F → Except Fault (Model F × Nat)
  | 0, _ => .error .endless
  | fuel + 1, model => do
    let nodes ← model.graph.nodesInInsertionOrder
    match ← nodes.findSomeM? (fusible model.graph) with
    | none => return (model, 0)
    | some (target, producer) => do
      let graph := fuse (platform.fusing fuel) model.graph target.node producer.node
      let (model, fused) ← fuseActivations platform fuel { model with graph }
      return (model, fused + 1)

/-- A supported node with one output that reads initializers only. -/
def constant (model : Model F) (node : Node F) : Bool :=
  node.outputs.length = 1 && Provider.supports node.opType && !node.inputs.isEmpty &&
    node.inputs.all fun input => model.hasInitializer input

def foldConstants [Scalar F] (platform : Platform F) (provider : Provider) : Nat → Model F → Except Fault (Model F × Nat)
  | 0, _ => .error .endless
  | fuel + 1, model => do
    let nodes ← model.graph.nodesInInsertionOrder
    match nodes.find? fun entry => constant model entry.node with
    | none => return (model, 0)
    | some candidate => do
      let inputs := candidate.node.inputs.filterMap fun input => model.initializers.lookup input
      let output ← provider.compute (platform.threads fuel) candidate.node inputs Tensor.empty
      let graph := model.graph.removeNode (platform.folding fuel) candidate.node.name
      let model := model.addInitializer (candidate.node.outputs.headD []) output
      let (model, folded) ← foldConstants platform provider fuel { model with graph }
      return (model, folded + 1)

/-- Nobody reads an output of the node, and none is an output of the graph. -/
def dead (graph : Graph F) (nodes : List (NodeEntry F)) (node : Node F) : Bool :=
  node.outputs.all fun output => output ∉ graph.outputs ∧ ∀ entry ∈ nodes, output ∉ entry.node.inputs

def eliminateDeadNodes (platform : Platform F) : Nat → Model F → Except Fault (Model F × Nat)
  | 0, _ => .error .endless
  | fuel + 1, model => do
    let nodes ← model.graph.nodesInInsertionOrder
    match nodes.find? fun entry => dead model.graph nodes entry.node with
    | none => return (model, 0)
    | some unused => do
      let graph := model.graph.removeNode (platform.eliminating fuel) unused.node.name
      let (model, eliminated) ← eliminateDeadNodes platform fuel { model with graph }
      return (model, eliminated + 1)

/-- A pass that may be switched off. Its rounds are bounded by the nodes. -/
def pass (enabled : Bool) (rewrite : Nat → Model F → Except Fault (Model F × Nat)) (model : Model F) :
    Except Fault (Model F × Nat) :=
  if enabled then rewrite (model.graph.nodeMap.keys.length + 1) model else pure (model, 0)

def run [Scalar F] (options : OptimizerOptions) (platform : Platform F) (provider : Provider) (model : Model F) :
    Except Fault (Model F × OptimizationReport) := do
  let nodesBefore := model.graph.nodeMap.keys.length
  let (model, foldedConstants) ← pass options.foldConstants (foldConstants platform provider) model
  let (model, fusedActivations) ← pass options.fuseActivations (fuseActivations platform) model
  let (model, eliminatedNodes) ← pass options.eliminateDeadNodes (eliminateDeadNodes platform) model
  let nodesAfter := model.graph.nodeMap.keys.length
  return (model, { fusedActivations, foldedConstants, eliminatedNodes, nodesBefore, nodesAfter })

end GraphOptimizer
end FromScratch.Inference
