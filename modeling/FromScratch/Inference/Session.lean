import FromScratch.Inference.Optimizer

/-! The inference session: the schedule and the tensor slots made once from the
model, and the runs that fill the slots again and again. -/

namespace FromScratch.Inference
open Lib (FiniteMap)

abbrev Slots (F : Type) := FiniteMap Text (Tensor F)

/-- `config_.graphOptimization`, and whether the levels are run in parallel:
`config_.interOpParallel` on a provider that has a pool. -/
structure SessionConfig where
  graphOptimization : Bool
  parallel : Bool

def SessionConfig.optimizerOptions (config : SessionConfig) : OptimizerOptions where
  fuseActivations := config.graphOptimization
  foldConstants := config.graphOptimization
  eliminateDeadNodes := config.graphOptimization

/-- What `prepare` leaves in the session, besides the slots. -/
structure Session (F : Type) where
  graph : Graph F
  order : List NodeRef
  levels : List (List NodeRef)
  inputName : Text
  outputName : Text
  parallel : Bool

namespace InferenceSession
variable {F : Type}

/-- The operation and the outputs of a node of the schedule. -/
def checkNode (node : Node F) : Except Fault Unit := do
  if !Provider.supports node.opType then
    throw (.runtimeError (text "Execution provider 'cpu' does not support op '" ++ node.opTypeStr ++
      text "' on node " ++ node.name))
  if node.outputs.length ≠ 1 then
    throw (.runtimeError (text "Node " ++ node.name ++ text " must produce exactly one output"))

/-- A copy of an initializer in the provider's memory, unless the name has a slot. -/
def placeInitializer [Scalar F] (tensors : Slots F) (initializer : Text × Tensor F) : Except Fault (Slots F) := do
  let resident ← Tensor.filled initializer.2.shape Scalar.zero
  let resident ← resident.copyFrom initializer.2.data
  pure (tensors.emplace initializer.1 resident)

def checkInputs (tensors : Slots F) (node : Node F) : Except Fault Unit :=
  node.inputs.forM fun input =>
    if input ∈ tensors then pure ()
    else throw (.runtimeError (text "Node " ++ node.name ++ text " reads unknown tensor '" ++ input ++ text "'"))

/-- `model_.graph().inputs().front()`, and the same of the outputs. -/
def ends (graph : Graph F) : Except Fault (Text × Text) :=
  match graph.inputs, graph.outputs with
  | [], _ => throw (.runtimeError (text "Model graph declares no inputs"))
  | _, [] => throw (.runtimeError (text "Model graph declares no outputs"))
  | input :: _, output :: _ => pure (input, output)

/-- `prepare` from where the model is the one to run. -/
def schedule [Scalar F] (initializers : FiniteMap.Traversal Text (Tensor F)) (parallel : Bool) (model : Model F) :
    Except Fault (Session F × Slots F) := do
  let (inputName, outputName) ← ends model.graph
  let order ← model.graph.topologicalSort
  let levels ← model.graph.executionLevels
  let nodes ← order.mapM fun ref => (·.node) <$> model.graph.deref ref
  nodes.forM checkNode
  let tensors ← (initializers.entries model.initializers).foldlM placeInitializer (∅ : Slots F)
  let tensors := tensors.emplace inputName Tensor.empty
  let tensors := nodes.foldl (fun tensors node => tensors.emplace (node.outputs.headD []) Tensor.empty) tensors
  if outputName ∉ tensors then
    throw (.runtimeError (text "Graph output '" ++ outputName ++ text "' is not produced by any node"))
  nodes.forM (checkInputs tensors)
  pure ({ graph := model.graph, order, levels, inputName, outputName, parallel }, tensors)

def prepare [Scalar F] (config : SessionConfig) (platform : Platform F) (initializers : FiniteMap.Traversal Text (Tensor F))
    (provider : Provider) (model : Model F) : Except Fault (Session F × Slots F) := do
  let _ ← ends model.graph
  if config.graphOptimization then do
    let (model, _) ← GraphOptimizer.run config.optimizerOptions platform provider model
    schedule initializers config.parallel model
  else schedule initializers config.parallel model

/-- `tensors_.find(name)->second`. -/
def slot (tensors : Slots F) (name : Text) : Except Fault (Tensor F) :=
  match tensors.lookup name with
  | some tensor => .ok tensor
  | none => .error .undefined

/-- The kernels of a product read their operands while they write the output, so
a product that reads its own output is left out. -/
def executeNode [Scalar F] (provider : Provider) (graph : Graph F) (threads : Gemm.Threads F) (ref : NodeRef)
    (tensors : Slots F) :
    Except Fault (Slots F) := do
  let entry ← graph.deref ref
  let node := entry.node
  let inputs ← node.inputs.mapM (slot tensors)
  let name := node.outputs.headD []
  let output ← slot tensors name
  if name ∈ node.inputs ∧ (node.opType = .gemm ∨ node.opType = .gemmRelu) then throw .undefined
  let output ← provider.compute threads node inputs output
  pure (tensors.insert name output)

/-- How the parts of one call take effect: each level in some order, each node on
threads of its own. -/
structure Call (F : Type) where
  within : List NodeRef → List NodeRef
  perm : ∀ level, (within level).Perm level
  threads : NodeRef → Gemm.Threads F

/-- The nodes of a level all run, even if some of them throw; one of the
exceptions comes out. -/
def executeLevel [Scalar F] (provider : Provider) (graph : Graph F) (threads : NodeRef → Gemm.Threads F) :
    List NodeRef → Slots F → Except Fault (Slots F × Option Fault)
  | [], tensors => .ok (tensors, none)
  | ref :: level, tensors =>
    match executeNode provider graph (threads ref) ref tensors with
    | .ok tensors => executeLevel provider graph threads level tensors
    | .error fault =>
      if fault.Thrown then do
        let (tensors, _) ← executeLevel provider graph threads level tensors
        pure (tensors, some fault)
      else .error fault

def executeLevels [Scalar F] (provider : Provider) (graph : Graph F) (call : Call F) :
    List (List NodeRef) → Slots F → Except Fault (Slots F × Option Fault)
  | [], tensors => .ok (tensors, none)
  | level :: levels, tensors => do
    match ← executeLevel provider graph call.threads (call.within level) tensors with
    | (tensors, some fault) => pure (tensors, some fault)
    | (tensors, none) => executeLevels provider graph call levels tensors

/-- The order is run as levels of one node. -/
def levelsOf (session : Session F) : List (List NodeRef) :=
  if session.parallel then session.levels else session.order.map fun ref => [ref]

/-- What the input slot holds when the nodes start. -/
def placeInput [Scalar F] (session : Session F) (input : Tensor F) (tensors : Slots F) : Except Fault (Slots F) := do
  let held ← slot tensors session.inputName
  let held ← if held.shape ≠ input.shape then Tensor.filled input.shape Scalar.zero else pure held
  let held ← held.copyFrom input.data
  pure (tensors.insert session.inputName held)

/-- The slots a call leaves, and the tensor it returns or the exception it throws. -/
def run [Scalar F] (provider : Provider) (session : Session F) (call : Call F) (input : Tensor F) (tensors : Slots F) :
    Except Fault (Slots F × Except Fault (Tensor F)) :=
  if input.size = 0 then .ok (tensors, .error (.invalidArgument (text "Inference input tensor is empty")))
  else do
    let tensors ← placeInput session input tensors
    match ← executeLevels provider session.graph call (levelsOf session) tensors with
    | (tensors, some fault) => pure (tensors, .error fault)
    | (tensors, none) => do
      let output ← slot tensors session.outputName
      pure (tensors, .ok output)

/-- Requests one after the other, and what each was answered. -/
def serve [Scalar F] (provider : Provider) (session : Session F) :
    List (Call F × Tensor F) → Slots F → Except Fault (Slots F × List (Except Fault (Tensor F)))
  | [], tensors => .ok (tensors, [])
  | request :: requests, tensors => do
    let (tensors, answer) ← run provider session request.1 request.2 tensors
    let (tensors, answers) ← serve provider session requests tensors
    pure (tensors, answer :: answers)

end InferenceSession
end FromScratch.Inference
