import FromScratch.Lib.Acyclic
import FromScratch.Proofs.OptimizerSteps
import FromScratch.Proofs.GemmRational

/-! Models written down as lists of nodes, for the examples. Whether the names are
distinct and the nodes in order can be computed. -/

namespace FromScratch.Inference
open Lib (FiniteMap)

def plainPlatform : Platform ℚ := ⟨fun _ => .kept, fun _ => .kept, fun _ => .kept, fun _ => ⟨none, fun _ => ⟨[], []⟩⟩⟩

theorem one_fits : [(1 : ℚ)].length * 4 < 2 ^ 64 := by decide

def unitTensor : Tensor ℚ := ⟨[1, 1], [1], rfl, one_fits⟩

/-- A node, by the texts of a model file. -/
structure NodeSketch where
  name : String
  opTypeStr : String
  inputs : List String
  outputs : List String
deriving DecidableEq

namespace NodeSketch

def node (sketch : NodeSketch) : Node ℚ :=
  Node.make (text sketch.name) (text sketch.opTypeStr) (sketch.inputs.map text) (sketch.outputs.map text) ∅

end NodeSketch

structure ModelSketch where
  nodes : List NodeSketch
  initializers : List (String × Tensor ℚ)
  inputs : List String
  outputs : List String

namespace ModelSketch

def graph (nodes : List NodeSketch) : Graph ℚ := nodes.foldl (fun graph sketch => graph.addNode .kept sketch.node) {}

def model (sketch : ModelSketch) : Model ℚ where
  graph := { graph sketch.nodes with inputs := sketch.inputs.map text, outputs := sketch.outputs.map text }
  initializers := sketch.initializers.foldl (fun tensors initializer => tensors.insert (text initializer.1) initializer.2) ∅

/-- No tensor is defined twice. -/
def Clean (sketch : ModelSketch) : Prop :=
  (sketch.nodes.flatMap fun node => node.outputs.map text).Nodup ∧
    (∀ node ∈ sketch.nodes, ∀ output ∈ node.outputs.map text, output ∉ sketch.inputs.map text ∧
      output ∉ sketch.initializers.map fun initializer => text initializer.1) ∧
    ∀ input ∈ sketch.inputs.map text, input ∉ sketch.initializers.map fun initializer => text initializer.1

instance (sketch : ModelSketch) : Decidable sketch.Clean := inferInstanceAs (Decidable (_ ∧ _ ∧ _))

/-- The nodes come after those they read. -/
def Ordered (sketch : ModelSketch) : Prop :=
  (sketch.nodes.map fun node => text node.name).Nodup ∧
    (sketch.nodes.Pairwise fun first last => ∀ output ∈ last.outputs.map text, output ∉ first.inputs.map text) ∧
    ∀ node ∈ sketch.nodes, ∀ output ∈ node.outputs.map text, output ∉ node.inputs.map text

instance (sketch : ModelSketch) : Decidable sketch.Ordered := inferInstanceAs (Decidable (_ ∧ _ ∧ _))

section Sketched
variable {sketch : ModelSketch} {nodes : List NodeSketch} {name : Text} {node : Node ℚ}

theorem has_graph (has : (graph nodes).Has name node) : ∃ found ∈ nodes, text found.name = name ∧ found.node = node := by
  induction nodes using List.reverseRecOn with
  | nil =>
    obtain ⟨_, here⟩ := has
    cases here
  | append_singleton earlier last ih =>
    obtain ⟨id, here⟩ := has
    rw [graph, List.foldl_append] at here
    change Graph.stored ((graph earlier).addNode .kept last.node).nodeMap name = _ at here
    rw [Graph.stored_addNode] at here
    split at here
    next same =>
      cases here
      exact ⟨last, List.mem_append_right _ List.mem_cons_self, same.symm, rfl⟩
    next =>
      obtain ⟨found, member, same⟩ := ih ⟨id, here⟩
      exact ⟨found, List.mem_append_left _ member, same⟩

theorem has_model (has : sketch.model.graph.Has name node) : ∃ found ∈ sketch.nodes, text found.name = name ∧
    found.node = node :=
  has_graph has

theorem mem_initializers : name ∈ sketch.model.initializers ↔ name ∈ sketch.initializers.map fun initializer =>
    text initializer.1 := by
  rw [model]
  induction sketch.initializers using List.reverseRecOn with
  | nil => exact iff_of_false (AList.notMem_empty name) List.not_mem_nil
  | append_singleton earlier last ih =>
    rw [List.foldl_append, List.map_append, List.mem_append]
    refine (AList.mem_insert _).trans ?_
    rw [ih, or_comm]
    exact or_congr Iff.rfl List.mem_singleton.symm

theorem assembled (sketch : ModelSketch) : sketch.model.Assembled := by
  have nodes : ∀ nodes : List NodeSketch, Model.Assembled (⟨graph nodes, ∅⟩ : Model ℚ) := by
    intro nodes
    induction nodes using List.reverseRecOn with
    | nil => exact .new
    | append_singleton earlier last ih =>
      rw [graph, List.foldl_append]
      exact ih.addNode .kept (text last.name) (text last.opTypeStr) (last.inputs.map text) (last.outputs.map text) ∅
  have initializers : ∀ initializers : List (String × Tensor ℚ), Model.Assembled (⟨graph sketch.nodes,
      initializers.foldl (fun tensors initializer => tensors.insert (text initializer.1) initializer.2) ∅⟩ : Model ℚ) := by
    intro initializers
    induction initializers using List.reverseRecOn with
    | nil => exact nodes sketch.nodes
    | append_singleton earlier last ih =>
      rw [List.foldl_append]
      exact ih.addInitializer (text last.1) last.2
  exact ((initializers sketch.initializers).setInputs (sketch.inputs.map text)).setOutputs (sketch.outputs.map text)

theorem definedOnce (clean : sketch.Clean) : sketch.model.DefinedOnce where
  inputs name member := by
    rw [mem_initializers]
    exact clean.2.2 name member
  outputs name node has output written := by
    obtain ⟨found, member, _, rfl⟩ := has_model has
    rw [mem_initializers]
    exact clean.2.1 found member output written
  nodes name node other reader has found output written shared := by
    obtain ⟨first, here, rfl, rfl⟩ := has_model has
    obtain ⟨second, there, rfl, rfl⟩ := has_model found
    have apart := (List.nodup_flatMap.mp clean.1).2
    have : Std.Symm (Function.onFun List.Disjoint fun node : NodeSketch => node.outputs.map text) :=
      ⟨fun _ _ => List.Disjoint.symm⟩
    by_contra different
    exact apart.forall here there (fun same => different (by rw [same])) written shared

theorem selfless (ordered : sketch.Ordered) : ∀ name node, sketch.model.graph.Has name node →
    ∀ output ∈ node.outputs, output ∉ node.inputs := by
  intro name node has output written
  obtain ⟨found, member, _, rfl⟩ := has_model has
  exact ordered.2.2 found member output written

theorem acyclic (ordered : sketch.Ordered) : sketch.model.graph.Acyclic := by
  obtain ⟨distinct, later, selfless⟩ := ordered
  have grows : ∀ first last, Graph.Feeds (Graph.stored sketch.model.graph.nodeMap) (first, last) →
      (sketch.nodes.map fun node => text node.name).idxOf first <
        (sketch.nodes.map fun node => text node.name).idxOf last := by
    rintro first last ⟨source, target, from_, to_, output, written, read⟩
    obtain ⟨writer, here, rfl, same⟩ := has_model ⟨source.1, from_⟩
    obtain ⟨reader, there, rfl, equal⟩ := has_model ⟨target.1, to_⟩
    rw [← same] at written
    rw [← equal] at read
    obtain ⟨i, inside, rfl⟩ := List.getElem_of_mem here
    obtain ⟨j, within, rfl⟩ := List.getElem_of_mem there
    have index : ∀ k (bound : k < sketch.nodes.length),
        (sketch.nodes.map fun node => text node.name).idxOf (text sketch.nodes[k].name) = k := by
      intro k bound
      have found := distinct.idxOf_getElem k (by rwa [List.length_map])
      rwa [List.getElem_map] at found
    rw [index i inside, index j within]
    rcases Nat.lt_trichotomy i j with less | rfl | more
    · exact less
    · exact absurd read (selfless _ here output written)
    · exact absurd read (List.pairwise_iff_getElem.mp later j i within inside more output written)
  intro name cycle
  exact lt_irrefl _ (Lib.Acyclic.grows_along grows cycle)

end Sketched
end ModelSketch

namespace GraphOptimizer

/-- A product with an activation, a node that is constant and a node nobody reads. -/
def chain : ModelSketch where
  nodes := [⟨"g", "Gemm", ["x", "w"], ["h"]⟩, ⟨"r", "Relu", ["h"], ["y"]⟩, ⟨"c", "Relu", ["w"], ["k"]⟩,
    ⟨"a", "Add", ["y", "k"], ["z"]⟩, ⟨"d", "Relu", ["x"], ["u"]⟩]
  initializers := [("w", unitTensor)]
  inputs := ["x"]
  outputs := ["z"]

end GraphOptimizer
end FromScratch.Inference
