import FromScratch.Lib.Acyclic
import FromScratch.Proofs.OptimizerMeaning

/-! Models that are written down: nodes added one after the other, to initializers
that are there. Whether such a model suits the optimizer and the session is a
matter of its names. -/

namespace FromScratch.Inference
open Lib (FiniteMap)

variable {F : Type}

/-- The nodes added in this order. -/
def Graph.listed (walk : FiniteMap.Traversal Text (NodeEntry F)) (nodes : List (Node F)) : Graph F :=
  nodes.foldl (fun graph node => graph.addNode walk node) {}

def Model.listed (walk : FiniteMap.Traversal Text (NodeEntry F)) (initializers : List (Text × Tensor F))
    (nodes : List (Node F))
    (inputs outputs : List Text) : Model F where
  graph := { Graph.listed walk nodes with inputs, outputs }
  initializers := initializers.foldl (fun tensors initializer => tensors.insert initializer.1 initializer.2) ∅

/-- What a node says of the others: its name, and the tensors it reads and writes. -/
structure Signature where
  name : Text
  inputs : List Text
  outputs : List Text

def Node.signature (node : Node F) : Signature := ⟨node.name, node.inputs, node.outputs⟩

/-- The nodes have names of their own and come after those they read, and no
tensor is defined twice. -/
structure Tidy (initializers : List Text) (nodes : List Signature) (inputs : List Text) : Prop where
  named : (nodes.map Signature.name).Nodup
  apart : (nodes.flatMap Signature.outputs).Nodup
  ordered : nodes.Pairwise fun first last => ∀ output ∈ last.outputs, output ∉ first.inputs
  selfless : ∀ node ∈ nodes, ∀ output ∈ node.outputs, output ∉ node.inputs
  fresh : ∀ node ∈ nodes, ∀ output ∈ node.outputs, output ∉ inputs ∧ output ∉ initializers
  given : ∀ input ∈ inputs, input ∉ initializers

section Listed
variable {walk : FiniteMap.Traversal Text (NodeEntry F)} {nodes : List (Node F)} {name : Text} {node : Node F}

theorem Graph.has_listed (named : (nodes.map Node.name).Nodup) :
    (Graph.listed walk nodes).Has name node ↔ node ∈ nodes ∧ node.name = name := by
  induction nodes using List.reverseRecOn with
  | nil =>
    refine iff_of_false ?_ fun here => List.not_mem_nil here.1
    rintro ⟨_, here⟩
    cases here
  | append_singleton earlier last ih =>
    rw [List.map_append, List.map_singleton, List.nodup_append] at named
    obtain ⟨distinct, _, apart⟩ := named
    have others := ih distinct
    simp only [Graph.Has] at others ⊢
    rw [Graph.listed, List.foldl_append, List.foldl_cons, List.foldl_nil]
    simp only [Graph.stored_addNode, List.mem_append, List.mem_singleton]
    by_cases same : name = last.name
    · rw [if_pos same]
      constructor
      · rintro ⟨id, here⟩
        cases here
        exact ⟨Or.inr rfl, same.symm⟩
      · rintro ⟨old | rfl, named⟩
        · exact absurd (named.trans same) (apart _ (List.mem_map_of_mem old) _ List.mem_cons_self)
        · exact ⟨_, rfl⟩
    · rw [if_neg same]
      refine others.trans (and_congr_left fun named => (or_iff_left ?_).symm)
      rintro rfl
      exact absurd named.symm same

variable {initializers : List (Text × Tensor F)} {inputs outputs : List Text}

theorem Model.lookup_listed (distinct : (initializers.map Prod.fst).Nodup) (tensor : Tensor F) :
    (Model.listed walk initializers nodes inputs outputs).initializers.lookup name = some tensor ↔
    (name, tensor) ∈ initializers := by
  unfold Model.listed
  induction initializers using List.reverseRecOn with
  | nil => simp
  | append_singleton earlier last ih =>
    rw [List.map_append, List.map_singleton, List.nodup_append] at distinct
    obtain ⟨distinct, _, apart⟩ := distinct
    rw [List.foldl_append, List.foldl_cons, List.foldl_nil, FiniteMap.lookup_insert_eq, List.mem_append, List.mem_singleton]
    by_cases same : name = last.1
    · rw [if_pos same]
      refine ⟨fun here => Or.inr ?_, fun member => ?_⟩
      · cases here
        exact Prod.ext same rfl
      · rcases member with old | here
        · exact absurd same (apart _ (List.mem_map_of_mem old) _ List.mem_cons_self)
        · rw [← here]
    · rw [if_neg same, ih distinct]
      refine ⟨Or.inl, fun member => member.resolve_right fun here => same ?_⟩
      rw [← here]

theorem Model.assembled_listed (made : ∀ node ∈ nodes, node.opType = opTypeFromString node.opTypeStr) :
    (Model.listed walk initializers nodes inputs outputs).Assembled := by
  have graphs : Model.Assembled (⟨Graph.listed walk nodes, ∅⟩ : Model F) := by
    induction nodes using List.reverseRecOn with
    | nil => exact .new
    | append_singleton earlier last ih =>
      have remade : last = Node.make last.name last.opTypeStr last.inputs last.outputs last.attributes := by
        obtain ⟨name, opTypeStr, opType, inputs, outputs, attributes⟩ := last
        obtain rfl : opType = opTypeFromString opTypeStr := made _ (List.mem_append_right _ List.mem_cons_self)
        rfl
      rw [Graph.listed, List.foldl_append, List.foldl_cons, List.foldl_nil, remade]
      exact (ih fun node member => made node (List.mem_append_left _ member)).addNode walk _ _ _ _ _
  have tables : Model.Assembled (⟨Graph.listed walk nodes,
      initializers.foldl (fun tensors initializer => tensors.insert initializer.1 initializer.2) ∅⟩ : Model F) := by
    induction initializers using List.reverseRecOn with
    | nil => exact graphs
    | append_singleton earlier last ih =>
      rw [List.foldl_append]
      exact ih.addInitializer last.1 last.2
  exact (tables.setInputs inputs).setOutputs outputs

theorem Graph.order_listed (walk : FiniteMap.Traversal Text (NodeEntry F)) (nodes : List (Node F)) :
    (Graph.listed walk nodes).insertionOrder = nodes.map Node.name := by
  induction nodes using List.reverseRecOn with
  | nil => rfl
  | append_singleton earlier last ih =>
    rw [Graph.listed, List.foldl_append, List.map_append, ← ih]
    rfl

theorem Model.held_listed : name ∈ (Model.listed walk initializers nodes inputs outputs).initializers ↔
    name ∈ initializers.map Prod.fst := by
  unfold Model.listed
  induction initializers using List.reverseRecOn with
  | nil => exact iff_of_false (AList.notMem_empty name) List.not_mem_nil
  | append_singleton earlier last ih =>
    rw [List.foldl_append, List.map_append, List.mem_append]
    refine (AList.mem_insert _).trans ?_
    rw [ih, or_comm]
    exact or_congr Iff.rfl List.mem_singleton.symm

theorem Tidy.names {initializers : List Text} (tidy : Tidy initializers (nodes.map Node.signature) inputs) :
    (nodes.map Node.name).Nodup := by
  have named := tidy.named
  rwa [List.map_map] at named

theorem Tidy.acyclic {initializers : List Text} (tidy : Tidy initializers (nodes.map Node.signature) inputs) :
    (Graph.listed walk nodes).Acyclic := by
  have has {name : Text} {node : Node F} : (Graph.listed walk nodes).Has name node ↔ node ∈ nodes ∧ node.name = name :=
    Graph.has_listed tidy.names
  have index (k : Nat) (bound : k < nodes.length) : (nodes.map Node.name).idxOf nodes[k].name = k := by
    have found := tidy.names.idxOf_getElem k (by rwa [List.length_map])
    rwa [List.getElem_map] at found
  -- Every edge leads from a node to one that is added later.
  have grows : ∀ first last, Graph.Feeds (Graph.stored (Graph.listed walk nodes).nodeMap) (first, last) →
      (nodes.map Node.name).idxOf first < (nodes.map Node.name).idxOf last := by
    rintro first last ⟨source, target, from_, to_, output, written, read⟩
    obtain ⟨here, rfl⟩ := has.mp ⟨source.1, from_⟩
    obtain ⟨there, rfl⟩ := has.mp ⟨target.1, to_⟩
    obtain ⟨i, inside, same⟩ := List.getElem_of_mem here
    obtain ⟨j, within, equal⟩ := List.getElem_of_mem there
    rw [← same, ← equal, index i inside, index j within]
    rw [← same] at written
    rw [← equal] at read
    rcases Nat.lt_trichotomy i j with less | rfl | more
    · exact less
    · exact absurd read (tidy.selfless _ (List.mem_map_of_mem (List.getElem_mem inside)) output written)
    · exact absurd read (List.pairwise_iff_getElem.mp
        (List.pairwise_map.mp tidy.ordered) j i within inside more output written)
  intro name cycle
  exact lt_irrefl _ (Lib.Acyclic.grows_along grows cycle)

/-- Names that are tidy make a model the optimizer can work on. -/
theorem Tidy.optimizable (tidy : Tidy (initializers.map Prod.fst) (nodes.map Node.signature) inputs)
    (made : ∀ node ∈ nodes, node.opType = opTypeFromString node.opTypeStr) :
    ∃ rank, GraphOptimizer.Optimizable (Model.listed walk initializers nodes inputs outputs) rank := by
  have has {name : Text} {node : Node F} : (Model.listed walk initializers nodes inputs outputs).graph.Has name node ↔
      node ∈ nodes ∧ node.name = name := Graph.has_listed tidy.names
  have acyclic : (Model.listed walk initializers nodes inputs outputs).graph.Acyclic := tidy.acyclic
  have distinct : (Model.listed walk initializers nodes inputs outputs).graph.insertionOrder.Nodup :=
    (Graph.order_listed walk nodes).symm ▸ tidy.names
  apply GraphOptimizer.Optimizable.of_assembled (Model.assembled_listed made) distinct _ acyclic
  refine ⟨fun name member => ?_, fun name node here output written => ?_, ?_⟩
  · rw [Model.held_listed]
    exact tidy.given name member
  · rw [Model.held_listed]
    exact tidy.fresh node.signature (List.mem_map_of_mem (has.mp here).1) output written
  · intro name node other reader here there output written shared
    obtain ⟨first, rfl⟩ := has.mp here
    obtain ⟨second, rfl⟩ := has.mp there
    have apart := List.pairwise_map.mp (List.nodup_flatMap.mp tidy.apart).2
    have : Std.Symm fun first last : Node F =>
      Function.onFun List.Disjoint Signature.outputs first.signature last.signature :=
      ⟨fun _ _ => List.Disjoint.symm⟩
    by_contra different
    exact apart.forall first second (fun same => different (by rw [same])) written shared

/-- What gives every node its value is what a run of the model computes. -/
theorem Valued.of_listed [Scalar F] {provider : Provider} {store : Text → Tensor F} {inputName outputName : Text}
    {input : Tensor F} (tidy : Tidy (initializers.map Prod.fst) (nodes.map Node.signature) [inputName])
    (made : ∀ node ∈ nodes, node.opType = opTypeFromString node.opTypeStr) (distinct : (initializers.map Prod.fst).Nodup)
    (values : ∀ node ∈ nodes, Provider.supports node.opType = true ∧ ∃ output, node.outputs = [output] ∧
      InferenceSession.denote provider node (node.inputs.map store) = .ok (store output))
    (held : ∀ initializer ∈ initializers, store initializer.1 = initializer.2) (request : store inputName = input)
    (known : ∀ read ∈ outputName :: nodes.flatMap Node.inputs,
      read ∈ initializers.map Prod.fst ∨ read = inputName ∨ read ∈ nodes.flatMap Node.outputs) :
    ∃ rank, Valued provider store inputName outputName input rank
      (Model.listed walk initializers nodes [inputName] [outputName]) := by
  obtain ⟨rank, fit⟩ := @Tidy.optimizable F walk nodes initializers [inputName] [outputName] tidy made
  have has {name : Text} {node : Node F} :
      (Model.listed walk initializers nodes [inputName] [outputName]).graph.Has name node ↔
        node ∈ nodes ∧ node.name = name :=
    Graph.has_listed tidy.names
  have provided (read : Text) (listed : read ∈ outputName :: nodes.flatMap Node.inputs) :
      Provided (Model.listed walk initializers nodes [inputName] [outputName]) inputName read := by
    rcases known read listed with initial | requested | written
    · exact Or.inl (Model.held_listed.mpr initial)
    · exact Or.inr (Or.inl requested)
    · obtain ⟨node, member, written⟩ := List.mem_flatMap.mp written
      exact Or.inr (Or.inr ⟨node.name, node, has.mpr ⟨member, rfl⟩, written⟩)
  refine ⟨rank, fit, fun name node here => values node (has.mp here).1, fun name tensor found => ?_, request, rfl, rfl, ?_,
    provided outputName List.mem_cons_self⟩
  · exact held _ ((Model.lookup_listed distinct tensor).mp found)
  · intro name node here read reads
    exact provided read (List.mem_cons_of_mem _ (List.mem_flatMap.mpr ⟨node, (has.mp here).1, reads⟩))

end Listed
end FromScratch.Inference
