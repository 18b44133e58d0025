import FromScratch.Proofs.GemmStacked

/-! Models that take the rows of a batch apart: what varies with the request is
flattened, activated, added, or multiplied by weights. The passes of the optimizer
leave such a model one, with the same tensors varying. -/

namespace FromScratch.Inference
open Graph
open Lib (FiniteMap)

variable {F : Type}

/-- The operands whose rows make the rows of the output. -/
def rowOperands (node : Node F) : List Text :=
  match node.opType with
  | .add => node.inputs.take 2
  | _ => node.inputs.take 1

/-- A tensor that has a row for every row of the request. -/
inductive Activation (model : Model F) : Text → Prop
  | request {name : Text} (first : model.graph.inputs.head? = some name) : Activation model name
  | node {owner output : Text} {node : Node F} (has : model.graph.Has owner node) (written : output ∈ node.outputs)
      (fed : rowOperands node ≠ []) (operands : ∀ operand ∈ rowOperands node, Activation model operand) :
        Activation model output

/-- The operands of a product that are not activations: `B`, and a bias that is
empty or has an element for every column. -/
def Weighted (weights : FiniteMap Text (Tensor F)) (node : Node F) (B : Text) (bias : Option Text) : Prop :=
  ∃ matrix, weights.lookup B = some matrix ∧ ∀ name, bias = some name → ∃ vector, weights.lookup name = some vector ∧
    ∀ transB, node.getAttrInt (text "transB") 0 = .ok transB → Gemm.PerColumn matrix vector (transB ≠ 0)

/-- A node that makes its rows of the rows of what varies. -/
def Node.RowWise (weights : FiniteMap Text (Tensor F)) (varies : Text → Prop) (node : Node F) : Prop :=
  match node.opType with
  | .flatten => node.getAttrInt (text "axis") 1 = .ok 1
  | .relu => True
  | .add => ∃ a b rest, node.inputs = a :: b :: rest ∧ varies a ∧ varies b
  | .gemm | .gemmRelu => node.getAttrInt (text "transA") 0 = .ok 0 ∧
      ∃ A B rest, node.inputs = A :: B :: rest ∧ varies A ∧ Weighted weights node B rest.head?
  | .unknown => False

structure Model.RowWise (model : Model F) : Prop where
  nodes : ∀ name node, model.graph.Has name node → node.RowWise model.initializers (Activation model)
  output : ∀ name, model.graph.outputs.head? = some name → Activation model name

/-- The weights of the products have all their elements. -/
def Model.Whole (model : Model F) : Prop :=
  ∀ name node, model.graph.Has name node → node.opType = .gemm ∨ node.opType = .gemmRelu →
    ∀ B matrix, node.inputs[1]? = some B → model.initializers.lookup B = some matrix → matrix.Whole

/-- A model whose slots hold a row for every row of the request under the names
that vary, and the same for every request under the others. -/
structure Batched (model : Model F) (varies : Text → Prop) (whole : Prop) : Prop where
  request : ∀ name, model.graph.inputs.head? = some name → varies name
  output : ∀ name, model.graph.outputs.head? = some name → varies name
  fixed : ∀ name ∈ model.initializers, ¬varies name
  nodes : ∀ name node, model.graph.Has name node → node.RowWise model.initializers varies
  spreads : ∀ name node, model.graph.Has name node → ∀ output ∈ node.outputs,
    varies output ↔ rowOperands node ≠ [] ∧ ∀ operand ∈ rowOperands node, varies operand
  whole : whole → model.Whole

theorem rowOperands_inputs (node : Node F) : ∀ operand ∈ rowOperands node, operand ∈ node.inputs := by
  intro operand member
  rw [rowOperands] at member
  split at member
  · exact List.mem_of_mem_take member
  · exact List.mem_of_mem_take member

theorem Model.RowWise.batched {model : Model F} {whole : Prop} (rowWise : model.RowWise) (once : model.DefinedOnce)
    (full : whole → model.Whole) : Batched model (Activation model) whole where
  request _ := .request
  output := rowWise.output
  fixed name member varies := by
    cases varies with
    | request first => exact once.inputs name (List.mem_of_head? first) member
    | node has written => exact (once.outputs _ _ has name written).2 member
  nodes := rowWise.nodes
  spreads name node has output written := by
    constructor
    · intro varies
      cases varies with
      | request first => exact absurd (List.mem_of_head? first) (once.outputs name node has output written).1
      | node found shared fed operands =>
        obtain rfl := once.nodes _ _ _ _ has found output written shared
        obtain rfl := has.unique found
        exact ⟨fed, operands⟩
    · exact fun ⟨fed, operands⟩ => .node has written fed operands
  whole := full

section Kept
variable {weights others : FiniteMap Text (Tensor F)} {varies : Text → Prop} {node : Node F}

theorem Weighted.mono {B : Text} {bias : Option Text} (weighted : Weighted weights node B bias)
    (kept : ∀ name tensor, weights.lookup name = some tensor → others.lookup name = some tensor) :
    Weighted others node B bias := by
  obtain ⟨matrix, held, biased⟩ := weighted
  refine ⟨matrix, kept B matrix held, fun name present => ?_⟩
  obtain ⟨vector, found, fitting⟩ := biased name present
  exact ⟨vector, kept name vector found, fitting⟩

theorem Node.RowWise.mono (rowWise : node.RowWise weights varies)
    (kept : ∀ name tensor, weights.lookup name = some tensor → others.lookup name = some tensor) :
    node.RowWise others varies := by
  rw [Node.RowWise] at rowWise ⊢
  split at rowWise
  · exact rowWise
  · exact trivial
  · exact rowWise
  · obtain ⟨plain, A, B, rest, inputs, varying, weighted⟩ := rowWise
    exact ⟨plain, A, B, rest, inputs, varying, weighted.mono kept⟩
  · obtain ⟨plain, A, B, rest, inputs, varying, weighted⟩ := rowWise
    exact ⟨plain, A, B, rest, inputs, varying, weighted.mono kept⟩
  · exact rowWise

theorem Node.RowWise.product (rowWise : node.RowWise weights varies)
    (product : node.opType = .gemm ∨ node.opType = .gemmRelu) :
    node.getAttrInt (text "transA") 0 = .ok 0 ∧
      ∃ A B rest, node.inputs = A :: B :: rest ∧ varies A ∧ Weighted weights node B rest.head? := by
  rw [Node.RowWise] at rowWise
  rcases product with kind | kind
  · rw [kind] at rowWise
    exact rowWise
  · rw [kind] at rowWise
    exact rowWise

end Kept

namespace Batched
open GraphOptimizer
variable {model next : Model F} {varies : Text → Prop} {whole : Prop} {rank : Text → ℕ}

/-- What varies is not constant. -/
theorem constant_fixed (batched : Batched model varies whole) {name output : Text} {node : Node F}
    (has : model.graph.Has name node)
    (isConstant : constant model node = true) (written : output ∈ node.outputs) : ¬varies output := by
  intro varying
  obtain ⟨fed, operands⟩ := (batched.spreads name node has output written).mp varying
  obtain ⟨operand, member⟩ := List.exists_mem_of_ne_nil _ fed
  exact batched.fixed operand ((constant_reads isConstant).2 operand (rowOperands_inputs node operand member))
    (operands operand member)

theorem eliminate (batched : Batched model varies whole) (step : Eliminates model next) : Batched next varies whole := by
  cases step with
  | @step walk unused found isDead =>
    refine ⟨fun name first => batched.request name ?_, fun name first => batched.output name ?_, batched.fixed, ?_, ?_, ?_⟩
    · rw [← first]
      exact congrArg List.head? inputs_removeNode.symm
    · rw [← first]
      exact congrArg List.head? outputs_removeNode.symm
    · exact fun name node has => batched.nodes name node (has_removeNode.mp has).2
    · exact fun name node has => batched.spreads name node (has_removeNode.mp has).2
    · exact fun full name node has => batched.whole full name node (has_removeNode.mp has).2

theorem fold (batched : Batched model varies whole) (once : model.DefinedOnce)
    (walk : FiniteMap.Traversal Text (NodeEntry F))
    {candidate : NodeEntry F} (found : model.graph.nodeMap.lookup candidate.node.name = some candidate)
    (isConstant : constant model candidate.node = true) (value : Tensor F) :
    Batched { model.addInitializer (candidate.node.outputs.headD []) value with
      graph := model.graph.removeNode walk candidate.node.name } varies whole := by
  have here := has_lookup found
  obtain ⟨output, single⟩ := (constant_reads isConstant).1
  have written : output ∈ candidate.node.outputs := by
    rw [single]
    exact List.mem_cons_self
  have kept : ∀ name tensor, model.initializers.lookup name = some tensor →
      (model.addInitializer (candidate.node.outputs.headD []) value).initializers.lookup name = some tensor := by
    intro name tensor held
    rw [single]
    change (model.initializers.insert output value).lookup name = some tensor
    rw [FiniteMap.lookup_insert_eq, if_neg, held]
    rintro rfl
    exact (once.outputs _ _ here name written).2 ((FiniteMap.mem_iff_lookup _ _).mpr ⟨tensor, held⟩)
  refine ⟨fun name first => batched.request name ?_, fun name first => batched.output name ?_, fun name member => ?_,
    ?_, ?_, ?_⟩
  · rw [← first]
    exact congrArg List.head? inputs_removeNode.symm
  · rw [← first]
    exact congrArg List.head? outputs_removeNode.symm
  · rw [single] at member
    rcases (AList.mem_insert _).mp member with rfl | old
    · exact batched.constant_fixed here isConstant written
    · exact batched.fixed name old
  · exact fun name node has => (batched.nodes name node (has_removeNode.mp has).2).mono kept
  · exact fun name node has => batched.spreads name node (has_removeNode.mp has).2
  · intro full name node has product B matrix second held
    have old := (has_removeNode.mp has).2
    obtain ⟨_, _, _, _, reads, _, _, found, _⟩ := (batched.nodes name node old).product product
    have there := second
    rw [reads] at there
    cases there
    cases (kept _ _ found).symm.trans held
    exact batched.whole full name node old product _ _ second found

theorem fuse (batched : Batched model varies whole) (fit : Optimizable model rank) (step : Fuses model next) :
    Batched next varies whole := by
  obtain ⟨producer, target, gemm, relu, output, pair, nodes, ends, same⟩ := step.pair fit
  have starts : next.graph.inputs = model.graph.inputs := by
    obtain ⟨walk, found, fusion⟩ := step
    exact inputs_removeNode
  have product := batched.nodes _ _ pair.source
  rw [Node.RowWise, pair.isGemm] at product
  refine ⟨by rw [starts]; exact batched.request, by rw [ends]; exact batched.output, by rw [same]; exact batched.fixed,
    fun name node has => ?_, fun name node has shown written => ?_, fun full name node has isProduct => ?_⟩
  · rw [nodes] at has
    rw [same]
    by_cases first : name = producer
    · subst first
      obtain rfl := (fused_producer pair).mp has
      exact product
    · exact batched.nodes name node ((fused_other first).mp has).2
  · rw [nodes] at has
    by_cases first : name = producer
    · subst first
      obtain rfl := (fused_producer pair).mp has
      have hidden : varies output ↔ _ :=
        batched.spreads _ _ pair.source output (by rw [pair.written]; exact List.mem_cons_self)
      have activated : varies shown ↔ _ := batched.spreads _ _ pair.sink shown written
      simp only [rowOperands, pair.isRelu, pair.read, List.take_succ_cons, List.take_zero, List.forall_mem_singleton, ne_eq,
        List.cons_ne_nil, not_false_eq_true, true_and] at activated
      rw [activated, hidden, rowOperands, rowOperands, pair.isGemm]
      rfl
    · exact batched.spreads name node ((fused_other first).mp has).2 shown written
  · rw [nodes] at has
    rw [same]
    by_cases first : name = producer
    · subst first
      obtain rfl := (fused_producer pair).mp has
      exact fun B matrix second held => batched.whole full _ gemm pair.source (.inl pair.isGemm) B matrix second held
    · exact batched.whole full name node ((fused_other first).mp has).2 isProduct

theorem rewrites [Scalar F] {provider : Provider} (batched : Batched model varies whole) (fit : Optimizable model rank)
    (steps : Relation.ReflTransGen (Rewrite provider) model next) : Batched next varies whole ∧ Optimizable next rank := by
  induction steps with
  | refl => exact ⟨batched, fit⟩
  | tail _ step ih =>
    obtain ⟨batched, fit⟩ := ih
    refine ⟨?_, step.optimizable fit⟩
    cases step with
    | fuse walk found fusion => exact batched.fuse fit (.step walk found fusion)
    | fold walk threads found isConstant computed => exact batched.fold fit.wellFormed.once walk found isConstant _
    | eliminate walk found isDead => exact batched.eliminate (.step walk found isDead)

end Batched
end FromScratch.Inference
