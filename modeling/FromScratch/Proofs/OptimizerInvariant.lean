import FromScratch.Lib.Acyclic
import FromScratch.Proofs.FusiblePairs

/-! The models the passes work on: well formed, with as many edges as the names say,
and a rank that falls from a node to those that read it. Every round of a pass
leaves such a model. -/

namespace FromScratch.Inference.GraphOptimizer
open Graph
open Lib (FiniteMap)

variable {F : Type}

section Fusing
variable {model : Model F} {producer target output name : Text} {gemm relu : Node F}

/-- The nodes when one pair of them has been fused. -/
def Fused (held : Text → Node F → Prop) (producer target : Text) (outputs : List Text) (name : Text) (node : Node F) : Prop :=
  name ≠ target ∧ ∃ old, held name old ∧ node = if name = producer then merged old outputs else old

theorem fused_other {graph : Graph F} {outputs : List Text} {node : Node F} (apart : name ≠ producer) :
    Fused graph.Has producer target outputs name node ↔ name ≠ target ∧ graph.Has name node := by
  simp only [Fused, if_neg apart, exists_eq_right']

theorem fused_producer (pair : Pair model.graph producer target gemm relu output) {node : Node F} :
    Fused model.graph.Has producer target relu.outputs producer node ↔ node = merged gemm relu.outputs := by
  constructor
  · rintro ⟨_, old, has, rfl⟩
    rw [if_pos rfl, has.unique pair.source]
  · rintro rfl
    exact ⟨pair.apart, gemm, pair.source, (if_pos rfl).symm⟩

/-- The reader stays, with its inputs. -/
theorem fused_reads {graph : Graph F} {outputs : List Text} {node : Node F} (has : graph.Has name node)
    (apart : name ≠ target) :
    ∃ other, Fused graph.Has producer target outputs name other ∧ other.inputs = node.inputs := by
  refine ⟨_, ⟨apart, node, has, rfl⟩, ?_⟩
  split <;> rfl

theorem reads_fused {graph : Graph F} {outputs : List Text} {node : Node F}
    (has : Fused graph.Has producer target outputs name node) :
    ∃ other, graph.Has name other ∧ node.inputs = other.inputs := by
  obtain ⟨_, old, here, rfl⟩ := has
  refine ⟨old, here, ?_⟩
  split <;> rfl

/-- Nobody but the `Relu` of a pair reads the output of its `Gemm`, and the `Relu` reads nothing else. -/
theorem Pair.reads_sink (once : model.DefinedOnce) (pair : Pair model.graph producer target gemm relu output) {writer : Text}
    {node : Node F} {other : Text} (has : model.graph.Has writer node) (written : other ∈ node.outputs)
    (reads : other ∈ relu.inputs) :
    writer = producer := by
  rw [pair.read, List.mem_singleton] at reads
  subst reads
  exact once.nodes _ _ _ _ has pair.source _ written (by rw [pair.written]; exact List.mem_cons_self)

end Fusing

/-- The rank falls from a node to the nodes that read it. -/
def Falls (graph : Graph F) (rank : Text → ℕ) : Prop :=
  ∀ name writer other reader output, graph.Has name writer → graph.Has other reader → output ∈ writer.outputs →
    output ∈ reader.inputs → rank other < rank name

theorem exists_falls {graph : Graph F} (acyclic : graph.Acyclic) : ∃ rank, Falls graph rank := by
  have inside : ∀ first last, Feeds (stored graph.nodeMap) (first, last) → last ∈ graph.nodeMap.keys.toFinset := by
    rintro first last ⟨_, target, _, to_, _⟩
    exact List.mem_toFinset.mpr (AList.mem_keys.mp (Has.mem ⟨target.1, to_⟩))
  obtain ⟨rank, falls, _⟩ := Lib.Acyclic.exists_rank _ inside acyclic
  refine ⟨rank, fun name writer other reader output has found written reads => ?_⟩
  exact falls name other ((feeds_has has found).mpr ⟨output, written, reads⟩)

/-- What the passes preserve. -/
structure Optimizable (model : Model F) (rank : Text → ℕ) : Prop where
  wellFormed : model.WellFormed
  counted : model.graph.Counted
  falls : Falls model.graph rank

theorem Optimizable.of_assembled {model : Model F} (assembled : model.Assembled)
    (distinct : model.graph.insertionOrder.Nodup)
    (once : model.DefinedOnce) (acyclic : model.graph.Acyclic) : ∃ rank, Optimizable model rank := by
  obtain ⟨rank, falls⟩ := exists_falls acyclic
  refine ⟨rank, ⟨assembled.kept, distinct, assembled.wired distinct, once, ?_⟩, assembled.counted distinct, falls⟩
  intro name node has output written reads
  exact absurd (.single ((feeds_has has has).mpr ⟨output, written, reads⟩)) (acyclic name)

section Rounds
variable {model next result : Model F} {rank : Text → ℕ}

theorem Optimizable.removeNode (fit : Optimizable model rank) (walk : FiniteMap.Traversal Text (NodeEntry F))
    {removed : Text}
    (present : removed ∈ model.graph.nodeMap) :
    Optimizable { model with graph := model.graph.removeNode walk removed } rank where
  wellFormed := removeNode_wellFormed fit.wellFormed present
  counted := Counted.removeNode fit.wellFormed.kept (fun absent => absurd present absent) (fit.wellFormed.distinct.filter _)
  falls name writer other reader output has found := fit.falls name writer other reader output (has_removeNode.mp has).2
    (has_removeNode.mp found).2

theorem Fuses.pair (fit : Optimizable model rank) (step : Fuses model next) : ∃ producer target gemm relu output,
    Pair model.graph producer target gemm relu output ∧ next.graph.Has = Fused model.graph.Has producer target relu.outputs ∧
      next.graph.outputs = model.graph.outputs ∧ next.initializers = model.initializers := by
  obtain ⟨walk, found, fusion⟩ := step
  obtain ⟨output, pair⟩ := fusion.pair fit.wellFormed found
  refine ⟨_, _, _, _, output, pair, ?_, ?_, rfl⟩
  · funext name node
    exact propext has_fuse
  · exact outputs_removeNode

theorem Fuses.falls (fit : Optimizable model rank) (step : Fuses model next) : ∀ name writer other reader output,
    next.graph.Has name writer → next.graph.Has other reader → output ∈ writer.outputs → output ∈ reader.inputs →
      rank other < rank name := by
  obtain ⟨producer, target, gemm, relu, output, pair, nodes, _⟩ := step.pair fit
  rw [nodes]
  intro name writer other reader shared has there written reads
  obtain ⟨old, here, same⟩ := reads_fused there
  rw [same] at reads
  by_cases merged : name = producer
  · subst merged
    rw [(fused_producer pair).mp has] at written
    have below := fit.falls _ _ _ _ shared pair.sink here written reads
    refine below.trans (fit.falls _ _ _ _ output pair.source pair.sink ?_ ?_)
    · rw [pair.written]
      exact List.mem_cons_self
    · rw [pair.read]
      exact List.mem_cons_self
  · exact fit.falls _ _ _ _ shared ((fused_other merged).mp has).2 here written reads

theorem Fuses.optimizable (fit : Optimizable model rank) (step : Fuses model next) : Optimizable next rank := by
  have falls := step.falls fit
  cases step with
  | @step walk target producer found fusion =>
    refine ⟨fuse_wellFormed fit.wellFormed found, ?_, falls⟩
    have kept := (fit.wellFormed.kept.edit producer.node.name (.opType .gemmRelu)).edit producer.node.name
      (.outputs target.node.outputs)
    rw [edit_edit] at kept
    refine Counted.removeNode kept (fun absent => absurd ?_ absent) (fit.wellFormed.distinct.filter _)
    exact (FiniteMap.mem_adjust _ _ _ _).mpr (has_lookup found).mem

theorem Optimizable.fold (fit : Optimizable model rank) (walk : FiniteMap.Traversal Text (NodeEntry F))
    {candidate : NodeEntry F}
    (found : model.graph.nodeMap.lookup candidate.node.name = some candidate)
    (isConstant : constant model candidate.node = true)
    (value : Tensor F) : Optimizable { model.addInitializer (candidate.node.outputs.headD []) value with
      graph := model.graph.removeNode walk candidate.node.name } rank :=
  have next := fit.removeNode walk (has_lookup found).mem
  ⟨fold_wellFormed fit.wellFormed found isConstant, next.counted, next.falls⟩

theorem Folds.optimizable [Scalar F] {provider : Provider} {removed : List (Node F)} (fit : Optimizable model rank)
    (folds : Folds provider model removed result) : Optimizable result rank := by
  induction folds with
  | done => exact fit
  | @round model result removed walk threads candidate output found isConstant computed rest ih =>
    exact ih (fit.fold walk found isConstant output)

theorem Rewrite.optimizable [Scalar F] {provider : Provider} (fit : Optimizable model rank)
    (rewrite : Rewrite provider model next) :
    Optimizable next rank := by
  cases rewrite with
  | fuse walk found fusion => exact Fuses.optimizable fit (.step walk found fusion)
  | fold walk threads found isConstant computed => exact fit.fold walk found isConstant _
  | eliminate walk found isDead => exact fit.removeNode walk (has_lookup found).mem

end Rounds
end FromScratch.Inference.GraphOptimizer
