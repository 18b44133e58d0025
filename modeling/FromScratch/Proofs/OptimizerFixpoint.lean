import FromScratch.Proofs.OptimizerInvariant
import FromScratch.Proofs.Sketches

/-! Whether a second run of the optimizer finds anything. Eliminating the dead
readers of a `Gemm` may leave it a `Relu` alone, and that is all a second run can
find: whether it does can be told from the model before the first. -/

namespace FromScratch.Inference.GraphOptimizer
open Graph
open Lib (FiniteMap)
open Relation (ReflTransGen TransGen)

variable {F : Type}

/-- A graph output is made of what the node writes. -/
inductive Live (held : Text → Node F → Prop) (ends : List Text) : Text → Prop
  | shown {name output : Text} {node : Node F} (has : held name node) (written : output ∈ node.outputs)
      (shown : output ∈ ends) :
      Live held ends name
  | read {name output reader : Text} {node other : Node F} (has : held name node) (written : output ∈ node.outputs)
      (found : held reader other) (reads : output ∈ other.inputs) (live : Live held ends reader) : Live held ends name

/-- A `Gemm` with a dead reader, whose only live reader is a `Relu`. -/
structure Exposure (held : Text → Node F → Prop) (ends : List Text) (producer target idle : Text) (gemm relu reader : Node F)
    (output : Text) : Prop where
  source : held producer gemm
  isGemm : gemm.opType = .gemm
  written : gemm.outputs = [output]
  hidden : output ∉ ends
  sink : held target relu
  isRelu : relu.opType = .relu
  read : relu.inputs = [output]
  live : Live held ends target
  alone : ∀ name node, held name node → output ∈ node.inputs → Live held ends name → name = target
  other : held idle reader
  reads : output ∈ reader.inputs
  dead : ¬Live held ends idle

def Exposed (held : Text → Node F → Prop) (ends : List Text) : Prop :=
  ∃ producer target idle gemm relu reader output, Exposure held ends producer target idle gemm relu reader output

/-- Nothing is exposed where each product has one reader. -/
theorem not_exposed {held : Text → Node F → Prop} {ends : List Text}
    (single : ∀ producer gemm, held producer gemm → gemm.opType = .gemm → ∀ output ∈ gemm.outputs, ∀ name node other reader,
      held name node → held other reader → output ∈ node.inputs → output ∈ reader.inputs → name = other) :
    ¬Exposed held ends := by
  rintro ⟨producer, target, idle, gemm, relu, reader, output, exposure⟩
  have written : output ∈ gemm.outputs := by
    rw [exposure.written]
    exact List.mem_cons_self
  have read : output ∈ relu.inputs := by
    rw [exposure.read]
    exact List.mem_cons_self
  have same := single producer gemm exposure.source exposure.isGemm output written target relu idle reader exposure.sink
    exposure.other read exposure.reads
  exact exposure.dead (same ▸ exposure.live)

theorem Live.held {held : Text → Node F → Prop} {ends : List Text} {name : Text} (live : Live held ends name) :
    ∃ node, held name node := by
  cases live with
  | shown has => exact ⟨_, has⟩
  | read has => exact ⟨_, has⟩

section Fusing
variable {model : Model F} {walk : FiniteMap.Traversal Text (NodeEntry F)} {producer target output name : Text}
    {gemm relu : Node F}

theorem Live.of_fused (pair : Pair model.graph producer target gemm relu output)
    (live : Live (Fused model.graph.Has producer target relu.outputs) model.graph.outputs name) :
    name ≠ target ∧ Live model.graph.Has model.graph.outputs name := by
  have through : Live model.graph.Has model.graph.outputs target → Live model.graph.Has model.graph.outputs producer :=
    .read pair.source (by rw [pair.written]; exact List.mem_cons_self) pair.sink
      (by rw [pair.read]; exact List.mem_cons_self)
  induction live with
  | @shown name _ node has written shown =>
    refine ⟨has.1, ?_⟩
    by_cases merged : name = producer
    · subst merged
      rw [fused_producer pair] at has
      subst has
      exact through (.shown pair.sink written shown)
    · exact .shown ((fused_other merged).mp has).2 written shown
  | @read name _ reader node other has written found reads _ ih =>
    refine ⟨has.1, ?_⟩
    obtain ⟨old, here, same⟩ := reads_fused found
    rw [same] at reads
    by_cases merged : name = producer
    · subst merged
      rw [fused_producer pair] at has
      subst has
      exact through (.read pair.sink written here reads ih.2)
    · exact .read ((fused_other merged).mp has).2 written here reads ih.2

theorem Live.fused (once : model.DefinedOnce) (pair : Pair model.graph producer target gemm relu output)
    (live : Live model.graph.Has model.graph.outputs name) :
    Live (Fused model.graph.Has producer target relu.outputs) model.graph.outputs (if name =
      target then producer else name) := by
  have joined : Fused model.graph.Has producer target relu.outputs producer (merged gemm relu.outputs) :=
    (fused_producer pair).mpr rfl
  induction live with
  | @shown name shownOutput node has written shown =>
    by_cases last : name = target
    · subst last
      rw [if_pos rfl]
      exact .shown joined (by rwa [has.unique pair.sink] at written) shown
    · rw [if_neg last]
      by_cases first : name = producer
      · subst first
        rw [has.unique pair.source, pair.written, List.mem_singleton] at written
        exact absurd (written ▸ shown) pair.hidden
      · exact .shown ((fused_other first).mpr ⟨last, has⟩) written shown
  | @read name readOutput reader node other has written found reads _ ih =>
    by_cases last : name = target
    · subst last
      rw [if_pos rfl]
      by_cases again : reader = name
      · rwa [if_pos again] at ih
      · rw [if_neg again] at ih
        obtain ⟨kept, there, same⟩ := @fused_reads F producer name reader model.graph relu.outputs other found again
        exact .read joined (by rwa [has.unique pair.sink] at written) there (same.symm ▸ reads) ih
    · rw [if_neg last]
      by_cases first : name = producer
      · subst first
        rw [has.unique pair.source, pair.written, List.mem_singleton] at written
        subst written
        rwa [if_pos (pair.alone reader other found reads)] at ih
      · by_cases again : reader = target
        · -- the fused `Relu` reads the `Gemm` only
          subst again
          rw [found.unique pair.sink, pair.read, List.mem_singleton] at reads
          subst reads
          exact absurd (once.nodes _ _ _ _ has pair.source _ written (by rw [pair.written]; exact List.mem_cons_self)) first
        · rw [if_neg again] at ih
          obtain ⟨kept, there, same⟩ := @fused_reads F producer target reader model.graph relu.outputs other found again
          exact .read ((fused_other first).mpr ⟨last, has⟩) written there (same.symm ▸ reads) ih

theorem live_fused (once : model.DefinedOnce) (pair : Pair model.graph producer target gemm relu output) :
    Live (Fused model.graph.Has producer target relu.outputs) model.graph.outputs name ↔
      name ≠ target ∧ Live model.graph.Has model.graph.outputs name := by
  constructor
  · exact Live.of_fused pair
  · rintro ⟨apart, live⟩
    have fused := live.fused once pair
    rwa [if_neg apart] at fused

/-- Fusing one pair exposes and hides no other. -/
theorem exposed_fused (once : model.DefinedOnce) (pair : Pair model.graph producer target gemm relu output) :
    Exposed (Fused model.graph.Has producer target relu.outputs) model.graph.outputs ↔
      Exposed model.graph.Has model.graph.outputs := by
  constructor
  · rintro ⟨first, second, idle, left, right, reader, shared, exposure⟩
    have firstApart : first ≠ producer := by
      rintro rfl
      have same := exposure.isGemm
      rw [(fused_producer pair).mp exposure.source] at same
      cases same
    have secondApart : second ≠ producer := by
      rintro rfl
      have same := exposure.isRelu
      rw [(fused_producer pair).mp exposure.sink] at same
      cases same
    have source := ((fused_other firstApart).mp exposure.source).2
    have written : shared ∈ left.outputs := by rw [exposure.written]; exact List.mem_cons_self
    obtain ⟨other, held, same⟩ := reads_fused exposure.other
    refine ⟨first, second, idle, left, right, other, shared, source, exposure.isGemm, exposure.written, exposure.hidden,
      ((fused_other secondApart).mp exposure.sink).2, exposure.isRelu, exposure.read,
        ((live_fused once pair).mp exposure.live).2, ?_,
      held, same ▸ exposure.reads, fun live => exposure.dead ((live_fused once pair).mpr ⟨exposure.other.1, live⟩)⟩
    intro name node has reads live
    by_cases gone : name = target
    · subst gone
      rw [has.unique pair.sink] at reads
      exact absurd (pair.reads_sink once source written reads) firstApart
    · obtain ⟨kept, there, same⟩ := @fused_reads F producer target name model.graph relu.outputs node has gone
      exact exposure.alone name kept there (same ▸ reads) ((live_fused once pair).mpr ⟨gone, live⟩)
  · rintro ⟨first, second, idle, left, right, reader, shared, exposure⟩
    have written : shared ∈ left.outputs := by rw [exposure.written]; exact List.mem_cons_self
    have firstApart : first ≠ producer := by
      rintro rfl
      have same := exposure.written
      rw [exposure.source.unique pair.source, pair.written] at same
      obtain ⟨rfl, _⟩ := List.cons.inj same
      have sink := pair.alone second right exposure.sink (by rw [exposure.read]; exact List.mem_cons_self)
      have unused := pair.alone idle reader exposure.other exposure.reads
      exact exposure.dead (unused.trans sink.symm ▸ exposure.live)
    have apart : ∀ name node, model.graph.Has name node → shared ∈ node.inputs → name ≠ target := by
      rintro name node has reads rfl
      rw [has.unique pair.sink] at reads
      exact firstApart (pair.reads_sink once exposure.source written reads)
    have firstOther : first ≠ target := by
      rintro rfl
      have same := exposure.isGemm
      rw [exposure.source.unique pair.sink, pair.isRelu] at same
      cases same
    have secondApart : second ≠ producer := by
      rintro rfl
      have same := exposure.isRelu
      rw [exposure.sink.unique pair.source, pair.isGemm] at same
      cases same
    have secondOther := apart second right exposure.sink (by rw [exposure.read]; exact List.mem_cons_self)
    have idleOther := apart idle reader exposure.other exposure.reads
    obtain ⟨kept, there, same⟩ :=
      @fused_reads F producer target idle model.graph relu.outputs reader exposure.other idleOther
    refine ⟨first, second, idle, left, right, kept, shared, (fused_other firstApart).mpr ⟨firstOther, exposure.source⟩,
      exposure.isGemm, exposure.written, exposure.hidden, (fused_other secondApart).mpr ⟨secondOther, exposure.sink⟩,
        exposure.isRelu,
      exposure.read, (live_fused once pair).mpr ⟨secondOther, exposure.live⟩, ?_, there, same.symm ▸ exposure.reads,
      fun live => exposure.dead ((live_fused once pair).mp live).2⟩
    intro name node has reads live
    obtain ⟨other, here, same⟩ := reads_fused has
    exact exposure.alone name other here (same ▸ reads) ((live_fused once pair).mp live).2

end Fusing

section Eliminating
variable {model next : Model F} {name : Text}

/-- A round of the elimination removes a node that is not live. -/
theorem Eliminates.live_iff (step : Eliminates model next) :
    Live next.graph.Has next.graph.outputs name ↔ Live model.graph.Has model.graph.outputs name := by
  obtain ⟨walk, found, isDead⟩ := step
  have unused := has_lookup found
  simp only [outputs_removeNode]
  constructor
  · intro live
    induction live with
    | shown has written shown => exact .shown (has_removeNode.mp has).2 written shown
    | read has written found reads _ ih => exact .read (has_removeNode.mp has).2 written (has_removeNode.mp found).2 reads ih
  · intro live
    induction live with
    | shown has written shown =>
      refine .shown (has_removeNode.mpr ⟨?_, has⟩) written shown
      rintro rfl
      rw [has.unique unused] at written
      exact (isDead _ written).1 shown
    | @read name output reader node other has written found reads _ ih =>
      refine .read (has_removeNode.mpr ⟨?_, has⟩) written ?_ reads ih
      · rintro rfl
        rw [has.unique unused] at written
        exact (isDead _ written).2 _ _ found reads
      · obtain ⟨_, still⟩ := ih.held
        exact has_removeNode.mpr ⟨(has_removeNode.mp still).1, found⟩

theorem Eliminates.not_live (step : Eliminates model next) {node : Node F} (has : model.graph.Has name node)
    (live : Live model.graph.Has model.graph.outputs name) : next.graph.Has name node := by
  obtain ⟨_, still⟩ := (step.live_iff.mpr live).held
  obtain ⟨walk, found, isDead⟩ := step
  exact has_removeNode.mpr ⟨(has_removeNode.mp still).1, has⟩

end Eliminating
section Passes
variable {model next result : Model F} {rank : Text → ℕ}

/-- Neither fusing nor eliminating makes a node constant. -/
def Varying (model : Model F) : Prop := ∀ name node, model.graph.Has name node → constant model node = false

theorem constant_congr {other : Model F} (same : other.initializers = model.initializers) (node : Node F) :
    constant other node = constant model node := by
  simp only [constant, Model.hasInitializer, same]

theorem Fuses.varying (fit : Optimizable model rank) (step : Fuses model next) (varying : Varying model) : Varying next := by
  obtain ⟨producer, target, gemm, relu, output, pair, nodes, _, same⟩ := step.pair fit
  intro name node has
  rw [nodes] at has
  rw [constant_congr same]
  by_cases merged : name = producer
  · subst merged
    rw [(fused_producer pair).mp has]
    have former := varying _ _ pair.source
    rw [Bool.eq_false_iff] at former ⊢
    refine fun all => former ?_
    simp only [constant, Bool.and_eq_true] at all ⊢
    refine ⟨⟨⟨?_, ?_⟩, all.1.2⟩, all.2⟩
    · rw [pair.written]
      rfl
    · rw [pair.isGemm]
      rfl
  · exact varying _ _ ((fused_other merged).mp has).2

/-- What a whole fusion pass leaves as it was. -/
theorem fuses_run (fit : Optimizable model rank) (varying : Varying model) (steps : ReflTransGen Fuses model result) :
    Optimizable result rank ∧ Varying result ∧ result.graph.outputs = model.graph.outputs ∧
      (Exposed result.graph.Has result.graph.outputs ↔ Exposed model.graph.Has model.graph.outputs) := by
  induction steps with
  | refl => exact ⟨fit, varying, rfl, Iff.rfl⟩
  | tail _ step ih =>
    obtain ⟨fit, varying, ends, exposed⟩ := ih
    obtain ⟨producer, target, gemm, relu, output, pair, nodes, same, _⟩ := step.pair fit
    refine ⟨step.optimizable fit, step.varying fit varying, same.trans ends, ?_⟩
    rw [nodes, same, exposed_fused fit.wellFormed.once pair, exposed]

/-- What a whole elimination pass leaves. -/
theorem eliminates_run (fit : Optimizable model rank) (varying : Varying model)
    (steps : ReflTransGen Eliminates model result) :
    Optimizable result rank ∧ Varying result ∧ result.graph.outputs = model.graph.outputs ∧
      (∀ name, Live result.graph.Has result.graph.outputs name ↔ Live model.graph.Has model.graph.outputs name) ∧
      (∀ name node, result.graph.Has name node → model.graph.Has name node) ∧
      ∀ name node, model.graph.Has name node → Live model.graph.Has model.graph.outputs name →
        result.graph.Has name node := by
  induction steps with
  | refl => exact ⟨fit, varying, rfl, fun _ => Iff.rfl, fun _ _ => id, fun _ _ has _ => has⟩
  | tail _ step ih =>
    obtain ⟨fit, varying, ends, live, fewer, rest⟩ := ih
    have lives := fun name => (@Eliminates.live_iff F _ _ name step).trans (live name)
    have stays : ∀ name node, model.graph.Has name node → Live model.graph.Has model.graph.outputs name → _ :=
      fun name node has alive => step.not_live (rest name node has alive) ((live name).mpr alive)
    obtain ⟨walk, found, isDead⟩ := step
    refine ⟨fit.removeNode walk (has_lookup found).mem, fun name node has => ?_, outputs_removeNode.trans ends, lives,
      fun name node has => fewer name node (has_removeNode.mp has).2, stays⟩
    exact varying name node (has_removeNode.mp has).2

/-- Where no node is dead, all are live: the rank falls along the readers. -/
theorem Busy.live {graph : Graph F} (busy : Busy graph) (falls : Falls graph rank) {name : Text} {node : Node F}
    (has : graph.Has name node) : Live graph.Has graph.outputs name := by
  induction bound : rank name using Nat.strong_induction_on generalizing name node with
  | _ height ih =>
    have used := busy name node has
    simp only [Dead, not_forall, not_and_or, not_not] at used
    obtain ⟨output, written, shown | ⟨reader, other, found, reads⟩⟩ := used
    · exact .shown has written shown
    · have less := falls _ _ _ _ output has found written reads
      exact .read has written found reads (ih (rank reader) (bound ▸ less) found rfl)

/-- After the elimination the fusion finds a pair exactly if one was exposed. -/
theorem pair_iff_exposed (fit : Optimizable model rank) (varying : Varying model)
    (steps : ReflTransGen Eliminates model result)
    (busy : Busy result.graph)
    (unpaired : ∀ producer target gemm relu output, ¬Pair model.graph producer target gemm relu output) :
    (∃ producer target gemm relu output, Pair result.graph producer target gemm relu output) ↔
      Exposed model.graph.Has model.graph.outputs := by
  obtain ⟨fitResult, _, ends, live, fewer, stays⟩ := eliminates_run fit varying steps
  have alive : ∀ name node, result.graph.Has name node → Live model.graph.Has model.graph.outputs name :=
    fun name node has => (live name).mp (busy.live fitResult.falls has)
  constructor
  · rintro ⟨producer, target, gemm, relu, output, pair⟩
    have source := fewer _ _ pair.source
    have sink := fewer _ _ pair.sink
    have hidden : output ∉ model.graph.outputs := ends ▸ pair.hidden
    obtain ⟨idle, reader, found, reads, different⟩ : ∃ idle reader, model.graph.Has idle reader ∧
      output ∈ reader.inputs ∧ idle ≠ target := by
      by_contra none
      refine unpaired producer target gemm relu output ⟨source, pair.isGemm, pair.written, hidden, sink, pair.isRelu,
        pair.read, ?_⟩
      intro name node has reads
      by_contra different
      exact none ⟨name, node, has, reads, different⟩
    refine ⟨producer, target, idle, gemm, relu, reader, output, source, pair.isGemm, pair.written, hidden, sink,
      pair.isRelu, pair.read,
      alive _ _ pair.sink, ?_, found, reads, ?_⟩
    · exact fun name node has reads lives => pair.alone name node (stays name node has lives) reads
    · exact fun lives => different (pair.alone idle reader (stays idle reader found lives) reads)
  · rintro ⟨producer, target, idle, gemm, relu, reader, output, exposure⟩
    have written : output ∈ gemm.outputs := by rw [exposure.written]; exact List.mem_cons_self
    have reads : output ∈ relu.inputs := by rw [exposure.read]; exact List.mem_cons_self
    refine ⟨producer, target, gemm, relu, output, ?_, exposure.isGemm, exposure.written, ends ▸ exposure.hidden,
      stays _ _ exposure.sink exposure.live, exposure.isRelu, exposure.read, ?_⟩
    · exact stays _ _ exposure.source (.read exposure.source written exposure.sink reads exposure.live)
    · exact fun name node has reads => exposure.alone name node (fewer _ _ has) reads (alive name node has)

end Passes
/-- The tensors whose values folding makes initializers. -/
inductive Known (model : Model F) : Text → Prop
  | initializer {name : Text} (present : name ∈ model.initializers) : Known model name
  | node {owner output : Text} {node : Node F} (has : model.graph.Has owner node) (single : node.outputs = [output])
      (supported : Provider.supports node.opType = true) (reads : node.inputs ≠ [])
        (inputs : ∀ input ∈ node.inputs, Known model input) :
      Known model output

/-- The node is folded. -/
def Folded (model : Model F) (node : Node F) : Prop :=
  (∃ output, node.outputs = [output]) ∧ Provider.supports node.opType = true ∧ node.inputs ≠ [] ∧
    ∀ input ∈ node.inputs, Known model input

section Folding
variable [Scalar F] {provider : Provider} {model current result : Model F} {removed : List (Node F)} {rank : Text → ℕ}

/-- The nodes that are removed are the ones whose inputs are known. -/
theorem Folds.folded (folds : Folds provider current removed result)
    (nodes : ∀ name node, current.graph.Has name node → model.graph.Has name node)
    (known : ∀ name, name ∈ current.initializers → Known model name) : ∀ node ∈ removed, Folded model node := by
  induction folds with
  | done => exact nofun
  | @round current result removed walk threads candidate output found isConstant computed rest ih =>
    obtain ⟨⟨written, single⟩, supported, reads, present⟩ := (constant_iff _).mp isConstant
    have folded : Folded model candidate.node :=
      ⟨⟨written, single⟩, supported, reads, fun input member => known input (present input member)⟩
    refine List.forall_mem_cons.mpr ⟨folded, ih (fun name node has => nodes name node (has_removeNode.mp has).2) ?_⟩
    intro name member
    rw [single] at member
    rcases (AList.mem_insert _).mp member with rfl | old
    · exact .node (nodes _ _ (has_lookup found)) single supported reads folded.2.2.2
    · exact known name old

/-- An initializer stays one, and the output of a removed node becomes one. -/
theorem Folds.stored (folds : Folds provider current removed result) :
    (∀ name ∈ current.initializers, name ∈ result.initializers) ∧
    ∀ node ∈ removed, ∀ output, node.outputs = [output] → output ∈ result.initializers := by
  induction folds with
  | done => exact ⟨fun _ => id, nofun⟩
  | @round current result removed walk threads candidate output found isConstant computed rest ih =>
    obtain ⟨grows, stored⟩ := ih
    refine ⟨fun name member => grows name ((AList.mem_insert _).mpr (.inr member)),
      List.forall_mem_cons.mpr ⟨fun name single => grows name ((AList.mem_insert _).mpr (.inl ?_)), stored⟩⟩
    rw [single]
    rfl

/-- What has become an initializer is known. -/
theorem Folds.known (folds : Folds provider current removed result)
    (nodes : ∀ name node, current.graph.Has name node → model.graph.Has name node)
    (known : ∀ name, name ∈ current.initializers → Known model name) :
    ∀ name, name ∈ result.initializers → Known model name := by
  induction folds with
  | done => exact known
  | @round current result removed walk threads candidate output found isConstant computed rest ih =>
    obtain ⟨⟨written, single⟩, supported, reads, present⟩ := (constant_iff _).mp isConstant
    refine ih (fun name node has => nodes name node (has_removeNode.mp has).2) fun name member => ?_
    rw [single] at member
    rcases (AList.mem_insert _).mp member with rfl | old
    · exact .node (nodes _ _ (has_lookup found)) single supported reads fun input member => known input (present input member)
    · exact known name old

/-- All that is known becomes an initializer. -/
theorem Folds.complete (folds : Folds provider model removed result) (kept : model.graph.Kept) (varying : Varying result)
    {name : Text} (known : Known model name) : name ∈ result.initializers := by
  have stored := folds.stored
  induction known with
  | initializer present => exact stored.1 _ present
  | @node owner output node has single supported reads _ ih =>
    by_cases gone : node ∈ removed
    · exact stored.2 node gone output single
    · have still := (folds.has kept).mpr ⟨has, gone⟩
      have isConstant := (constant_iff node).mpr ⟨⟨output, single⟩, supported, reads, ih⟩
      rw [varying _ _ still] at isConstant
      cases isConstant

/-- Folding removes exactly the nodes whose inputs are known. -/
theorem Folds.has_iff (folds : Folds provider model removed result) (kept : model.graph.Kept) (varying : Varying result) :
    result.graph.Has = fun name node => model.graph.Has name node ∧ ¬Folded model node := by
  funext name node
  refine propext ((folds.has kept).trans (and_congr_right fun has => not_congr ⟨fun gone => ?_, fun folded => ?_⟩))
  · exact folds.folded (fun _ _ => id) (fun name => .initializer) node gone
  · by_contra stays
    have isConstant := (constant_iff node).mpr ⟨folded.1, folded.2.1, folded.2.2.1,
      fun input member => folds.complete kept varying (folded.2.2.2 input member)⟩
    rw [varying _ _ ((folds.has kept).mpr ⟨has, stays⟩)] at isConstant
    cases isConstant

theorem Folds.outputs (folds : Folds provider model removed result) : result.graph.outputs = model.graph.outputs := by
  induction folds with
  | done => rfl
  | round walk threads found isConstant computed rest ih => exact ih.trans outputs_removeNode

end Folding

section Idle
variable [Scalar F] {provider : Provider} {platform : Platform F} {model result : Model F} {fuel : Nat}

theorem foldConstants_idle (kept : model.graph.Kept) (varying : Varying model) :
    foldConstants platform provider (fuel + 1) model = .ok (model, 0) := by
  obtain ⟨nodes, listed, _, each⟩ := nodes_of_kept kept
  have nothing : (nodes.find? fun entry => constant model entry.node) = none := by
    refine List.find?_eq_none.mpr fun entry member => Bool.eq_false_iff.mp (varying _ _ (has_lookup (each entry member)))
  rw [foldConstants, listed]
  simp only [bind, Except.bind, nothing]
  rfl

theorem foldConstants_zero (ran : foldConstants platform provider fuel model = .ok (result, 0)) : result = model := by
  cases fuel with
  | zero => cases ran
  | succ fuel =>
    obtain ⟨nodes, _, ran⟩ := Lib.bind_ok ran
    split at ran
    next =>
      cases ran
      rfl
    next candidate _ =>
      obtain ⟨_, _, ran⟩ := Lib.bind_ok ran
      obtain ⟨_, _, last⟩ := Lib.bind_ok ran
      cases last

omit [Scalar F] in
theorem fuseActivations_idle (kept : model.graph.Kept)
    (nothing : ∀ name entry, model.graph.nodeMap.lookup name = some entry → fusible model.graph entry = .ok none) :
    fuseActivations platform (fuel + 1) model = .ok (model, 0) := by
  obtain ⟨nodes, listed, _, each⟩ := nodes_of_kept kept
  have searched : ∀ items : List (NodeEntry F), (∀ entry ∈ items, entry ∈ nodes) →
      items.findSomeM? (fusible model.graph) = .ok (none : Option (NodeEntry F × NodeEntry F)) := by
    intro items
    induction items with
    | nil => exact fun _ => rfl
    | cons entry items ih =>
      intro inside
      obtain ⟨here, others⟩ := List.forall_mem_cons.mp inside
      rw [List.findSomeM?_cons, nothing _ entry (each entry here)]
      exact ih others
  rw [fuseActivations, listed]
  simp only [bind, Except.bind, searched nodes fun _ => id]
  rfl

omit [Scalar F] in
theorem fuseActivations_zero (kept : model.graph.Kept) (ran : fuseActivations platform fuel model = .ok (result, 0)) :
    ∀ name entry, model.graph.nodeMap.lookup name = some entry → fusible model.graph entry = .ok none := by
  cases fuel with
  | zero => cases ran
  | succ fuel =>
    obtain ⟨nodes, listed, ran⟩ := Lib.bind_ok ran
    obtain ⟨choice, searched, ran⟩ := Lib.bind_ok ran
    cases choice with
    | none => exact fun name entry found => findSomeM?_none searched entry (mem_listed kept listed found)
    | some pair =>
      obtain ⟨_, _, last⟩ := Lib.bind_ok ran
      cases last

omit [Scalar F] in
theorem eliminateDeadNodes_idle (kept : model.graph.Kept) (busy : Busy model.graph) :
    eliminateDeadNodes platform (fuel + 1) model = .ok (model, 0) := by
  obtain ⟨nodes, listed, _, each⟩ := nodes_of_kept kept
  have nothing : (nodes.find? fun entry => dead model.graph nodes entry.node) = none := by
    refine List.find?_eq_none.mpr fun entry member => ?_
    rw [dead_iff kept listed]
    exact busy _ _ (has_lookup (each entry member))
  rw [eliminateDeadNodes, listed]
  simp only [bind, Except.bind, nothing]
  rfl

end Idle

/-- Every pass switched on. -/
def everything : OptimizerOptions := ⟨true, true, true⟩

section Fixpoint
variable [Scalar F] {provider : Provider} {platform : Platform F} {model result : Model F} {report : OptimizationReport}
    {rank : Text → ℕ}

/-- A second run does nothing exactly if the fusion finds nothing. -/
theorem idle_iff (fit : Optimizable result rank) (varying : Varying result)
    (busy : Busy result.graph) (again : Platform F) :
    (∃ second, run everything again provider result = .ok (result, second) ∧ second.fusedActivations = 0 ∧
        second.foldedConstants = 0 ∧ second.eliminatedNodes = 0) ↔
      ¬∃ producer target gemm relu output, Pair result.graph producer target gemm relu output := by
  have kept := fit.wellFormed.kept
  constructor
  · rintro ⟨second, ran, fused, folded, _⟩ ⟨producer, target, gemm, relu, output, pair⟩
    obtain ⟨⟨first, folds⟩, fold, ran⟩ := Lib.bind_ok ran
    obtain ⟨⟨next, fuses⟩, fuse, ran⟩ := Lib.bind_ok ran
    obtain ⟨⟨last, eliminates⟩, _, done⟩ := Lib.bind_ok ran
    cases done
    change fuses = 0 at fused
    change folds = 0 at folded
    subst fused folded
    cases foldConstants_zero fold
    obtain ⟨entry, other, found, fusible⟩ := pair.fusible fit.wellFormed fit.counted
    cases (fuseActivations_zero kept fuse target entry found).symm.trans fusible
  · intro unpaired
    have nothing : ∀ name entry, result.graph.nodeMap.lookup name = some entry → fusible result.graph entry = .ok none := by
      intro name entry found
      have here := kept.named_lookup found ▸ found
      obtain ⟨choice, made⟩ := fusible_ok fit.wellFormed here
      cases choice with
      | none => exact made
      | some pair =>
        obtain ⟨rfl, fusion⟩ := fusible_some made
        obtain ⟨output, pair⟩ := fusion.pair fit.wellFormed here
        exact absurd ⟨_, _, _, _, output, pair⟩ unpaired
    refine ⟨⟨0, 0, 0, result.graph.nodeMap.keys.length, result.graph.nodeMap.keys.length⟩, ?_, rfl, rfl, rfl⟩
    have folded : pass everything.foldConstants (foldConstants again provider) result = .ok (result, 0) :=
      foldConstants_idle kept varying
    have fused : pass everything.fuseActivations (fuseActivations again) result = .ok (result, 0) :=
      fuseActivations_idle kept nothing
    have eliminated : pass everything.eliminateDeadNodes (eliminateDeadNodes again) result = .ok (result, 0) :=
      eliminateDeadNodes_idle kept busy
    rw [run, folded]
    change (pass everything.fuseActivations (fuseActivations again) result >>= fun fused => _) = _
    rw [fused]
    change (pass everything.eliminateDeadNodes (eliminateDeadNodes again) result >>= fun eliminated => _) = _
    rw [eliminated]
    rfl

/-- A second run does nothing exactly if no `Gemm` of the nodes that are not
folded is about to lose its dead readers to a `Relu`. -/
theorem Optimizable.idle_iff_exposed (fit : Optimizable model rank)
    (ran : run everything platform provider model = .ok (result, report))
    (again : Platform F) :
    (∃ second, run everything again provider result = .ok (result, second) ∧ second.fusedActivations = 0 ∧
        second.foldedConstants = 0 ∧ second.eliminatedNodes = 0) ↔
      ¬Exposed (fun name node => model.graph.Has name node ∧ ¬Folded model node) model.graph.outputs := by
  obtain ⟨⟨folded, _⟩, fold, ran⟩ := Lib.bind_ok ran
  obtain ⟨⟨fused, _⟩, fuse, ran⟩ := Lib.bind_ok ran
  obtain ⟨⟨eliminated, _⟩, eliminate, last⟩ := Lib.bind_ok ran
  cases last
  obtain ⟨removed, folds, _, varying⟩ := foldConstants_folds fit.wellFormed.kept fold
  have fitFolded := folds.optimizable fit
  obtain ⟨fuses, nothing⟩ := fuseActivations_fuses fitFolded.wellFormed.kept fuse
  obtain ⟨fitFused, varyingFused, _, exposed⟩ := fuses_run fitFolded varying fuses
  obtain ⟨eliminates, busy⟩ := eliminateDeadNodes_eliminates fitFused.wellFormed.kept eliminate
  obtain ⟨fitResult, varyingResult, _⟩ := eliminates_run fitFused varyingFused eliminates
  have unpaired : ∀ producer target gemm relu output, ¬Pair fused.graph producer target gemm relu output := by
    intro producer target gemm relu output pair
    obtain ⟨entry, other, found, fusible⟩ := pair.fusible fitFused.wellFormed fitFused.counted
    cases (nothing target entry found).symm.trans fusible
  rw [idle_iff fitResult varyingResult busy, pair_iff_exposed fitFused varyingFused eliminates busy unpaired, exposed,
    folds.has_iff fit.wellFormed.kept varying, folds.outputs]

end Fixpoint
/-- After a run of the optimizer a second one does nothing exactly if, among the
nodes that are not folded, there is no `Gemm` whose output has dead readers and one
live reader, a `Relu`. -/
theorem run_idle_iff [Scalar F] {model : Model F} (assembled : model.Assembled) (distinct : model.graph.insertionOrder.Nodup)
    (once : model.DefinedOnce) (acyclic : model.graph.Acyclic) {provider : Provider} {platform : Platform F}
    {result : Model F}
    {report : OptimizationReport} (ran : run everything platform provider model = .ok (result, report))
    (again : Platform F) :
    (∃ second, run everything again provider result = .ok (result, second) ∧ second.fusedActivations = 0 ∧
        second.foldedConstants = 0 ∧ second.eliminatedNodes = 0) ↔
      ¬Exposed (fun name node => model.graph.Has name node ∧ ¬Folded model node) model.graph.outputs := by
  obtain ⟨rank, fit⟩ := Optimizable.of_assembled assembled distinct once acyclic
  exact fit.idle_iff_exposed ran again

section Chain

theorem run_idle_iff_chain : ∃ result report second,
    run everything plainPlatform ⟨.auto⟩ chain.model = .ok (result, report) ∧ report.foldedConstants = 1 ∧
      report.fusedActivations = 1 ∧ report.eliminatedNodes = 1 ∧
      run everything plainPlatform ⟨.auto⟩ result = .ok (result, second) ∧ second.fusedActivations = 0 ∧
      second.foldedConstants = 0 ∧ second.eliminatedNodes = 0 := by
  obtain ⟨result, report, ran, folded, fused, eliminated⟩ : ∃ result report,
      run everything plainPlatform ⟨.auto⟩ chain.model = .ok (result, report) ∧ report.foldedConstants = 1 ∧
        report.fusedActivations = 1 ∧ report.eliminatedNodes = 1 := ⟨_, _, rfl, rfl, rfl, rfl⟩
  have single : ∀ gemm ∈ chain.nodes, gemm.node.opType = .gemm → ∀ output ∈ gemm.node.outputs,
      ∀ first ∈ chain.nodes, ∀ second ∈ chain.nodes, output ∈ first.node.inputs → output ∈ second.node.inputs →
        text first.name = text second.name := by
    decide +kernel
  obtain ⟨second, again, nothing⟩ := (run_idle_iff chain.assembled (by decide +kernel)
    (chain.definedOnce (by decide +kernel)) (chain.acyclic (by decide +kernel)) ran plainPlatform).mpr <| by
      refine not_exposed fun producer gemm source product output written name node other reader here there reads shares => ?_
      obtain ⟨gemm, member, _, rfl⟩ := ModelSketch.has_model source.1
      obtain ⟨first, inside, rfl, rfl⟩ := ModelSketch.has_model here.1
      obtain ⟨last, within, rfl, rfl⟩ := ModelSketch.has_model there.1
      exact single gemm member product output written first inside last within reads shares
  exact ⟨result, report, second, ran, folded, fused, eliminated, again, nothing⟩

end Chain

section Branching

/-- A product that is read by a `Relu` and by a node nobody needs. -/
def branching : ModelSketch where
  nodes := [⟨"g", "Gemm", ["x", "w"], ["t"]⟩, ⟨"r", "Relu", ["t"], ["y"]⟩, ⟨"d", "Relu", ["t"], ["z"]⟩]
  initializers := [("w", unitTensor)]
  inputs := ["x"]
  outputs := ["y"]

/-- The first run eliminates the second reader, and the second run fuses. -/
theorem run_of_branching : (branching.model.Assembled ∧ branching.model.graph.insertionOrder.Nodup ∧
    branching.model.DefinedOnce ∧
      branching.model.graph.Acyclic) ∧
    ∃ result report again second, run everything plainPlatform ⟨.auto⟩ branching.model = .ok (result, report) ∧
      report.fusedActivations = 0 ∧ report.eliminatedNodes = 1 ∧
      run everything plainPlatform ⟨.auto⟩ result = .ok (again, second) ∧ second.fusedActivations = 1 :=
  ⟨⟨branching.assembled, by decide +kernel, branching.definedOnce (by decide +kernel),
      branching.acyclic (by decide +kernel)⟩,
    _, _, _, _, rfl, rfl, rfl, rfl, rfl⟩

end Branching
end FromScratch.Inference.GraphOptimizer
