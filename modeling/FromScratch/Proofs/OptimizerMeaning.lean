import FromScratch.Proofs.OptimizerInvariant
import FromScratch.Proofs.RunValues
import FromScratch.Proofs.ScheduleShape

/-! The optimizer preserves what a model means. The values of a run of the model as
it was given are the values of every model the passes make of it, and those models
are accepted and return the same tensor. -/

namespace FromScratch.Inference
open Lib (FiniteMap)
open Graph

variable {F : Type} [Scalar F]

section Kernels
variable {provider : Provider} {node relu : Node F} {inputs : List (Tensor F)} {first second : Tensor F}

omit [Scalar F] in
theorem relu_table (d : Dims) (value : Nat → Nat → F) (act : F → F) :
    Gemm.table d (fun i j => act (value i j)) = (Gemm.table d value).map act := by
  simp only [Gemm.table, List.map_map, Function.comp_def]

/-- With the activation fused in, the same product is followed by it. -/
theorem compute_fused {A B bias : Tensor F} {params : GemmParams F} {strategy : GemmStrategy} {threads : Gemm.Threads F}
    (plain : params.fuseRelu = false) (made : Gemm.compute A B bias Tensor.empty params strategy threads = .ok first)
    (shaped : second.shape = first.shape) (acted : second.data = first.data.map (Scalar.max Scalar.zero)) :
    Gemm.compute A B bias Tensor.empty { params with fuseRelu := true } strategy threads = .ok second := by
  obtain ⟨_, accepted, rest⟩ := Lib.bind_ok made
  obtain ⟨d, dims, _⟩ := Lib.bind_ok rest
  obtain ⟨defined, shape, data⟩ := (Gemm.compute_ok_iff accepted dims).mp made
  have acceptedFused : Gemm.validate A B bias { params with fuseRelu := true } = .ok () := accepted
  have dimsFused : Gemm.resolveDims A B { params with fuseRelu := true } = .ok d := dims
  refine (Gemm.compute_ok_iff acceptedFused dimsFused).mpr ⟨⟨defined.fits, defined.ends, defined.ready⟩,
    shaped.trans shape, ?_⟩
  rw [acted, data, ← relu_table]
  simp only [Gemm.finish, plain]
  rfl

theorem gemmParams_merged (node : Node F) (outputs : List Text) {params : GemmParams F}
    (found : Provider.gemmParams node false = .ok params) :
    params.fuseRelu = false ∧ Provider.gemmParams (GraphOptimizer.merged node outputs) true =
      .ok { params with fuseRelu := true } := by
  obtain ⟨transA, first, found⟩ := Lib.bind_ok found
  obtain ⟨transB, second, found⟩ := Lib.bind_ok found
  obtain ⟨alpha, third, found⟩ := Lib.bind_ok found
  obtain ⟨beta, fourth, found⟩ := Lib.bind_ok found
  cases found
  refine ⟨rfl, ?_⟩
  change Provider.gemmParams node true = _
  simp only [Provider.gemmParams, first, second, third, fourth, bind, Except.bind]
  rfl

theorem Provider.relu_ok {input result : Tensor F} (made : Provider.computeRelu input Tensor.empty = .ok result) :
    result.shape = input.shape ∧ result.data = input.data.map (Scalar.max Scalar.zero) := by
  let expected : Tensor F := ⟨input.shape, input.data.map (Scalar.max Scalar.zero), by rw [List.length_map, input.sized],
    by rw [List.length_map]; exact input.fits⟩
  have same : Provider.computeRelu input Tensor.empty = .ok expected :=
    @Provider.relu_exact F _ input expected rfl rfl Tensor.empty
  rw [← Except.ok.inj (same.symm.trans made)]
  exact ⟨rfl, rfl⟩

/-- The fused product is the `Relu` of the product. -/
theorem denote_merged (isGemm : node.opType = .gemm) (isRelu : relu.opType = .relu) (outputs : List Text)
    (product : InferenceSession.denote provider node inputs = .ok first)
    (activation : InferenceSession.denote provider relu [first] = .ok second) :
    InferenceSession.denote provider (GraphOptimizer.merged node outputs) inputs = .ok second := by
  rw [InferenceSession.denote, Provider.compute, isGemm] at product
  rw [InferenceSession.denote, Provider.compute, isRelu] at activation
  change provider.computeGemm _ _ inputs Tensor.empty true = _
  change provider.computeGemm _ node inputs Tensor.empty false = _ at product
  change Provider.computeRelu first Tensor.empty = .ok second at activation
  have relu := Provider.relu_ok activation
  rcases inputs with _ | ⟨A, _ | ⟨B, rest⟩⟩
  · cases product
  · cases product
  · obtain ⟨params, found, made⟩ := Lib.bind_ok product
    obtain ⟨plain, fused⟩ := gemmParams_merged node outputs found
    change (Provider.gemmParams _ true >>= fun params => _) = _
    rw [fused]
    exact compute_fused plain made relu.1 relu.2

end Kernels

/-- The tensor has a slot. -/
def Provided (model : Model F) (inputName name : Text) : Prop :=
  name ∈ model.initializers ∨ name = inputName ∨ ∃ owner node, model.graph.Has owner node ∧ name ∈ node.outputs

namespace InferenceSession.Scheduled
variable {model : Model F} {session : Session F} {slots : Slots F}

omit [Scalar F] in
theorem provided (scheduled : Scheduled model session slots) {name : Text} (present : name ∈ slots) :
    Provided model session.inputName name := by
  refine ((scheduled.keys name).mp present).imp_right fun other => other.imp_right ?_
  rintro ⟨ref, member, rfl⟩
  obtain ⟨entry, points⟩ := (topologicalSort_sound scheduled.sorted).1.live member
  obtain ⟨output, single⟩ := scheduled.single ref member
  refine ⟨_, _, has_nodeAt points, ?_⟩
  rw [InferenceSession.output, single]
  exact List.mem_cons_self

omit [Scalar F] in
theorem reads_provided (scheduled : Scheduled model session slots) (kept : model.graph.Kept) {owner read : Text}
    {node : Node F} (has : model.graph.Has owner node) (member : read ∈ node.inputs) :
    Provided model session.inputName read := by
  obtain ⟨ref, inside, rfl, _⟩ := mem_sorted kept scheduled.sorted has
  exact scheduled.provided (scheduled.reads ref inside read member)

end InferenceSession.Scheduled

/-- The values of the run, seen from a model the passes have made. -/
structure Valued (provider : Provider) (store : Text → Tensor F) (inputName outputName : Text) (input : Tensor F)
    (rank : Text → ℕ)
    (model : Model F) : Prop where
  fit : GraphOptimizer.Optimizable model rank
  nodes : ∀ name node, model.graph.Has name node → Provider.supports node.opType = true ∧ ∃ output, node.outputs = [output] ∧
    InferenceSession.denote provider node (node.inputs.map store) = .ok (store output)
  initializers : ∀ name tensor, model.initializers.lookup name = some tensor → store name = tensor
  request : store inputName = input
  firstInput : model.graph.inputs.head? = some inputName
  firstOutput : model.graph.outputs.head? = some outputName
  reads : ∀ name node, model.graph.Has name node → ∀ read ∈ node.inputs, Provided model inputName read
  produced : Provided model inputName outputName

namespace Valued
open GraphOptimizer
variable {provider : Provider} {store : Text → Tensor F} {inputName outputName : Text} {input : Tensor F} {rank : Text → ℕ}
  {model next : Model F} {walk : FiniteMap.Traversal Text (NodeEntry F)}

theorem of_solution {session : Session F} {slots : Slots F} (fit : Optimizable model rank)
    (scheduled : InferenceSession.Scheduled model session slots)
    (solution : Solution provider model session.inputName input store) :
    Valued provider store session.inputName session.outputName input rank model := by
  have once := fit.wellFormed.once
  have requested := List.mem_of_head? scheduled.firstInput
  refine ⟨fit, fun name node has => ?_, fun name tensor held => ?_, ?_, scheduled.firstInput, scheduled.firstOutput,
    fun _ _ has _ member => scheduled.reads_provided fit.wellFormed.kept has member,
    scheduled.provided scheduled.produced⟩
  · obtain ⟨supported, _, single⟩ := solution.nodes name node has
    exact ⟨supported, single⟩
  · have present : name ∈ model.initializers := (FiniteMap.mem_iff_lookup _ _).mpr ⟨tensor, held⟩
    refine solution.initializers name tensor held ?_ fun owner node has written =>
      (once.outputs owner node has name written).2 present
    rintro rfl
    exact once.inputs _ requested present
  · exact solution.request fun name node has written => (once.outputs name node has _ written).1 requested

/-- The value of a constant node is the one the run gives it. -/
theorem compute_constant (valued : Valued provider store inputName outputName input rank model) {candidate : NodeEntry F}
    (found : model.graph.nodeMap.lookup candidate.node.name = some candidate)
    (isConstant : constant model candidate.node = true)
    (threads : Gemm.Threads F) : ∃ output, candidate.node.outputs = [output] ∧
      provider.compute threads candidate.node (candidate.node.inputs.filterMap fun input => model.initializers.lookup input)
        Tensor.empty = .ok (store output) := by
  obtain ⟨_, output, single, made⟩ := valued.nodes _ _ (has_lookup found)
  refine ⟨output, single, InferenceSession.compute_ok_iff.mpr ?_⟩
  have inputs : (candidate.node.inputs.filterMap fun input => model.initializers.lookup input) =
    candidate.node.inputs.map store := by
    rw [← List.filterMap_eq_map]
    refine List.filterMap_congr fun name member => ?_
    obtain ⟨tensor, held⟩ := (FiniteMap.mem_iff_lookup _ _).mp ((constant_reads isConstant).2 name member)
    rw [held, Function.comp_apply, valued.initializers name tensor held]
  rwa [inputs]

theorem fold (valued : Valued provider store inputName outputName input rank model) {candidate : NodeEntry F} {output : Text}
    (found : model.graph.nodeMap.lookup candidate.node.name = some candidate)
    (isConstant : constant model candidate.node = true)
    (single : candidate.node.outputs = [output]) :
    Valued provider store inputName outputName input rank
      { model.addInitializer (candidate.node.outputs.headD []) (store output) with
      graph := model.graph.removeNode walk candidate.node.name } := by
  have here := has_lookup found
  have provided : ∀ name, Provided model inputName name →
    Provided { model.addInitializer (candidate.node.outputs.headD []) (store output) with
      graph := model.graph.removeNode walk candidate.node.name } inputName name := by
    rw [single]
    rintro name (held | same | ⟨owner, node, has, written⟩)
    · exact .inl ((AList.mem_insert _).mpr (.inr held))
    · exact .inr (.inl same)
    · by_cases gone : owner = candidate.node.name
      · subst gone
        rw [has.unique here, single, List.mem_singleton] at written
        exact .inl ((AList.mem_insert _).mpr (.inl written))
      · exact .inr (.inr ⟨owner, node, has_removeNode.mpr ⟨gone, has⟩, written⟩)
  refine ⟨valued.fit.fold walk found isConstant (store output),
    fun name node has => valued.nodes name node (has_removeNode.mp has).2, fun name tensor held => ?_, valued.request,
    ?_, ?_,
    fun name node has read member => provided read (valued.reads name node (has_removeNode.mp has).2 read member),
    provided _ valued.produced⟩
  · rw [single] at held
    change (model.initializers.insert output (store output)).lookup name = some tensor at held
    rw [FiniteMap.lookup_insert_eq] at held
    split at held
    next same =>
      rw [same]
      exact Option.some.inj held
    next => exact valued.initializers name tensor held
  · rw [← valued.firstInput]
    exact congrArg List.head? inputs_removeNode
  · rw [← valued.firstOutput]
    exact congrArg List.head? outputs_removeNode

theorem eliminate (valued : Valued provider store inputName outputName input rank model) (step : Eliminates model next) :
    Valued provider store inputName outputName input rank next := by
  cases step with
  | @step walk unused found isDead =>
    have here := has_lookup found
    have provided : ∀ name, (name ∈ model.graph.outputs ∨ ∃ owner node, model.graph.Has owner node ∧ name ∈ node.inputs) →
        Provided model inputName name → Provided
          { model with graph := model.graph.removeNode walk unused.node.name } inputName name := by
      rintro name used (held | same | ⟨owner, node, has, written⟩)
      · exact .inl held
      · exact .inr (.inl same)
      · refine .inr (.inr ⟨owner, node, has_removeNode.mpr ⟨?_, has⟩, written⟩)
        rintro rfl
        rw [has.unique here] at written
        rcases used with shown | ⟨reader, other, found, reads⟩
        · exact (isDead _ written).1 shown
        · exact (isDead _ written).2 _ _ found reads
    refine ⟨valued.fit.removeNode walk here.mem, fun name node has => valued.nodes name node (has_removeNode.mp has).2,
      valued.initializers, valued.request, ?_, ?_, fun name node has read member => ?_, ?_⟩
    · rw [← valued.firstInput]
      exact congrArg List.head? inputs_removeNode
    · rw [← valued.firstOutput]
      exact congrArg List.head? outputs_removeNode
    · have old := (has_removeNode.mp has).2
      exact provided read (.inr ⟨name, node, old, member⟩) (valued.reads name node old read member)
    · exact provided _ (.inl (List.mem_of_head? valued.firstOutput)) valued.produced

theorem fuse (valued : Valued provider store inputName outputName input rank model) (step : Fuses model next) :
    Valued provider store inputName outputName input rank next := by
  have fit := step.optimizable valued.fit
  obtain ⟨producer, target, gemm, relu, output, pair, nodes, ends, same⟩ := step.pair valued.fit
  have starts : next.graph.inputs = model.graph.inputs := by
    obtain ⟨walk, found, fusion⟩ := step
    exact inputs_removeNode
  have provided : ∀ name, name ≠ output → Provided model inputName name → Provided next inputName name := by
    rintro name different (held | same | ⟨owner, node, has, written⟩)
    · exact .inl (by rwa [same])
    · exact .inr (.inl same)
    · refine .inr (.inr ?_)
      rw [nodes]
      by_cases last : owner = target
      · subst last
        rw [has.unique pair.sink] at written
        exact ⟨producer, _, (fused_producer pair).mpr rfl, written⟩
      by_cases first : owner = producer
      · subst first
        rw [has.unique pair.source, pair.written, List.mem_singleton] at written
        exact absurd written different
      · exact ⟨owner, node, (fused_other first).mpr ⟨last, has⟩, written⟩
  refine ⟨fit, fun name node has => ?_, by rw [same]; exact valued.initializers, valued.request, starts ▸ valued.firstInput,
    ends ▸ valued.firstOutput, fun name node has read member => ?_, provided _ ?_ valued.produced⟩
  · rw [nodes] at has
    by_cases first : name = producer
    · subst first
      rw [fused_producer pair] at has
      subst has
      obtain ⟨_, written, single, product⟩ := valued.nodes _ _ pair.source
      rw [pair.written, List.cons.injEq] at single
      obtain ⟨_, shown, only, activation⟩ := valued.nodes _ _ pair.sink
      rw [pair.read, List.map_singleton] at activation
      exact ⟨rfl, shown, only, denote_merged pair.isGemm pair.isRelu relu.outputs (single.1 ▸ product) activation⟩
    · exact valued.nodes name node ((fused_other first).mp has).2
  · rw [nodes] at has
    obtain ⟨old, here, inputs⟩ := reads_fused has
    rw [inputs] at member
    refine provided read ?_ (valued.reads name old here read member)
    rintro rfl
    exact has.1 (pair.alone name old here member)
  · rintro rfl
    exact pair.hidden (List.mem_of_head? valued.firstOutput)

theorem foldConstants_ok {platform : Platform F} {fuel : Nat}
    (valued : Valued provider store inputName outputName input rank model)
    (enough : model.graph.nodeMap.keys.length < fuel) : ∃ result count,
      foldConstants platform provider fuel model = .ok (result, count) ∧
        Valued provider store inputName outputName input rank result := by
  induction fuel generalizing model with
  | zero => omega
  | succ fuel ih =>
    have kept := valued.fit.wellFormed.kept
    obtain ⟨nodes, listed, _⟩ := nodes_of_kept kept
    rw [foldConstants, listed]
    simp only [bind, Except.bind]
    cases searched : nodes.find? fun entry => constant model entry.node with
    | none => exact ⟨model, 0, rfl, valued⟩
    | some candidate =>
      have isConstant := List.find?_some searched
      have found := listed_lookup kept listed (List.mem_of_find?_eq_some searched)
      obtain ⟨output, single, computed⟩ := valued.compute_constant found isConstant (platform.threads fuel)
      have less := size_removeNode (platform.folding fuel) (has_lookup found).mem
      obtain ⟨result, count, rest, last⟩ :=
        ih (@fold F _ provider store inputName outputName input rank model (platform.folding fuel)
        valued candidate output found isConstant single) (less.trans_le (Nat.lt_succ_iff.mp enough))
      refine ⟨result, count + 1, ?_, last⟩
      simp only [computed, rest]
      rfl

theorem fuseActivations_ok {platform : Platform F} {fuel : Nat}
    (valued : Valued provider store inputName outputName input rank model)
    (enough : model.graph.nodeMap.keys.length < fuel) : ∃ result count,
      fuseActivations platform fuel model = .ok (result, count) ∧
        Valued provider store inputName outputName input rank result := by
  induction fuel generalizing model with
  | zero => omega
  | succ fuel ih =>
    have kept := valued.fit.wellFormed.kept
    obtain ⟨nodes, listed, _⟩ := nodes_of_kept kept
    obtain ⟨choice, searched⟩ := findSomeM?_ok fun entry (member : entry ∈ nodes) =>
      fusible_ok valued.fit.wellFormed (listed_lookup kept listed member)
    rw [fuseActivations, listed]
    simp only [bind, Except.bind, searched]
    cases choice with
    | none => exact ⟨model, 0, rfl, valued⟩
    | some pair =>
      obtain ⟨target, producer⟩ := pair
      obtain ⟨item, member, made⟩ := findSomeM?_some searched
      obtain ⟨rfl, fusion⟩ := fusible_some made
      have found := listed_lookup kept listed member
      have less := size_fuse (platform.fusing fuel) producer.node (has_lookup found).mem
      obtain ⟨result, count, rest, last⟩ :=
        ih (valued.fuse (.step (platform.fusing fuel) found fusion)) (less.trans_le (Nat.lt_succ_iff.mp enough))
      refine ⟨result, count + 1, ?_, last⟩
      simp only [rest]
      rfl

theorem eliminates (valued : Valued provider store inputName outputName input rank model)
    (steps : Relation.ReflTransGen Eliminates model result) :
    Valued provider store inputName outputName input rank result := by
  induction steps with
  | refl => exact valued
  | tail _ step ih => exact ih.eliminate step

theorem eliminateDeadNodes_ok {platform : Platform F} {fuel : Nat}
    (valued : Valued provider store inputName outputName input rank model)
    (enough : model.graph.nodeMap.keys.length < fuel) :
    ∃ result count, eliminateDeadNodes platform fuel model = .ok (result, count) ∧
      Valued provider store inputName outputName input rank result := by
  have kept := valued.fit.wellFormed.kept
  obtain ⟨result, count, ran⟩ := @eliminateDeadNodes_returns F platform model fuel kept enough
  exact ⟨result, count, ran, valued.eliminates (eliminateDeadNodes_eliminates kept ran).1⟩

/-- A pass that is switched off leaves the model. -/
theorem pass_ok {enabled : Bool} {rewrite : Nat → Model F → Except Fault (Model F × Nat)}
    (valued : Valued provider store inputName outputName input rank model)
    (each : ∀ fuel, model.graph.nodeMap.keys.length < fuel → ∃ result count, rewrite fuel model = .ok (result, count) ∧
      Valued provider store inputName outputName input rank result) :
    ∃ result count, pass enabled rewrite model = .ok (result, count) ∧
      Valued provider store inputName outputName input rank result := by
  rw [GraphOptimizer.pass]
  split
  · exact each _ (Nat.lt_succ_self _)
  · exact ⟨model, 0, rfl, valued⟩

theorem run_ok (options : OptimizerOptions) (platform : Platform F)
    (valued : Valued provider store inputName outputName input rank model) :
    ∃ result report, run options platform provider model = .ok (result, report) ∧
      Valued provider store inputName outputName input rank result := by
  have first : ∃ result count, pass options.foldConstants (foldConstants platform provider) model =
    .ok (result, count) ∧ _ :=
    valued.pass_ok fun _ => valued.foldConstants_ok
  obtain ⟨folded, folds, fold, valued⟩ := first
  have second : ∃ result count, pass options.fuseActivations (fuseActivations platform) folded = .ok (result, count) ∧ _ :=
    valued.pass_ok fun _ => valued.fuseActivations_ok
  obtain ⟨fused, fuses, fuse, valued⟩ := second
  have third : ∃ result count, pass options.eliminateDeadNodes (eliminateDeadNodes platform) fused =
    .ok (result, count) ∧ _ :=
    valued.pass_ok fun _ => valued.eliminateDeadNodes_ok
  obtain ⟨result, eliminates, eliminate, valued⟩ := third
  refine ⟨result, ⟨fuses, folds, eliminates, model.graph.nodeMap.keys.length, result.graph.nodeMap.keys.length⟩, ?_, valued⟩
  simp only [run, fold, fuse, eliminate, bind, Except.bind]
  rfl

theorem sorts (valued : Valued provider store inputName outputName input rank model) :
    ∃ order, model.graph.topologicalSort = .ok order := by
  have wellFormed := valued.fit.wellFormed
  have sound : Sound model.graph := ⟨wellFormed.kept, wellFormed.distinct, wellFormed.wired⟩
  refine sound.sorts_iff.mpr fun name cycle => ?_
  have grows : ∀ first last, model.graph.Depends first last →
    OrderDual.toDual (rank first) < OrderDual.toDual (rank last) := by
    rintro first last ⟨_, source, target, from_, to_, output, written, reads⟩
    exact valued.fit.falls first source.2 last target.2 output ⟨_, from_⟩ ⟨_, to_⟩ written reads
  exact lt_irrefl _ (Lib.Acyclic.grows_along grows cycle)

/-- The session accepts the model. -/
theorem schedule_ok (valued : Valued provider store inputName outputName input rank model)
    (initializers : FiniteMap.Traversal Text (Tensor F)) (parallel : Bool) :
    ∃ session slots, InferenceSession.schedule initializers parallel model = .ok (session, slots) := by
  have kept := valued.fit.wellFormed.kept
  obtain ⟨order, sorted⟩ := valued.sorts
  obtain ⟨levels, levelled⟩ := executionLevels_complete sorted
  have closed := (topologicalSort_sound sorted).1
  have named : InferenceSession.ends model.graph = .ok (inputName, outputName) := by
    have first := valued.firstInput
    have last := valued.firstOutput
    rw [InferenceSession.ends]
    cases starts : model.graph.inputs with
    | nil =>
      rw [starts] at first
      cases first
    | cons name names =>
      cases ends : model.graph.outputs with
      | nil =>
        rw [ends] at last
        cases last
      | cons shown others =>
        rw [starts] at first
        rw [ends] at last
        cases first
        cases last
        rfl
  have walk : ∀ refs : List NodeRef, (∀ ref ∈ refs, ref ∈ order) →
      ∃ nodes, (refs.mapM fun ref => (·.node) <$> model.graph.deref ref) = .ok nodes := by
    intro refs
    induction refs with
    | nil => exact fun _ => ⟨[], rfl⟩
    | cons ref refs ih =>
      intro inside
      obtain ⟨here, others⟩ := List.forall_mem_cons.mp inside
      obtain ⟨entry, points⟩ := closed.live here
      obtain ⟨nodes, rest⟩ := ih others
      exact ⟨entry.node :: nodes, by rw [List.mapM_cons, points, rest]; rfl⟩
  obtain ⟨nodes, found⟩ := walk order fun _ => id
  have listed : ∀ node ∈ nodes, ∃ name, model.graph.Has name node := by
    rw [InferenceSession.nodes_eq found]
    intro node member
    obtain ⟨ref, here, rfl⟩ := List.mem_map.mp member
    obtain ⟨entry, points⟩ := closed.live here
    exact ⟨_, InferenceSession.has_nodeAt points⟩
  have checked : nodes.forM InferenceSession.checkNode = .ok () := by
    refine InferenceSession.ok_forM fun node member => ?_
    obtain ⟨name, has⟩ := listed node member
    obtain ⟨supported, output, single, _⟩ := valued.nodes name node has
    exact InferenceSession.checkNode_accepts supported single
  have slotted : ∀ name, Provided model inputName name →
    name ∈ InferenceSession.slotsOf initializers model inputName nodes := by
    intro name provided
    refine InferenceSession.mem_slotsOf.mpr (provided.imp_right fun other => other.imp_right ?_)
    rintro ⟨owner, node, has, written⟩
    obtain ⟨ref, member, same, _⟩ := InferenceSession.mem_sorted kept sorted has
    obtain ⟨_, output, single, _⟩ := valued.nodes owner node has
    rw [InferenceSession.nodes_eq found, List.map_map]
    refine List.mem_map.mpr ⟨ref, member, ?_⟩
    rw [Function.comp_apply, same, InferenceSession.output, single]
    rw [single, List.mem_singleton] at written
    exact written.symm
  rw [InferenceSession.schedule_eq named sorted levelled found checked, if_pos (slotted _ valued.produced)]
  have known : nodes.forM (InferenceSession.checkInputs (InferenceSession.slotsOf initializers model inputName nodes)) =
    .ok () := by
    refine InferenceSession.ok_forM fun node member => InferenceSession.ok_forM fun read reads => ?_
    obtain ⟨name, has⟩ := listed node member
    exact if_pos (slotted read (valued.reads name node has read reads))
  rw [known]
  exact ⟨_, _, rfl⟩

/-- A run of the session returns the value of the output. -/
theorem run_returns {session : Session F} {slots tensors : Slots F}
    (valued : Valued provider store inputName outputName input rank model)
    (scheduled : InferenceSession.Scheduled model session slots)
    (settled : InferenceSession.Settled model session slots tensors) (nonempty : input.size ≠ 0)
    (call : InferenceSession.Call F) :
    ∃ after, InferenceSession.run provider session call input tensors = .ok (after, .ok (store outputName)) := by
  classical
  have sequential := valued.fit.wellFormed.sequential
  obtain rfl : session.inputName = inputName := Option.some.inj (scheduled.firstInput.symm.trans valued.firstInput)
  obtain rfl : session.outputName = outputName := Option.some.inj (scheduled.firstOutput.symm.trans valued.firstOutput)
  let order := (InferenceSession.levelsOf session).flatten
  let reached name := if Lib.Dataflow.Writes (InferenceSession.tasks provider model.graph) order name then store name
    else InferenceSession.given session input tensors name
  have written : ∀ ref ∈ order, reached (InferenceSession.output (InferenceSession.nodeAt model.graph ref)) =
      store (InferenceSession.output (InferenceSession.nodeAt model.graph ref)) := by
    intro ref member
    exact if_pos ((scheduled.writes_levels provider _).mpr ⟨ref, (scheduled.mem_levels session.parallel ref).mp member, rfl⟩)
  have agree : ∀ name, Provided model session.inputName name → reached name = store name := by
    intro name provided
    by_cases produced : Lib.Dataflow.Writes (InferenceSession.tasks provider model.graph) order name
    · exact if_pos produced
    · refine (if_neg produced).trans ?_
      by_cases requested : name = session.inputName
      · rw [InferenceSession.given, requested, Function.update_self, valued.request]
      · rw [scheduled.writes_levels] at produced
        rcases provided with held | same | ⟨owner, node, has, writes⟩
        · obtain ⟨tensor, found⟩ := (FiniteMap.mem_iff_lookup _ _).mp held
          rw [InferenceSession.given, Function.update_of_ne requested,
            settled.kept name requested fun ref member same => produced ⟨ref, member, same⟩, scheduled.held, found,
            valued.initializers name tensor found]
          rfl
        · exact absurd same requested
        · obtain ⟨ref, member, rfl, _⟩ := InferenceSession.mem_sorted sequential.kept scheduled.sorted has
          obtain ⟨output, single⟩ := scheduled.single ref member
          rw [single, List.mem_singleton] at writes
          refine absurd ⟨ref, member, ?_⟩ produced
          rw [InferenceSession.output, single, writes]
          rfl
  have solves : Lib.Dataflow.Solves (InferenceSession.tasks provider model.graph) order
      (InferenceSession.given session input tensors) reached := by
    refine ⟨fun ref member => ?_, fun name outside => if_neg outside⟩
    have here := (scheduled.mem_levels session.parallel ref).mp member
    obtain ⟨entry, points⟩ := (topologicalSort_sound scheduled.sorted).1.live here
    have has := InferenceSession.has_nodeAt points
    obtain ⟨_, output, single, made⟩ := valued.nodes _ _ has
    have apart : ¬InferenceSession.Entangled (InferenceSession.nodeAt model.graph ref) := by
      rintro ⟨reads, _⟩
      refine lt_irrefl _ (valued.fit.falls _ _ _ _ _ has has ?_ reads)
      rw [InferenceSession.output, single]
      exact List.mem_cons_self
    rw [Lib.Dataflow.value, InferenceSession.tasks, InferenceSession.task, if_neg apart]
    change InferenceSession.denote provider _ ((InferenceSession.nodeAt model.graph ref).inputs.map reached) =
      .ok (reached _)
    rw [written ref member, List.map_congr_left fun read reads => agree read (valued.reads _ _ has read reads), made,
      InferenceSession.output, single]
    rfl
  obtain ⟨after, ran, _⟩ :=
    @InferenceSession.Scheduled.run_of_runs F _ provider model session slots tensors call input scheduled
      sequential settled nonempty reached (Lib.Dataflow.runs_of_solves
      (scheduled.legal sequential session.parallel) solves fun name outside => (if_neg outside).symm)
  rw [agree _ valued.produced] at ran
  exact ⟨after, ran⟩

end Valued

namespace GraphOptimizer

/-- The optimizer preserves what a model means: what a session answers, the
session on the rewritten model answers. -/
theorem run_preserves {provider : Provider} {model : Model F} (assembled : model.Assembled)
    (distinct : model.graph.insertionOrder.Nodup) (once : model.DefinedOnce) (acyclic : model.graph.Acyclic)
    {parallel : Bool} {elsewhere : Platform F} {initializers : FiniteMap.Traversal Text (Tensor F)} {session : Session F}
    {slots tensors after : Slots F} {earlier : List (InferenceSession.Call F × Tensor F)}
    {answers : List (Except Fault (Tensor F))} {call : InferenceSession.Call F}
    {input result : Tensor F}
    (prepared : InferenceSession.prepare ⟨false, parallel⟩ elsewhere initializers provider model = .ok (session, slots))
    (served : InferenceSession.serve provider session earlier slots = .ok (tensors, answers))
    (ran : InferenceSession.run provider session call input tensors = .ok (after, .ok result))
    (options : OptimizerOptions) (platform : Platform F) :
    ∃ rewritten report, run options platform provider model = .ok (rewritten, report) ∧
      ∀ (parallel : Bool) (elsewhere : Platform F) (initializers : FiniteMap.Traversal Text (Tensor F)), ∃ session slots,
        InferenceSession.prepare ⟨false, parallel⟩ elsewhere initializers provider rewritten = .ok (session, slots) ∧
          ∀ earlier tensors answers call, InferenceSession.serve provider session earlier slots = .ok (tensors, answers) →
            ∃ after, InferenceSession.run provider session call input tensors = .ok (after, .ok result) := by
  obtain ⟨rank, fit⟩ := Optimizable.of_assembled assembled distinct once acyclic
  have sequential := fit.wellFormed.sequential
  obtain ⟨_, _, made⟩ := Lib.bind_ok prepared
  have scheduled := (InferenceSession.schedule_sound made).1
  have settled := scheduled.serve_settled InferenceSession.Settled.start served
  have nonempty := (scheduled.run_returns sequential settled ran).1
  obtain ⟨solution, rfl⟩ := scheduled.solution sequential settled ran
  obtain ⟨rewritten, report, optimized, valued⟩ := (Valued.of_solution fit scheduled solution).run_ok options platform
  refine ⟨rewritten, report, optimized, fun parallel elsewhere initializers => ?_⟩
  obtain ⟨session, slots, accepted⟩ := valued.schedule_ok initializers parallel
  obtain ⟨names, named, _⟩ := Lib.bind_ok accepted
  have ready := (InferenceSession.schedule_sound accepted).1
  refine ⟨session, slots, ?_, fun earlier tensors answers call served => ?_⟩
  · rw [InferenceSession.prepare, named]
    exact accepted
  · exact valued.run_returns ready (ready.serve_settled InferenceSession.Settled.start served) nonempty call

section Chain

theorem chain_runs : ∃ session slots after result,
    InferenceSession.prepare ⟨false, false⟩ plainPlatform .kept ⟨.auto⟩ chain.model = .ok (session, slots) ∧
      InferenceSession.run ⟨.auto⟩ session plainCall unitTensor slots = .ok (after, .ok result) ∧ result.data = [2] :=
  ⟨_, _, _, _, rfl, rfl, by decide +kernel⟩

theorem run_preserves_chain : ∃ rewritten report session slots after result,
    run ⟨true, true, true⟩ plainPlatform ⟨.auto⟩ chain.model = .ok (rewritten, report) ∧
      InferenceSession.prepare ⟨false, true⟩ plainPlatform .kept ⟨.auto⟩ rewritten = .ok (session, slots) ∧
      InferenceSession.run ⟨.auto⟩ session plainCall unitTensor slots = .ok (after, .ok result) ∧ result.data = [2] := by
  obtain ⟨session, slots, after, result, prepared, ran, value⟩ := chain_runs
  have start : InferenceSession.serve ⟨.auto⟩ session [] slots = .ok (slots, []) := rfl
  obtain ⟨rewritten, report, optimized, accepted⟩ := run_preserves chain.assembled (by decide)
    (ModelSketch.definedOnce (by decide +kernel)) (ModelSketch.acyclic (by decide +kernel)) prepared start ran
    ⟨true, true, true⟩
    plainPlatform
  obtain ⟨session, slots, prepared, answers⟩ := accepted true plainPlatform .kept
  obtain ⟨after, ran⟩ := answers [] slots [] plainCall rfl
  exact ⟨rewritten, report, session, slots, after, result, optimized, prepared, ran, value⟩

end Chain

end GraphOptimizer
end FromScratch.Inference
