import FromScratch.Proofs.ExportedNetwork
import FromScratch.Proofs.OperatorReference

/-! A session answers with the values its model defines: those the operator of every
node makes of the values of its inputs. -/

namespace FromScratch.Inference
open Lib (FiniteMap)
open CpuOperators GraphOptimizer

section Induction
variable {F : Type} {model : Model F} {inputName : Text} {rank : Text → ℕ}

/-- What is true of the tensors that are given, and of the outputs of a node where it
is true of its inputs, is true of every tensor with a slot. -/
theorem Provided.induct (falls : Falls model.graph rank)
    (reads : ∀ name node, model.graph.Has name node → ∀ read ∈ node.inputs, Provided model inputName read)
    {property : Text → Prop} (given : ∀ name, name ∈ model.initializers ∨ name = inputName → property name)
    (step : ∀ owner node, model.graph.Has owner node → (∀ read ∈ node.inputs, property read) →
      ∀ output ∈ node.outputs, property output) {name : Text} (provided : Provided model inputName name) :
    property name := by
  obtain ⟨bound, bounded⟩ : ∃ bound, ∀ owner node, model.graph.Has owner node → rank owner ≤ bound :=
    ⟨model.graph.nodeMap.keys.toFinset.sup rank, fun owner node has =>
      Finset.le_sup (List.mem_toFinset.mpr (AList.mem_keys.mp has.mem))⟩
  -- The rank grows towards the inputs, and no node is above the bound.
  have written : ∀ gap owner node, bound - rank owner = gap → model.graph.Has owner node →
      ∀ output ∈ node.outputs, property output := by
    intro gap
    induction gap using Nat.strong_induction_on with
    | h gap ih =>
      intro owner node same has
      refine step owner node has fun read member => ?_
      rcases reads owner node has read member with held | requested | ⟨writer, source, here, made⟩
      · exact given read (.inl held)
      · exact given read (.inr requested)
      · have above := falls writer source owner node read here has made member
        have below := bounded writer source here
        exact ih (bound - rank writer) (by omega) writer source rfl here read made
  rcases provided with held | requested | ⟨owner, node, has, made⟩
  · exact given name (.inl held)
  · exact given name (.inr requested)
  · exact written _ owner node rfl has name made

end Induction

/-- The values of a model on a request. -/
structure Evaluates (model : Model ℚ) (inputName : Text) (input : Tensor ℚ) (store : Text → Tensor ℚ) : Prop where
  nodes : ∀ name node, model.graph.Has name node → ∃ output, node.outputs = [output] ∧
    evaluate node (node.inputs.map store) = .ok (store output)
  initializers : ∀ name tensor, model.initializers.lookup name = some tensor → store name = tensor
  request : store inputName = input

/-- The provider can count the rows of every product. -/
def Counts (provider : Provider) (model : Model ℚ) (store : Text → Tensor ℚ) : Prop :=
  ∀ name node, model.graph.Has name node → ∀ output ∈ node.outputs, Countable provider node (store output)

/-- The tensors that come with the model have all their elements. -/
def Model.WholeInitializers (model : Model ℚ) : Prop :=
  ∀ name tensor, model.initializers.lookup name = some tensor → tensor.Whole

section Values
variable {provider : Provider} {model : Model ℚ} {inputName outputName : Text} {input : Tensor ℚ} {store : Text → Tensor ℚ}
    {rank : Text → ℕ}

theorem given_whole (full : model.WholeInitializers) (whole : input.Whole)
    (initializers : ∀ name tensor, model.initializers.lookup name = some tensor → store name = tensor)
    (request : store inputName = input) : ∀ name, name ∈ model.initializers ∨ name = inputName → (store name).Whole := by
  rintro name (held | rfl)
  · obtain ⟨tensor, found⟩ := (FiniteMap.mem_iff_lookup _ _).mp held
    rw [initializers name tensor found]
    exact full name tensor found
  · rwa [request]

theorem mapped_whole {inputs : List Text} (whole : ∀ read ∈ inputs, (store read).Whole) :
    ∀ operand ∈ inputs.map store, operand.Whole := by
  intro operand member
  obtain ⟨read, reads, rfl⟩ := List.mem_map.mp member
  exact whole read reads

theorem supported_of_evaluate {node : Node ℚ} {inputs : List (Tensor ℚ)} {result : Tensor ℚ}
    (made : evaluate node inputs = .ok result) : Provider.supports node.opType = true := by
  cases kind : node.opType with
  | unknown =>
    rw [evaluate, kind] at made
    cases made
  | flatten | gemm | relu | add | gemmRelu => rfl

theorem Evaluates.whole (values : Evaluates model inputName input store) (falls : Falls model.graph rank)
    (reads : ∀ name node, model.graph.Has name node → ∀ read ∈ node.inputs, Provided model inputName read)
    (full : model.WholeInitializers) (whole : input.Whole) {name : Text} (provided : Provided model inputName name) :
    (store name).Whole := by
  refine Provided.induct falls reads (given_whole full whole values.initializers values.request) ?_ provided
  intro owner node has operands output member
  obtain ⟨only, single, made⟩ := values.nodes owner node has
  rw [single, List.mem_singleton] at member
  rw [member]
  exact evaluate_whole (mapped_whole operands) made

/-- A model defines one value for every tensor with a slot. -/
theorem Evaluates.unique {other : Text → Tensor ℚ} (values : Evaluates model inputName input store)
    (again : Evaluates model inputName input other) (falls : Falls model.graph rank)
    (reads : ∀ name node, model.graph.Has name node → ∀ read ∈ node.inputs, Provided model inputName read)
    {name : Text} (provided : Provided model inputName name) : store name = other name := by
  refine @Provided.induct ℚ model inputName rank falls reads (fun name => store name = other name) ?_ ?_ name provided
  · rintro name (held | rfl)
    · obtain ⟨tensor, found⟩ := (FiniteMap.mem_iff_lookup _ _).mp held
      rw [values.initializers name tensor found, again.initializers name tensor found]
    · rw [values.request, again.request]
  · intro owner node has operands output member
    obtain ⟨only, single, made⟩ := values.nodes owner node has
    obtain ⟨_, same, remade⟩ := again.nodes owner node has
    cases single.symm.trans same
    rw [single, List.mem_singleton] at member
    rw [List.map_congr_left operands, remade] at made
    rw [member]
    exact (Except.ok.inj made).symm

theorem Valued.whole (valued : Valued provider store inputName outputName input rank model)
    (full : model.WholeInitializers) (whole : input.Whole) {name : Text} (provided : Provided model inputName name) :
    (store name).Whole := by
  refine Provided.induct valued.fit.falls valued.reads
    (given_whole full whole valued.initializers valued.request) ?_ provided
  intro owner node has operands output member
  obtain ⟨_, only, single, made⟩ := valued.nodes owner node has
  rw [single, List.mem_singleton] at member
  rw [member]
  exact evaluate_whole (mapped_whole operands) ((compute_agrees (mapped_whole operands) provider _).mp made).1

/-- The values a model defines are those of its runs. -/
theorem Evaluates.valued (values : Evaluates model inputName input store) (counted : Counts provider model store)
    (fit : Optimizable model rank) (full : model.WholeInitializers) (whole : input.Whole)
    (firstInput : model.graph.inputs.head? = some inputName) (firstOutput : model.graph.outputs.head? = some outputName)
    (reads : ∀ name node, model.graph.Has name node → ∀ read ∈ node.inputs, Provided model inputName read)
    (produced : Provided model inputName outputName) :
    Valued provider store inputName outputName input rank model := by
  refine ⟨fit, fun name node has => ?_, values.initializers, values.request, firstInput, firstOutput, reads, produced⟩
  obtain ⟨output, single, made⟩ := values.nodes name node has
  have operands : ∀ read ∈ node.inputs, (store read).Whole := fun read member =>
    values.whole fit.falls reads full whole (reads name node has read member)
  refine ⟨supported_of_evaluate made, output, single, ?_⟩
  refine (compute_agrees (mapped_whole operands) provider _).mpr ⟨made, counted name node has output ?_⟩
  rw [single]
  exact List.mem_cons_self

theorem Valued.evaluates (valued : Valued provider store inputName outputName input rank model)
    (full : model.WholeInitializers) (whole : input.Whole) :
    Evaluates model inputName input store ∧ Counts provider model store := by
  have each : ∀ name node, model.graph.Has name node → ∃ output, node.outputs = [output] ∧
      evaluate node (node.inputs.map store) = .ok (store output) ∧ Countable provider node (store output) := by
    intro name node has
    obtain ⟨_, output, single, made⟩ := valued.nodes name node has
    have operands : ∀ read ∈ node.inputs, (store read).Whole := fun read member =>
      valued.whole full whole (valued.reads name node has read member)
    exact ⟨output, single, (compute_agrees (mapped_whole operands) provider _).mp made⟩
  refine ⟨⟨fun name node has => ?_, valued.initializers, valued.request⟩, fun name node has output member => ?_⟩
  · obtain ⟨output, single, made, _⟩ := each name node has
    exact ⟨output, single, made⟩
  · obtain ⟨only, single, _, countable⟩ := each name node has
    rw [single, List.mem_singleton] at member
    rwa [member]

end Values

namespace InferenceSession

/-- A run that returns has made the values the model defines. -/
theorem Scheduled.evaluates {provider : Provider} {model : Model ℚ} {rank : Text → ℕ} {session : Session ℚ}
    {slots tensors after : Slots ℚ} (scheduled : Scheduled model session slots) (fit : Optimizable model rank)
    (settled : Settled model session slots tensors) (full : model.WholeInitializers) {input result : Tensor ℚ}
    (whole : input.Whole) {call : Call ℚ} (ran : run provider session call input tensors = .ok (after, .ok result)) :
    input.size ≠ 0 ∧ Evaluates model session.inputName input (view after) ∧ Counts provider model (view after) ∧
      result = view after session.outputName := by
  have sequential := fit.wellFormed.sequential
  obtain ⟨solution, same⟩ := scheduled.solution sequential settled ran
  obtain ⟨values, counted⟩ := (Valued.of_solution fit scheduled solution).evaluates full whole
  exact ⟨(scheduled.run_returns sequential settled ran).1, values, counted, same⟩

/-- A session that runs its model as it was given answers a request exactly where the
model defines its values, and with the value of the output. -/
theorem run_evaluates {provider : Provider} {model : Model ℚ} (assembled : model.Assembled)
    (distinct : model.graph.insertionOrder.Nodup) (once : model.DefinedOnce) (acyclic : model.graph.Acyclic)
    (full : model.WholeInitializers) {parallel : Bool} {platform : Platform ℚ}
    {initializers : FiniteMap.Traversal Text (Tensor ℚ)} {session : Session ℚ} {slots tensors : Slots ℚ}
    {earlier : List (Call ℚ × Tensor ℚ)} {answers : List (Except Fault (Tensor ℚ))}
    (prepared : prepare ⟨false, parallel⟩ platform initializers provider model = .ok (session, slots))
    (served : serve provider session earlier slots = .ok (tensors, answers)) {input : Tensor ℚ} (whole : input.Whole)
    (call : Call ℚ) (result : Tensor ℚ) :
    (∃ after, run provider session call input tensors = .ok (after, .ok result)) ↔
      input.size ≠ 0 ∧ ∃ store, Evaluates model session.inputName input store ∧ Counts provider model store ∧
        result = store session.outputName := by
  obtain ⟨rank, fit⟩ := Optimizable.of_assembled assembled distinct once acyclic
  obtain ⟨_, _, made⟩ := Lib.bind_ok prepared
  have scheduled := (schedule_sound made).1
  have settled := scheduled.serve_settled Settled.start served
  constructor
  · rintro ⟨after, ran⟩
    obtain ⟨nonempty, values, counted, same⟩ := scheduled.evaluates fit settled full whole ran
    exact ⟨nonempty, view after, values, counted, same⟩
  · rintro ⟨nonempty, store, values, counted, rfl⟩
    have valued := values.valued counted fit full whole scheduled.firstInput scheduled.firstOutput
      (fun _ _ has _ member => scheduled.reads_provided fit.wellFormed.kept has member)
      (scheduled.provided scheduled.produced)
    exact valued.run_returns scheduled settled nonempty call

section Chain

theorem unit_whole : unitTensor.Whole := rfl

theorem chain_full : chain.model.WholeInitializers := by
  intro name tensor found
  change ((∅ : FiniteMap Text (Tensor ℚ)).insert (text "w") unitTensor).lookup name = some tensor at found
  rw [FiniteMap.lookup_insert_eq] at found
  split at found
  · cases found
    exact unit_whole
  · cases found

theorem run_evaluates_chain : ∃ session slots after result store,
    prepare ⟨false, false⟩ plainPlatform .kept ⟨.auto⟩ chain.model = .ok (session, slots) ∧
      run ⟨.auto⟩ session plainCall unitTensor slots = .ok (after, .ok result) ∧ result.data = [2] ∧
        Evaluates chain.model session.inputName unitTensor store ∧ result = store session.outputName := by
  obtain ⟨session, slots, after, result, prepared, ran, value⟩ := chain_runs
  have start : serve ⟨.auto⟩ session [] slots = .ok (slots, []) := rfl
  obtain ⟨_, store, values, _, same⟩ := (run_evaluates chain.assembled (by decide)
    (ModelSketch.definedOnce (by decide +kernel)) (ModelSketch.acyclic (by decide +kernel)) chain_full prepared start
    unit_whole plainCall result).mp ⟨after, ran⟩
  exact ⟨session, slots, after, result, store, prepared, ran, value, values, same⟩

end Chain

/-- Whatever the optimizer makes of the model, a session answers with the values the
model defines. -/
theorem prepare_evaluates {provider : Provider} {model : Model ℚ} (assembled : model.Assembled)
    (distinct : model.graph.insertionOrder.Nodup) (once : model.DefinedOnce) (acyclic : model.graph.Acyclic)
    (full : model.WholeInitializers) {inputName outputName : Text}
    (firstInput : model.graph.inputs.head? = some inputName) (firstOutput : model.graph.outputs.head? = some outputName)
    (reads : ∀ name node, model.graph.Has name node → ∀ read ∈ node.inputs, Provided model inputName read)
    (produced : Provided model inputName outputName) {sample : Tensor ℚ} (sound : sample.Whole) {known : Text → Tensor ℚ}
    (defined : Evaluates model inputName sample known) (countable : Counts provider model known) (config : SessionConfig)
    (platform : Platform ℚ) (initializers : FiniteMap.Traversal Text (Tensor ℚ)) :
    ∃ session slots, prepare config platform initializers provider model = .ok (session, slots) ∧
      ∀ earlier tensors answers, serve provider session earlier slots = .ok (tensors, answers) →
        ∀ input : Tensor ℚ, input.Whole → input.size ≠ 0 → ∀ store, Evaluates model inputName input store →
          Counts provider model store → ∀ call, ∃ after,
            run provider session call input tensors = .ok (after, .ok (store outputName)) := by
  obtain ⟨rank, fit⟩ := Optimizable.of_assembled assembled distinct once acyclic
  have first := defined.valued countable fit full sound firstInput firstOutput reads produced
  obtain ⟨ready, session, slots, made, scheduled, kept⟩ := first.prepared config platform initializers
  refine ⟨session, slots, made, ?_⟩
  intro earlier tensors answers served input whole nonempty store values counted call
  have settled := scheduled.serve_settled Settled.start served
  have valued := values.valued counted fit full whole firstInput firstOutput reads produced
  exact (kept store input rank valued).run_returns scheduled settled nonempty call

section Chain

theorem prepare_evaluates_chain : ∃ session slots after result,
    prepare ⟨true, true⟩ plainPlatform .kept ⟨.auto⟩ chain.model = .ok (session, slots) ∧
      run ⟨.auto⟩ session plainCall unitTensor slots = .ok (after, .ok result) ∧ result.data = [2] := by
  obtain ⟨session, slots, after, result, prepared, ran, value⟩ := chain_runs
  have once : chain.model.DefinedOnce := ModelSketch.definedOnce (by decide +kernel)
  have acyclic : chain.model.graph.Acyclic := ModelSketch.acyclic (by decide +kernel)
  obtain ⟨rank, fit⟩ := Optimizable.of_assembled chain.assembled (by decide) once acyclic
  obtain ⟨_, _, made⟩ := Lib.bind_ok prepared
  have scheduled := (schedule_sound made).1
  obtain ⟨nonempty, values, counted, rfl⟩ := scheduled.evaluates fit Settled.start chain_full unit_whole ran
  obtain ⟨optimized, tensors, accepted, answers⟩ := prepare_evaluates chain.assembled (by decide) once acyclic chain_full
    scheduled.firstInput scheduled.firstOutput
      (fun _ _ has _ member => scheduled.reads_provided fit.wellFormed.kept has member)
    (scheduled.provided scheduled.produced) unit_whole values counted ⟨true, true⟩ plainPlatform .kept
  obtain ⟨last, answered⟩ := answers [] tensors [] rfl unitTensor unit_whole nonempty _ values counted plainCall
  exact ⟨optimized, tensors, last, _, accepted, answered, value⟩

end Chain

end InferenceSession
end FromScratch.Inference
