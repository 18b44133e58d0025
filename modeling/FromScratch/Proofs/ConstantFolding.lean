import FromScratch.Proofs.RunValues

/-! What folding removes. A run computes the value that was stored for a node as
long as nothing the node reads is written during the run, except by nodes that
were folded before it. -/

namespace FromScratch.Inference
open Lib (FiniteMap)
open Lib.FiniteMap (lookup_insert_eq)

variable {F : Type} [Scalar F]

namespace GraphOptimizer
open Graph
variable {provider : Provider} {model current folded : Model F} {removed before : List (Node F)}

/-- Each node reads what earlier ones wrote, or what nobody writes in a run. -/
def Undisturbed (model : Model F) : List (Node F) → List (Node F) → Prop
  | _, [] => True
  | before, node :: removed =>
    (∀ input ∈ node.inputs, (∃ writer ∈ before, input ∈ writer.outputs) ∨
      model.graph.inputs.head? ≠ some input ∧ ∀ name other, model.graph.Has name other → input ∉ other.outputs) ∧
    Undisturbed model (node :: before) removed

/-- The model after some nodes have been folded to the values of a run. -/
structure Partial (model : Model F) (store : Text → Tensor F) (before : List (Node F)) (current : Model F) : Prop where
  kept : current.graph.Kept
  nodes : ∀ name node, current.graph.Has name node → model.graph.Has name node ∧ node ∉ before
  owned : ∀ writer ∈ before, ∃ name, model.graph.Has name writer
  known : ∀ writer ∈ before, ∃ output, writer.outputs = [output] ∧ current.initializers.lookup output = some (store output)
  others : ∀ name, (∀ writer ∈ before, name ∉ writer.outputs) → current.initializers.lookup name =
    model.initializers.lookup name

theorem Folds.values {inputName : Text} {input : Tensor F} {store : Text → Tensor F}
    (first : model.graph.inputs.head? = some inputName) (solution : Solution provider model inputName input store)
    (folds : Folds provider current removed folded) (part : Partial model store before current)
    (undisturbed : Undisturbed model before removed) :
    ∀ node, node ∈ before ∨ node ∈ removed → ∃ output, node.outputs = [output] ∧ folded.initializers.lookup output =
      some (store output) := by
  induction folds generalizing before with
  | done =>
    rintro node (early | late)
    · exact part.known node early
    · cases late
  | @round current result removed walk threads candidate value found isConstant computed rest ih =>
    obtain ⟨reads, later⟩ := undisturbed
    have here := has_lookup found
    obtain ⟨has, fresh⟩ := part.nodes _ _ here
    obtain ⟨⟨output, single⟩, present⟩ := constant_reads isConstant
    have read : ∀ input ∈ candidate.node.inputs, current.initializers.lookup input = some (store input) := by
      intro name member
      rcases reads name member with ⟨writer, early, writes⟩ | ⟨apart, nobody⟩
      · obtain ⟨output, single, same⟩ := part.known writer early
        rw [single, List.mem_singleton] at writes
        rwa [writes]
      · obtain ⟨tensor, held⟩ := (FiniteMap.mem_iff_lookup _ _).mp (present name member)
        have original : model.initializers.lookup name = some tensor := by
          rw [← part.others name fun writer early => ?_, held]
          obtain ⟨owner, owned⟩ := part.owned writer early
          exact nobody owner writer owned
        rw [held, solution.initializers name tensor original (fun same => apart (same ▸ first)) nobody]
    have inputs : (candidate.node.inputs.filterMap fun input => current.initializers.lookup input) =
      candidate.node.inputs.map store := by
      rw [← List.filterMap_eq_map]
      exact List.filterMap_congr read
    have stored : value = store output := by
      obtain ⟨_, _, written, same, made⟩ := solution.nodes _ _ has
      rw [single, List.cons.injEq] at same
      obtain ⟨rfl, _⟩ := same
      rw [inputs, InferenceSession.compute_ok_iff, made] at computed
      exact (Except.ok.inj computed).symm
    have placed : ∀ name, ({ current.addInitializer (candidate.node.outputs.headD []) value with
        graph := current.graph.removeNode walk candidate.node.name } : Model F).initializers.lookup name =
          if name = output then some (store output) else current.initializers.lookup name := by
      intro name
      rw [single]
      exact (lookup_insert_eq current.initializers output name value).trans (by rw [stored])
    have next : Partial model store (candidate.node :: before)
      { current.addInitializer (candidate.node.outputs.headD []) value with
        graph := current.graph.removeNode walk candidate.node.name } := by
      refine ⟨part.kept.removeNode _, fun name node still => ?_, ?_, ?_, fun name outside => ?_⟩
      · obtain ⟨different, was⟩ := has_removeNode.mp still
        obtain ⟨old, apart⟩ := part.nodes name node was
        refine ⟨old, fun member => ?_⟩
        rcases List.mem_cons.mp member with rfl | early
        · exact different (part.kept.has_name was).symm
        · exact apart early
      · exact List.forall_mem_cons.mpr ⟨⟨_, has⟩, part.owned⟩
      · refine List.forall_mem_cons.mpr ⟨⟨output, single, (placed output).trans (if_pos rfl)⟩, fun writer early => ?_⟩
        obtain ⟨other, alone, same⟩ := part.known writer early
        refine ⟨other, alone, (placed other).trans ?_⟩
        split
        next equal => rw [equal]
        next => exact same
      · obtain ⟨different, early⟩ := List.forall_mem_cons.mp outside
        rw [single, List.mem_singleton] at different
        rw [placed, if_neg different, part.others name early]
    intro node member
    refine ih next later node ?_
    rcases member with early | late
    · exact .inl (List.mem_cons_of_mem _ early)
    · rcases List.mem_cons.mp late with rfl | late
      · exact .inl List.mem_cons_self
      · exact .inr late

/-- Where no tensor is defined twice nothing that is folded is disturbed. -/
theorem Folds.undisturbed (once : model.DefinedOnce) (folds : Folds provider current removed folded)
    (known : ∀ name ∈ current.initializers, (∃ writer ∈ before, name ∈ writer.outputs) ∨ name ∈ model.initializers) :
    Undisturbed model before removed := by
  induction folds generalizing before with
  | done => trivial
  | @round current result removed walk threads candidate output found isConstant computed rest ih =>
    obtain ⟨⟨written, single⟩, _, _, present⟩ := (constant_iff _).mp isConstant
    refine ⟨fun input read => (known input (present input read)).imp_right fun stored => ⟨fun first => ?_, ?_⟩, ih ?_⟩
    · exact once.inputs input (List.mem_of_mem_head? first) stored
    · exact fun name other has writes => (once.outputs name other has input writes).2 stored
    · intro name stored
      rcases (AList.mem_insert _).mp stored with rfl | earlier
      · exact .inl ⟨candidate.node, List.mem_cons_self, by simp [single]⟩
      · exact (known name earlier).imp_left fun ⟨writer, member, writes⟩ =>
          ⟨writer, List.mem_cons_of_mem _ member, writes⟩

/-- Folding stores what the nodes compute in every run, as long as what they read
is not written while the session runs. -/
theorem foldConstants_constant (assembled : model.Assembled) (distinct : model.graph.insertionOrder.Nodup)
    (apart : ∀ name node other reader, model.graph.Has name node → model.graph.Has other reader →
      ∀ output ∈ node.outputs, output ∈ reader.outputs → name = other)
    (selfless : ∀ name node, model.graph.Has name node → ∀ output ∈ node.outputs, output ∉ node.inputs)
    {platform : Platform F} {fuel count : Nat} (ran : foldConstants platform provider fuel model = .ok (folded, count)) :
    ∃ removed, Folds provider model removed folded ∧ removed.length = count ∧
      (∀ name node, model.graph.Has name node → (node ∈ removed ↔ name ∉ folded.graph.nodeMap)) ∧
      (Undisturbed model [] removed → ∀ (parallel : Bool)
      (elsewhere : Platform F) initializers session slots requests tensors answers
          call input after result,
        InferenceSession.prepare ⟨false, parallel⟩ elsewhere initializers provider model = .ok (session, slots) →
        InferenceSession.serve provider session requests slots = .ok (tensors, answers) →
        InferenceSession.run provider session call input tensors = .ok (after, .ok result) →
        ∀ node ∈ removed, ∃ output value, node.outputs = [output] ∧ folded.initializers.lookup output = some value ∧
          after.lookup output = some value) := by
  have kept := assembled.kept
  have sequential : model.Sequential := ⟨kept, assembled.wired distinct, apart,
    fun name node has output written read => absurd read (selfless name node has output written)⟩
  obtain ⟨removed, folds, long, _⟩ := foldConstants_folds kept ran
  refine ⟨removed, folds, long, fun name node has => ?_, ?_⟩
  · have still := @Folds.has F _ provider model folded removed folds kept name node
    constructor
    · intro gone present
      obtain ⟨entry, found⟩ := (FiniteMap.mem_iff_lookup _ _).mp present
      have other := (folds.has kept).mp (has_lookup found)
      exact other.2 (has.unique other.1 ▸ gone)
    · intro absent
      by_contra stays
      exact absent (still.mpr ⟨has, stays⟩).mem
  · intro undisturbed parallel elsewhere initializers session slots requests tensors answers call input after result
      prepared served ran
    obtain ⟨_, _, made⟩ := Lib.bind_ok prepared
    have scheduled := (InferenceSession.schedule_sound made).1
    have settled := scheduled.serve_settled InferenceSession.Settled.start served
    have solution := (scheduled.solution sequential settled ran).1
    have start : Partial model (InferenceSession.view after) [] model :=
      ⟨kept, fun name node has => ⟨has, List.not_mem_nil⟩, nofun, nofun, fun _ _ => rfl⟩
    intro node gone
    obtain ⟨output, single, stored⟩ := folds.values scheduled.firstInput solution start undisturbed node (.inr gone)
    obtain ⟨name, has⟩ := folds.owned node gone
    obtain ⟨ref, member, rfl, _⟩ := InferenceSession.mem_sorted kept scheduled.sorted has
    refine ⟨output, _, single, stored, ?_⟩
    have present : output ∈ slots := (scheduled.keys output).mpr
      (.inr (.inr ⟨ref, member, by rw [InferenceSession.output, single]; rfl⟩))
    exact InferenceSession.lookup_view (((scheduled.run_settled settled ran).keys output).mpr present)

section Cascade

/-- The second node is constant once the first has been folded. -/
def cascade : ModelSketch where
  nodes := [⟨"r", "Relu", ["w"], ["h"]⟩, ⟨"s", "Add", ["h", "w"], ["k"]⟩, ⟨"a", "Add", ["x", "k"], ["y"]⟩]
  initializers := [("w", unitTensor)]
  inputs := ["x"]
  outputs := ["y"]

theorem foldConstants_constant_cascade : ∃ folded session slots tensors result first second,
    foldConstants plainPlatform ⟨.auto⟩ 4 cascade.model = .ok (folded, 2) ∧
      InferenceSession.prepare ⟨false, false⟩ plainPlatform .kept ⟨.auto⟩ cascade.model = .ok (session, slots) ∧
      InferenceSession.run ⟨.auto⟩ session plainCall unitTensor slots = .ok (tensors, .ok result) ∧
      (folded.initializers.lookup (text "h") = some first ∧ tensors.lookup (text "h") = some first) ∧
      folded.initializers.lookup (text "k") = some second ∧ tensors.lookup (text "k") = some second := by
  obtain ⟨folded, session, slots, tensors, result, ran, prepared, answered, first, second⟩ :
      ∃ folded session slots tensors result, foldConstants plainPlatform ⟨.auto⟩ 4 cascade.model = .ok (folded, 2) ∧
        InferenceSession.prepare ⟨false, false⟩ plainPlatform .kept ⟨.auto⟩ cascade.model = .ok (session, slots) ∧
        InferenceSession.run ⟨.auto⟩ session plainCall unitTensor slots = .ok (tensors, .ok result) ∧
        text "r" ∉ folded.graph.nodeMap ∧ text "s" ∉ folded.graph.nodeMap :=
    ⟨_, _, _, _, _, rfl, rfl, rfl, by decide +kernel, by decide +kernel⟩
  have once : cascade.model.DefinedOnce := ModelSketch.definedOnce (by decide +kernel)
  obtain ⟨removed, folds, _, gone, constant⟩ := foldConstants_constant cascade.assembled (by decide) once.nodes
    (ModelSketch.selfless (by decide +kernel)) ran
  have undisturbed : Undisturbed cascade.model [] removed := folds.undisturbed once fun name stored => .inr stored
  have held {node : Node ℚ} {output : Text} (single : node.outputs = [output]) (member : node ∈ removed) :
      ∃ value, folded.initializers.lookup output = some value ∧ tensors.lookup output = some value := by
    obtain ⟨same, value, alone, stored, held⟩ := constant undisturbed false plainPlatform .kept session slots [] slots []
      plainCall unitTensor tensors result prepared rfl answered node member
    obtain ⟨rfl, _⟩ := List.cons.inj (single.symm.trans alone)
    exact ⟨value, stored, held⟩
  obtain ⟨value, stored, there⟩ := held rfl ((gone _ (⟨"r", "Relu", ["w"], ["h"]⟩ : NodeSketch).node ⟨_, rfl⟩).mpr first)
  obtain ⟨last, kept, here⟩ := held rfl ((gone _ (⟨"s", "Add", ["h", "w"], ["k"]⟩ : NodeSketch).node ⟨_, rfl⟩).mpr second)
  exact ⟨folded, session, slots, tensors, result, value, last, ran, prepared, answered, ⟨stored, there⟩, kept, here⟩

end Cascade

section Lone

def loneNode (read : Text) : Graph ℚ :=
  ({} : Graph ℚ).addNode .kept (Node.make (text "r") (text "Relu") [read] [text "y"] ∅)

/-- One node, which reads an initializer. -/
def lone (read : Text) : Model ℚ where
  graph := { loneNode read with inputs := [text "x"], outputs := [text "y"] }
  initializers := (∅ : FiniteMap Text (Tensor ℚ)).insert read unitTensor

theorem lone_assembled (read : Text) : (lone read).Assembled :=
  (((Model.Assembled.new.addNode .kept (text "r") (text "Relu") [read]
    [text "y"] ∅).addInitializer read unitTensor).setInputs
    [text "x"]).setOutputs [text "y"]

theorem lone_has {read name : Text} {node : Node ℚ} (has : (lone read).graph.Has name node) :
    name = text "r" ∧ node = Node.make (text "r") (text "Relu") [read] [text "y"] ∅ := by
  obtain ⟨id, here⟩ := has
  change stored (loneNode read).nodeMap name = _ at here
  rw [loneNode, stored_addNode] at here
  split at here
  next same =>
    cases here
    exact ⟨same, rfl⟩
  next => cases here

theorem lone_selfless {read : Text} (different : read ≠ text "y") :
    ∀ name node, (lone read).graph.Has name node → ∀ output ∈ node.outputs, output ∉ node.inputs := by
  intro name node has output written reads
  obtain ⟨rfl, rfl⟩ := lone_has has
  exact different ((List.mem_singleton.mp reads).symm.trans (List.mem_singleton.mp written))

/-- The graph input has a default. Folding takes the default for the request. -/
theorem foldConstants_of_default :
    ((lone (text "x")).Assembled ∧ (lone (text "x")).graph.insertionOrder.Nodup ∧
      ∀ name node, (lone (text "x")).graph.Has name node → ∀ output ∈ node.outputs, output ∉ node.inputs) ∧
    ∃ folded session slots tensors result request, foldConstants plainPlatform ⟨.auto⟩ 2 (lone (text "x")) =
      .ok (folded, 1) ∧
      InferenceSession.prepare ⟨false, false⟩ plainPlatform .kept ⟨.auto⟩ (lone (text "x")) = .ok (session, slots) ∧
      InferenceSession.run ⟨.auto⟩ session plainCall request slots = .ok (tensors, .ok result) ∧
      (folded.initializers.lookup (text "y")).map Tensor.data = some [1] ∧
      (tensors.lookup (text "y")).map Tensor.data = some [2] :=
  ⟨⟨lone_assembled _, by decide, lone_selfless (by decide)⟩,
    _, _, _, _, _, ⟨[1, 1], [2], rfl, by decide⟩, rfl, rfl, rfl, rfl, rfl⟩

end Lone

end GraphOptimizer
end FromScratch.Inference
