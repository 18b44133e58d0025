import Mathlib.Algebra.BigOperators.Fin
import FromScratch.Proofs.ExportedModel
import FromScratch.Proofs.BatchClients

/-! What the engine makes of an exported network. Where arithmetic is exact it is
what the network computes, for every image of every batch. -/

namespace FromScratch.Inference
open Lib (FiniteMap)
open Lib.Rows (joined joined_congr length_joined getD_joined map_joined zipWith_joined)

/-- The tensor holds a row for every image. -/
structure Holds {F : Type} {width : Nat} (n : UInt64) (rows : Nat → Fin width → F) (tensor : Tensor F) : Prop where
  shape : tensor.shape = [n, UInt64.ofNat width]
  data : tensor.data = joined n.toNat fun i => List.ofFn (rows i)

section Kernels
variable {n : UInt64} {width : Nat} {rows others : Nat → Fin width → ℚ} {tensor other : Tensor ℚ}

theorem Holds.length (holds : Holds n rows tensor) : tensor.data.length = n.toNat * width := by
  rw [holds.data]
  exact length_joined fun i _ => List.length_ofFn

theorem Holds.element (holds : Holds n rows tensor) {i : Nat} (inside : i < n.toNat) (j : Fin width) :
    tensor.data.getD (i * width + j) 0 = rows i j := by
  rw [holds.data, getD_joined (fun i _ => List.length_ofFn) inside j.isLt]
  simp

/-- There is room for so many rows. -/
theorem exists_holds (rows : Nat → Fin width → ℚ) (narrow : width < 2 ^ 64) (small : n.toNat * width * 4 < 2 ^ 64) :
    ∃ tensor : Tensor ℚ, Holds n rows tensor := by
  have length : (joined n.toNat fun i => List.ofFn (rows i)).length = n.toNat * width :=
    length_joined fun i _ => List.length_ofFn
  refine ⟨⟨[n, UInt64.ofNat width], joined n.toNat fun i => List.ofFn (rows i), ?_, by rwa [length]⟩, rfl, rfl⟩
  rw [length, Tensor.size_pair, UInt64.toNat_ofNat', Nat.mod_eq_of_lt narrow, Nat.mod_eq_of_lt (by omega)]

theorem holds_relu (holds : Holds n rows tensor) (result : Tensor ℚ) (made : Holds n (fun i => relu (rows i)) result) :
    Provider.computeRelu tensor Tensor.empty = .ok result := by
  refine Provider.relu_iff.mpr ⟨made.shape.trans holds.shape.symm, ?_⟩
  rw [made.data, holds.data, map_joined]
  refine joined_congr fun i _ => ?_
  rw [List.map_ofFn]
  rfl

theorem holds_add (first : Holds n rows tensor) (second : Holds n others other) (result : Tensor ℚ)
    (made : Holds n (fun i => rows i + others i) result) : Provider.computeAdd tensor other Tensor.empty = .ok result := by
  refine Provider.add_iff.mpr ⟨first.shape.trans second.shape.symm, made.shape.trans first.shape.symm, ?_⟩
  have lengths (i : Nat) (_ : i < n.toNat) : (List.ofFn (rows i)).length = (List.ofFn (others i)).length := by
    rw [List.length_ofFn, List.length_ofFn]
  rw [made.data, first.data, second.data, zipWith_joined _ lengths]
  refine joined_congr fun i _ => List.ext_getElem (by simp) fun j _ _ => ?_
  simp [Scalar.add]

theorem holds_flatten {node : Node ℚ} {input result : Tensor ℚ} {rest : List UInt64}
    (axis : node.getAttrInt (text "axis") 1 = .ok 1) (positive : 0 < n.toNat) (shape : input.shape = n :: rest)
    (width : (computeSize (1 :: rest)).toNat = width) (data : input.data = joined n.toNat fun i => List.ofFn (rows i))
    (made : Holds n rows result) : Provider.computeFlatten node input Tensor.empty = .ok result := by
  subst width
  have whole : input.data.length = n.toNat * (computeSize (1 :: rest)).toNat := by
    rw [data]
    exact length_joined fun i _ => List.length_ofFn
  refine (Provider.flatten_iff axis positive shape whole).mpr ⟨?_, made.data.trans data.symm⟩
  rw [made.shape, UInt64.ofNat_toNat]

theorem table_ofFn {F : Type} (d : Dims) (value : Nat → Nat → F) :
    Gemm.table d value = joined d.N fun i => List.ofFn fun j : Fin d.M => value i j := by
  rw [Gemm.table_rows]
  refine joined_congr fun i _ => List.ext_getElem (by simp [Gemm.table, Gemm.oneRow]) fun j first _ => ?_
  have column : j < d.M := by simpa [Gemm.table, Gemm.oneRow] using first
  simp [Gemm.table, Gemm.oneRow, Nat.mod_eq_of_lt column]

/-- An element of the product is what the layer gives that feature. -/
theorem expected_linear {inFeatures outFeatures : Nat} (layer : Linear ℚ inFeatures outFeatures)
    {rows : Nat → Fin inFeatures → ℚ} {A : Tensor ℚ} (holds : Holds n rows A) {i : Nat} (row : i < n.toNat)
    (j : Fin outFeatures) :
    Gemm.expected A.data (Exporter.contiguous layer.weight) (List.ofFn layer.bias) ⟨n.toNat, inFeatures, outFeatures⟩
      ⟨false, true, 1, 1, false⟩ i j = layer.forward (rows i) j := by
  have product : Gemm.product A.data (Exporter.contiguous layer.weight) ⟨n.toNat, inFeatures, outFeatures⟩
      ⟨false, true, 1, 1, false⟩ i j = ∑ k : Fin inFeatures, layer.weight j k * rows i k := by
    rw [Gemm.product, Finset.sum_range]
    refine Finset.sum_congr rfl fun k _ => ?_
    simp only [Gemm.left, Gemm.right, Bool.false_eq_true, if_false, if_true]
    rw [holds.element row, Exporter.contiguous_getD, mul_comm]
  have bias : Gemm.biasTerm (List.ofFn layer.bias) ⟨n.toNat, inFeatures, outFeatures⟩ i j = layer.bias j := by
    rw [Gemm.biasTerm, if_pos (List.length_ofFn)]
    simp
  simp [Gemm.expected, product, bias, Linear.forward, Matrix.mulVec, dotProduct]

/-- The product with the weight, which is stored transposed, and the bias added. -/
theorem holds_linear {inFeatures outFeatures : Nat} (layer : Linear ℚ inFeatures outFeatures)
    {rows : Nat → Fin inFeatures → ℚ} {A W b result : Tensor ℚ} (holds : Holds n rows A)
    (weight : W.shape = [UInt64.ofNat outFeatures, UInt64.ofNat inFeatures] ∧ W.data = Exporter.contiguous layer.weight)
    (bias : b.data = List.ofFn layer.bias) (wide : 0 < inFeatures) (narrow : inFeatures < 2 ^ 64)
    (short : outFeatures < 2 ^ 64)
    (made : Holds n (fun i => layer.forward (rows i)) result) (strategy : GemmStrategy) (threads : Gemm.Threads ℚ) :
    Gemm.compute A W b Tensor.empty ⟨false, true, 1, 1, false⟩ strategy threads = .ok result := by
  have depth : (UInt64.ofNat inFeatures).toNat = inFeatures := by rw [UInt64.toNat_ofNat', Nat.mod_eq_of_lt narrow]
  have columns : (UInt64.ofNat outFeatures).toNat = outFeatures := by rw [UInt64.toNat_ofNat', Nat.mod_eq_of_lt short]
  let d : Dims := ⟨n.toNat, inFeatures, outFeatures⟩
  have accepted : Gemm.validate A W b ⟨false, true, 1, 1, false⟩ = .ok () := by
    refine Gemm.validate_of_shapes holds.shape weight.1 rfl (Or.inr ?_)
    rw [bias, List.length_ofFn]
    exact columns.symm
  have dims : Gemm.resolveDims A W ⟨false, true, 1, 1, false⟩ = .ok d := by
    rw [Gemm.resolveDims_pair holds.shape weight.1]
    simp [d, depth, columns]
  have stored : Gemm.Stored A.data W.data d := by
    refine ⟨holds.length, ?_, A.fits, W.fits⟩
    rw [weight.2, Exporter.contiguous_length, Nat.mul_comm]
  have room := A.fits
  have fits := result.fits
  rw [holds.length] at room
  rw [made.length] at fits
  have small : d.N * d.M < 2 ^ 64 := Nat.lt_of_le_of_lt (Nat.le_mul_of_pos_right _ (by decide)) fits
  have few : n.toNat ≤ Gemm.tileLimit := by
    have all : n.toNat ≤ n.toNat * inFeatures := Nat.le_mul_of_pos_right _ wide
    simp only [Gemm.tileLimit]
    omega
  have defined : Gemm.Defined (Gemm.chosen strategy d) A.data W.data d ⟨false, true, 1, 1, false⟩ :=
    ⟨fits, fun _ => few, fun i row => Gemm.rowReady_of_stored stored row⟩
  refine (Gemm.compute_ok_iff accepted dims).mpr ⟨defined, ?_, ?_⟩
  · rw [made.shape]
    simp [Gemm.resultShape, d]
  · rw [made.data, table_ofFn]
    refine joined_congr fun i row => congrArg List.ofFn (funext fun j => ?_)
    rw [Gemm.entry_eq stored (Gemm.chosen_ne_auto strategy d) row j.isLt, Gemm.finish_eq small row j.isLt, bias, weight.2]
    exact (expected_linear layer holds row j).symm

end Kernels

/-- The session a model is prepared for runs one model, whatever the requests will be. -/
theorem Valued.prepared {F : Type} [Scalar F] {provider : Provider} {store : Text → Tensor F} {inputName outputName : Text}
    {input : Tensor F} {rank : Text → ℕ} {model : Model F}
    (valued : Valued provider store inputName outputName input rank model)
    (config : SessionConfig) (platform : Platform F) (initializers : FiniteMap.Traversal Text (Tensor F)) :
    ∃ ready session slots, InferenceSession.prepare config platform initializers provider model = .ok (session, slots) ∧
      InferenceSession.Scheduled ready session slots ∧ ∀ store input rank,
        Valued provider store inputName outputName input rank model →
          Valued provider store inputName outputName input rank ready := by
  have named : ∃ names, InferenceSession.ends model.graph = .ok names := by
    have first := valued.firstInput
    have last := valued.firstOutput
    rw [InferenceSession.ends]
    cases starts : model.graph.inputs with
    | nil =>
      rw [starts] at first
      cases first
    | cons name names =>
      cases ends : model.graph.outputs with
      | nil =>
        rw [ends] at last
        cases last
      | cons shown others => exact ⟨_, rfl⟩
  obtain ⟨names, named⟩ := named
  unfold InferenceSession.prepare
  rw [named]
  cases optimized : config.graphOptimization with
  | false =>
    obtain ⟨session, slots, made⟩ := valued.schedule_ok initializers config.parallel
    exact ⟨model, session, slots, made, (InferenceSession.schedule_sound made).1, fun _ _ _ => id⟩
  | true =>
    obtain ⟨ready, report, ran, kept⟩ := valued.run_ok config.optimizerOptions platform
    obtain ⟨session, slots, made⟩ := kept.schedule_ok initializers config.parallel
    refine ⟨ready, session, slots, ?_, (InferenceSession.schedule_sound made).1, fun store input rank other => ?_⟩
    · change (GraphOptimizer.run config.optimizerOptions platform provider model >>= fun optimized => _) = _
      rw [ran]
      exact made
    · obtain ⟨result, _, again, kept⟩ := other.run_ok config.optimizerOptions platform
      rw [ran] at again
      cases again
      exact kept

namespace Exporter

section Network
variable {net : Net ℚ} {n : UInt64} {images : Nat → Fin 784 → ℚ}

/-- The tensors of a run: the parameters, and a row for every image under the name
of each node's output. -/
structure Run (net : Net ℚ) (n : UInt64) (images : Nat → Fin 784 → ℚ) where
  flat : Tensor ℚ
  fc1 : Tensor ℚ
  relu1 : Tensor ℚ
  fc2Left : Tensor ℚ
  relu2 : Tensor ℚ
  left : Tensor ℚ
  right : Tensor ℚ
  add : Tensor ℚ
  output : Tensor ℚ
  holds_flat : Holds n images flat
  holds_fc1 : Holds n (fun i => net.fc1.forward (images i)) fc1
  holds_relu1 : Holds n (fun i => relu (net.fc1.forward (images i))) relu1
  holds_fc2Left : Holds n (fun i => net.fc2Left.forward (relu (net.fc1.forward (images i)))) fc2Left
  holds_relu2 : Holds n (fun i => relu (net.fc2Left.forward (relu (net.fc1.forward (images i))))) relu2
  holds_left : Holds n (fun i => net.fc2Left2.forward (relu (net.fc2Left.forward (relu (net.fc1.forward (images i)))))) left
  holds_right : Holds n (fun i => net.fc2Right.forward (relu (net.fc1.forward (images i)))) right
  holds_add : Holds n (fun i => net.fc2Left2.forward (relu (net.fc2Left.forward (relu (net.fc1.forward (images i))))) +
    net.fc2Right.forward (relu (net.fc1.forward (images i)))) add
  holds_output : Holds n (fun i => net.forward (images i)) output

namespace Run
variable (run : Run net n images)

theorem exists_run (positive : 0 < n.toNat) (small : n.toNat * 784 * 4 < 2 ^ 64) : Nonempty (Run net n images) := by
  have room {width : Nat} (narrow : width ≤ 784) (rows : Nat → Fin width → ℚ) : ∃ tensor :
    Tensor ℚ, Holds n rows tensor := by
    refine exists_holds rows (by omega) (lt_of_le_of_lt ?_ small)
    exact Nat.mul_le_mul_right 4 (Nat.mul_le_mul_left n.toNat narrow)
  obtain ⟨flat, holds_flat⟩ := room (by decide) images
  obtain ⟨fc1, holds_fc1⟩ := room (by decide) fun i => net.fc1.forward (images i)
  obtain ⟨relu1, holds_relu1⟩ := room (by decide) fun i => relu (net.fc1.forward (images i))
  obtain ⟨fc2Left, holds_fc2Left⟩ := room (by decide) fun i => net.fc2Left.forward (relu (net.fc1.forward (images i)))
  obtain ⟨relu2, holds_relu2⟩ := room (by decide) fun i => relu (net.fc2Left.forward (relu (net.fc1.forward (images i))))
  obtain ⟨left, holds_left⟩ := room (by decide)
    fun i => net.fc2Left2.forward (relu (net.fc2Left.forward (relu (net.fc1.forward (images i)))))
  obtain ⟨right, holds_right⟩ := room (by decide) fun i => net.fc2Right.forward (relu (net.fc1.forward (images i)))
  obtain ⟨add, holds_add⟩ := room (by decide) fun i =>
    net.fc2Left2.forward (relu (net.fc2Left.forward (relu (net.fc1.forward (images i))))) +
      net.fc2Right.forward (relu (net.fc1.forward (images i)))
  obtain ⟨output, holds_output⟩ := room (by decide) fun i => net.forward (images i)
  exact ⟨⟨flat, fc1, relu1, fc2Left, relu2, left, right, add, output, holds_flat, holds_fc1, holds_relu1, holds_fc2Left,
    holds_relu2, holds_left, holds_right, holds_add, holds_output⟩⟩

/-- What a name of the graph stands for when the input is given. -/
def store (input : Tensor ℚ) (name : Text) : Tensor ℚ :=
  ((tensors net ++ [(text "input", input), (text "flatten_out", run.flat), (text "fc1_out", run.fc1),
    (text "relu1_out", run.relu1), (text "fc2_left_out", run.fc2Left), (text "relu2_out", run.relu2),
    (text "left_out", run.left), (text "right_out", run.right), (text "add_out", run.add),
    (text "output", run.output)]).lookup name).getD Tensor.empty

variable {run} {input : Tensor ℚ}

theorem store_held : ∀ initializer ∈ tensors net, run.store input initializer.1 = initializer.2 := by
  intro initializer member
  obtain ⟨before, after, split⟩ := List.append_of_mem member
  have distinct := names_distinct net
  rw [split, List.map_append, List.map_cons, List.nodup_append] at distinct
  have found : (tensors net).lookup initializer.1 = some initializer.2 := by
    refine List.lookup_eq_some_iff.mpr ⟨before, after, split, fun earlier here => ?_⟩
    rw [bne_iff_ne]
    exact (distinct.2.2 _ (List.mem_map_of_mem here) _ List.mem_cons_self).symm
  rw [store, List.lookup_append, found]
  rfl

theorem store_weight {inFeatures outFeatures : Nat} {name : String} {layer : Linear ℚ inFeatures outFeatures}
    (listed : weight name layer ∈ initializers net) : (run.store input (text name)).shape =
      [UInt64.ofNat outFeatures, UInt64.ofNat inFeatures] ∧ (run.store input (text name)).data =
      contiguous layer.weight := by
  have sound := initializers_sound net _ listed
  rw [show run.store input (text name) = _ from store_held _ (List.mem_map_of_mem listed)]
  exact ⟨sound.shape, sound.data⟩

theorem store_bias {inFeatures outFeatures : Nat} {name : String} {layer : Linear ℚ inFeatures outFeatures}
    (listed : bias name layer ∈ initializers net) : (run.store input (text name)).data = List.ofFn layer.bias := by
  rw [show run.store input (text name) = _ from store_held _ (List.mem_map_of_mem listed)]
  exact (initializers_sound net _ listed).data

/-- A node that stands for a layer gives its output the layer's rows. -/
theorem denote_linear {inFeatures outFeatures : Nat} {layer : Linear ℚ inFeatures outFeatures} {node : ExportedNode ℚ}
    {source target weightName biasName : String} {rows : Nat → Fin inFeatures → ℚ} {provider : Provider}
    (denotes : ∀ A W b, InferenceSession.denote provider node.node [A, W, b] =
      Gemm.compute A W b Tensor.empty ⟨false, true, 1, 1, false⟩ provider.gemmStrategy ⟨none, fun _ => ⟨[], []⟩⟩)
    (inputs : node.inputs = [source, weightName, biasName])
    (weighted : weight weightName layer ∈ initializers net) (biased : bias biasName layer ∈ initializers net)
    (wide : 0 < inFeatures) (narrow : inFeatures < 2 ^ 64) (short : outFeatures < 2 ^ 64)
    (holds : Holds n rows (run.store input (text source)))
    (made : Holds n (fun i => layer.forward (rows i)) (run.store input (text target))) :
    InferenceSession.denote provider node.node (node.node.inputs.map (run.store input)) =
      .ok (run.store input (text target)) := by
  rw [show node.node.inputs = [text source, text weightName, text biasName] from congrArg (List.map text) inputs]
  exact (denotes _ _ _).trans
    (holds_linear layer holds (store_weight weighted) (store_bias biased) wide narrow short made _ _)

end Run

variable {run : Run net n images} {input : Tensor ℚ} {provider : Provider} {rest : List UInt64}

/-- Each node makes of what its inputs stand for what its output stands for. -/
theorem run_values (positive : 0 < n.toNat)
    (shape : input.shape = n :: rest) (width : (computeSize (1 :: rest)).toNat = 784)
    (data : input.data = joined n.toNat fun i => List.ofFn (images i)) :
    ∀ node ∈ (nodes ℚ).map ExportedNode.node, Provider.supports node.opType = true ∧ ∃ output, node.outputs = [output] ∧
      InferenceSession.denote provider node (node.inputs.map (run.store input)) = .ok (run.store input output) := by
  let value (node : ExportedNode ℚ) (output : String) : Prop := InferenceSession.denote provider node.node
    (node.node.inputs.map (run.store input)) = .ok (run.store input (text output))
  have listed (i : Nat) (parameter : Parameter ℚ) (here : (initializers net)[i]? = some parameter) :
      parameter ∈ initializers net := List.mem_of_getElem? here
  have flatten : value (nodes ℚ)[0] "flatten_out" := holds_flatten rfl positive shape width data run.holds_flat
  have fc1 : value (nodes ℚ)[1] "fc1_out" := Run.denote_linear (fun _ _ _ => rfl) rfl (listed 0 _ rfl) (listed 1 _ rfl)
    (by decide) (by decide) (by decide) run.holds_flat run.holds_fc1
  have relu1 : value (nodes ℚ)[2] "relu1_out" := holds_relu run.holds_fc1 _ run.holds_relu1
  have fc2Left : value (nodes ℚ)[3] "fc2_left_out" := Run.denote_linear (fun _ _ _ => rfl) rfl (listed 2 _ rfl)
    (listed 3 _ rfl) (by decide) (by decide) (by decide) run.holds_relu1 run.holds_fc2Left
  have relu2 : value (nodes ℚ)[4] "relu2_out" := holds_relu run.holds_fc2Left _ run.holds_relu2
  have left : value (nodes ℚ)[5] "left_out" := Run.denote_linear (fun _ _ _ => rfl) rfl (listed 4 _ rfl)
    (listed 5 _ rfl) (by decide) (by decide) (by decide) run.holds_relu2 run.holds_left
  have right : value (nodes ℚ)[6] "right_out" := Run.denote_linear (fun _ _ _ => rfl) rfl (listed 6 _ rfl)
    (listed 7 _ rfl) (by decide) (by decide) (by decide) run.holds_relu1 run.holds_right
  have add : value (nodes ℚ)[7] "add_out" := holds_add run.holds_left run.holds_right _ run.holds_add
  have fc3 : value (nodes ℚ)[8] "output" := Run.denote_linear (fun _ _ _ => rfl) rfl (listed 8 _ rfl)
    (listed 9 _ rfl) (by decide) (by decide) (by decide) run.holds_add run.holds_output
  change ∀ node ∈ [(nodes ℚ)[0].node, (nodes ℚ)[1].node, (nodes ℚ)[2].node, (nodes ℚ)[3].node, (nodes ℚ)[4].node,
    (nodes ℚ)[5].node,
    (nodes ℚ)[6].node, (nodes ℚ)[7].node, (nodes ℚ)[8].node], _
  simp only [List.forall_mem_cons]
  exact ⟨⟨rfl, _, rfl, flatten⟩, ⟨rfl, _, rfl, fc1⟩, ⟨rfl, _, rfl, relu1⟩, ⟨rfl, _, rfl, fc2Left⟩, ⟨rfl, _, rfl, relu2⟩,
    ⟨rfl, _, rfl, left⟩, ⟨rfl, _, rfl, right⟩, ⟨rfl, _, rfl, add⟩, ⟨rfl, _, rfl, fc3⟩, List.forall_mem_nil _⟩

/-- Every request has a fixed point of the model, and its output is the network's. -/
theorem valued {walk : FiniteMap.Traversal Text (NodeEntry ℚ)} (positive : 0 < n.toNat)
    (shape : input.shape = n :: rest) (width : (computeSize (1 :: rest)).toNat = 784)
    (data : input.data = joined n.toNat fun i => List.ofFn (images i)) :
    ∃ store rank, Valued provider store (text "input") (text "output") input rank (model walk net) ∧
      Holds n (fun i => net.forward (images i)) (store (text "output")) := by
  have length : input.data.length = n.toNat * 784 := by
    rw [data]
    exact Lib.Rows.length_joined fun i _ => List.length_ofFn
  obtain ⟨run⟩ := @Run.exists_run net n images positive (length ▸ input.fits)
  obtain ⟨rank, valued⟩ := Valued.of_listed (tidy net) nodes_made (names_distinct net) (run_values positive shape width data)
    Run.store_held rfl (reads_known net)
  exact ⟨run.store input, rank, valued, run.holds_output⟩

end Network

/-- What a session of an exported network returns when it is run. -/
def Answers (net : Net ℚ) (provider : Provider) (session : Session ℚ) (ready : Model ℚ) (slots : Slots ℚ) : Prop :=
  ∀ (n : UInt64) (images : Nat → Fin 784 → ℚ) (input : Tensor ℚ) (rest : List UInt64), 0 < n.toNat →
    input.shape = n :: rest → (computeSize (1 :: rest)).toNat = 784 →
      (input.data = joined n.toNat fun i => List.ofFn (images i)) →
        ∀ call tensors, InferenceSession.Settled ready session slots tensors →
          ∃ after answer, InferenceSession.run provider session call input tensors = .ok (after, .ok answer) ∧
            Holds n (fun i => net.forward (images i)) answer

theorem exists_session (net : Net ℚ) (walk : FiniteMap.Traversal Text (NodeEntry ℚ)) (config : SessionConfig)
    (platform : Platform ℚ) (initializers : FiniteMap.Traversal Text (Tensor ℚ)) (provider : Provider) :
    ∃ ready session slots, InferenceSession.prepare config platform initializers provider (model walk net) =
      .ok (session, slots) ∧ InferenceSession.Scheduled ready session slots ∧ Answers net provider session ready slots := by
  obtain ⟨blank, holds⟩ := @exists_holds 1 784 (fun _ _ => 0) (by decide) (by decide)
  obtain ⟨_, _, first, _⟩ := @valued net 1 (fun _ _ => 0) blank provider [784] walk (by decide) holds.shape rfl holds.data
  obtain ⟨ready, session, slots, made, scheduled, kept⟩ := first.prepared config platform initializers
  refine ⟨ready, session, slots, made, scheduled,
    fun n images input rest positive shape width data call tensors settled => ?_⟩
  obtain ⟨store, rank, given, answer⟩ := @valued net n images input provider rest walk positive shape width data
  have nonempty : input.size ≠ 0 := by
    intro empty
    have sized := input.sized
    rw [show computeSize input.shape = 0 from empty, data, length_joined fun i _ => List.length_ofFn] at sized
    exact absurd sized (Nat.mul_pos positive (by decide)).ne'
  obtain ⟨after, ran⟩ := (kept _ _ _ given).run_returns scheduled settled nonempty call
  exact ⟨after, _, ran, answer⟩

/-- An engine that has been given an exported network answers every request of
images with the outputs of the network, row by row: with the optimizer on or off,
sequentially or in parallel, and whatever it answered before. -/
theorem engine_answers (net : Net ℚ) (walk : FiniteMap.Traversal Text (NodeEntry ℚ)) (config : SessionConfig)
    (platform : Platform ℚ) (initializers : FiniteMap.Traversal Text (Tensor ℚ)) (provider : Provider) (maxBatch : UInt64) :
    ∃ session slots, InferenceSession.prepare config platform initializers provider (model walk net) = .ok (session, slots) ∧
      ∀ (n : UInt64) (images : Nat → Fin 784 → ℚ) (input : Tensor ℚ) (rest : List UInt64), 0 < n.toNat → n ≤ maxBatch →
        input.shape = n :: rest → (computeSize (1 :: rest)).toNat = 784 →
          (input.data = joined n.toNat fun i => List.ofFn (images i)) →
            ∀ call tensors, InferenceEngine.Reached provider session slots tensors →
              ∃ after answer, InferenceEngine.inferBatch maxBatch provider session call input tensors =
                .ok (after, .ok answer) ∧ Holds n (fun i => net.forward (images i)) answer := by
  obtain ⟨ready, session, slots, made, scheduled, runs⟩ := exists_session net walk config platform initializers provider
  refine ⟨session, slots, made, fun n images input rest positive few shape width data call tensors reached => ?_⟩
  obtain ⟨after, answer, ran, holds⟩ := runs n images input rest positive shape width data call tensors
    (InferenceEngine.reached_settled scheduled reached)
  exact ⟨after, answer, (InferenceEngine.inferBatch_ok_iff shape).mpr ⟨few, ran⟩, holds⟩

end Exporter
end FromScratch.Inference
