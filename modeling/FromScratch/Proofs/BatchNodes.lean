import FromScratch.Proofs.RowWise

/-! What one node makes of a batch, against what it makes of the rows. -/

namespace FromScratch.Inference
open Graph
open Lib (FiniteMap)
open InferenceSession (denote)

section Views
variable {F : Type} {model : Model F} {varies : Text → Prop} {whole : Prop}

/-- A node whose output varies, by what it reads. -/
inductive Varying (weights : FiniteMap Text (Tensor F)) (varies : Text → Prop) (node : Node F) : Prop
  | flatten {input : Text} {rest : List Text} (kind : node.opType = .flatten)
      (axis : node.getAttrInt (text "axis") 1 = .ok 1)
      (reads : node.inputs = input :: rest) (varying : varies input)
  | relu {input : Text} {rest : List Text} (kind : node.opType = .relu) (reads : node.inputs = input :: rest)
      (varying : varies input)
  | add {a b : Text} {rest : List Text} (kind : node.opType = .add) (reads : node.inputs = a :: b :: rest)
      (first : varies a) (second : varies b)
  | product {A B : Text} {rest : List Text} (kind : node.opType = .gemm ∨ node.opType = .gemmRelu)
      (plain : node.getAttrInt (text "transA") 0 = .ok 0) (reads : node.inputs = A :: B :: rest) (varying : varies A)
      (weighted : Weighted weights node B rest.head?)

namespace Batched
variable {owner output : Text} {node : Node F}

theorem varying (batched : Batched model varies whole) (has : model.graph.Has owner node) (written : output ∈ node.outputs)
    (varying : varies output) : Varying model.initializers varies node := by
  have rowWise := batched.nodes owner node has
  obtain ⟨fed, operands⟩ := (batched.spreads owner node has output written).mp varying
  rw [rowOperands] at fed operands
  cases kind : node.opType with
  | flatten =>
    rw [Node.RowWise, kind] at rowWise
    rw [kind] at fed operands
    cases reads : node.inputs with
    | nil =>
      rw [reads] at fed
      exact absurd rfl fed
    | cons input rest => exact .flatten kind rowWise reads (operands input (by rw [reads]; exact List.mem_cons_self))
  | relu =>
    rw [kind] at fed operands
    cases reads : node.inputs with
    | nil =>
      rw [reads] at fed
      exact absurd rfl fed
    | cons input rest => exact .relu kind reads (operands input (by rw [reads]; exact List.mem_cons_self))
  | add =>
    rw [Node.RowWise, kind] at rowWise
    obtain ⟨a, b, rest, reads, first, second⟩ := rowWise
    exact .add kind reads first second
  | gemm =>
    obtain ⟨plain, A, B, rest, reads, varying, weighted⟩ := rowWise.product (.inl kind)
    exact .product (.inl kind) plain reads varying weighted
  | gemmRelu =>
    obtain ⟨plain, A, B, rest, reads, varying, weighted⟩ := rowWise.product (.inr kind)
    exact .product (.inr kind) plain reads varying weighted
  | unknown =>
    rw [Node.RowWise, kind] at rowWise
    exact rowWise.elim

end Batched
end Views

section Denote
variable {F : Type} [Scalar F] {provider : Provider} {node : Node F} {a b : Text} {rest : List Text}

theorem denote_relu (kind : node.opType = .relu) (reads : node.inputs = a :: rest) (store : Text → Tensor F) :
    denote provider node (node.inputs.map store) = Provider.computeRelu (store a) Tensor.empty := by
  rw [denote, Provider.compute, kind, reads]
  rfl

theorem denote_flatten (kind : node.opType = .flatten) (reads : node.inputs = a :: rest) (store : Text → Tensor F) :
    denote provider node (node.inputs.map store) = Provider.computeFlatten node (store a) Tensor.empty := by
  rw [denote, Provider.compute, kind, reads]
  rfl

theorem denote_add (kind : node.opType = .add) (reads : node.inputs = a :: b :: rest) (store : Text → Tensor F) :
    denote provider node (node.inputs.map store) = Provider.computeAdd (store a) (store b) Tensor.empty := by
  rw [denote, Provider.compute, kind, reads]
  rfl

/-- The threads do not matter here. -/
def serial : Gemm.Threads F := ⟨none, fun _ => ⟨[], []⟩⟩

theorem denote_product (kind : node.opType = .gemm ∨ node.opType = .gemmRelu) (reads : node.inputs = a :: b :: rest)
    (store : Text → Tensor F) : denote provider node (node.inputs.map store) =
      Provider.gemmParams node (decide (node.opType = .gemmRelu)) >>= fun params =>
        Gemm.compute (store a) (store b)
          ((rest.map store).headD Tensor.empty) Tensor.empty params provider.gemmStrategy serial := by
  rw [denote, Provider.compute, reads]
  rcases kind with kind | kind
  · rw [kind]
    rfl
  · rw [kind]
    rfl

theorem gemmParams_plain {fuseRelu : Bool} {params : GemmParams F} (plain : node.getAttrInt (text "transA") 0 = .ok 0)
    (found : Provider.gemmParams node fuseRelu = .ok params) : params.transA = false ∧
      ∃ transB, node.getAttrInt (text "transB") 0 = .ok transB ∧ params.transB = decide (transB ≠ 0) := by
  obtain ⟨transA, first, found⟩ := Lib.bind_ok found
  obtain ⟨transB, second, found⟩ := Lib.bind_ok found
  obtain ⟨alpha, _, found⟩ := Lib.bind_ok found
  obtain ⟨beta, _, found⟩ := Lib.bind_ok found
  cases found
  cases plain.symm.trans first
  exact ⟨rfl, transB, second, rfl⟩

end Denote

section Weights
variable {F : Type} {weights : FiniteMap Text (Tensor F)} {node : Node F} {B : Text} {rest : List Text}

theorem Weighted.mem {bias : Option Text} (weighted : Weighted weights node B bias) : B ∈ weights := by
  obtain ⟨matrix, held, _⟩ := weighted
  exact (FiniteMap.mem_iff_lookup _ _).mpr ⟨matrix, held⟩

/-- The bias is a weight, if there is one. -/
theorem Weighted.bias_congr {first second : Text → Tensor F} (weighted : Weighted weights node B rest.head?)
    (same : ∀ name ∈ rest, name ∈ weights → first name = second name) :
    (rest.map first).headD Tensor.empty = (rest.map second).headD Tensor.empty := by
  cases rest with
  | nil => rfl
  | cons name rest =>
    obtain ⟨_, _, biased⟩ := weighted
    obtain ⟨vector, present, _⟩ := biased name rfl
    exact same name List.mem_cons_self ((FiniteMap.mem_iff_lookup _ _).mpr ⟨vector, present⟩)

end Weights

namespace Batched
variable {provider : Provider} {owner output : Text} {n : UInt64}

/-- What does not vary is made of what does not vary. -/
theorem denote_fixed {F : Type} [Scalar F] {model : Model F} {varies : Text → Prop} {whole : Prop} {node : Node F}
    {first second : Text → Tensor F} (batched : Batched model varies whole) (has : model.graph.Has owner node)
    (written : output ∈ node.outputs) (fixed : ¬varies output)
    (same : ∀ read ∈ node.inputs, ¬varies read → first read = second read) :
    denote provider node (node.inputs.map first) = denote provider node (node.inputs.map second) := by
  have rowWise := batched.nodes owner node has
  have spreads := batched.spreads owner node has output written
  have single : ∀ input rest, node.inputs = input :: rest → rowOperands node = [input] → first input = second input := by
    intro input rest reads operands
    refine same input (by rw [reads]; exact List.mem_cons_self) fun varying => fixed (spreads.mpr ?_)
    rw [operands]
    exact ⟨List.cons_ne_nil _ _, List.forall_mem_singleton.mpr varying⟩
  have produced : node.opType = .gemm ∨ node.opType = .gemmRelu → varies output := by
    intro product
    obtain ⟨_, A, _, _, reads, varying, _⟩ := rowWise.product product
    refine spreads.mpr ?_
    have operands : rowOperands node = [A] := by
      rw [rowOperands, reads]
      rcases product with kind | kind
      · rw [kind]
        rfl
      · rw [kind]
        rfl
    rw [operands]
    exact ⟨List.cons_ne_nil _ _, List.forall_mem_singleton.mpr varying⟩
  cases kind : node.opType with
  | flatten =>
    cases reads : node.inputs with
    | nil => rfl
    | cons input rest =>
      rw [← reads, denote_flatten kind reads, denote_flatten kind reads,
        single input rest reads (by rw [rowOperands, kind, reads]; rfl)]
  | relu =>
    cases reads : node.inputs with
    | nil => rfl
    | cons input rest =>
      rw [← reads, denote_relu kind reads, denote_relu kind reads,
        single input rest reads (by rw [rowOperands, kind, reads]; rfl)]
  | add =>
    rw [Node.RowWise, kind] at rowWise
    obtain ⟨a, b, rest, reads, left, right⟩ := rowWise
    refine absurd (spreads.mpr ?_) fixed
    rw [rowOperands, kind, reads]
    exact ⟨List.cons_ne_nil _ _, List.forall_mem_cons.mpr ⟨left, List.forall_mem_singleton.mpr right⟩⟩
  | gemm => exact absurd (produced (.inl kind)) fixed
  | gemmRelu => exact absurd (produced (.inr kind)) fixed
  | unknown =>
    rw [Node.RowWise, kind] at rowWise
    exact rowWise.elim

variable {model : Model ℚ} {varies : Text → Prop} {whole : Prop} {node : Node ℚ} {store : Text → Tensor ℚ}

/-- The bias of a product of a batch, as the slots hold it. -/
theorem bias_perColumn {weights : FiniteMap Text (Tensor ℚ)} {B : Text} {rest : List Text} {params : GemmParams ℚ}
    {fuseRelu : Bool}
    (weighted : Weighted weights node B rest.head?) (plain : node.getAttrInt (text "transA") 0 = .ok 0)
    (held : ∀ name tensor, weights.lookup name = some tensor → store name = tensor)
    (found : Provider.gemmParams node fuseRelu = .ok params) :
    weights.lookup B = some (store B) ∧ Gemm.PerColumn (store B) ((rest.map store).headD Tensor.empty) params.transB := by
  obtain ⟨matrix, lookup, biased⟩ := weighted
  obtain ⟨_, transB, listed, same⟩ := gemmParams_plain plain found
  rw [held B matrix lookup]
  refine ⟨lookup, ?_⟩
  cases rest with
  | nil => exact .inl rfl
  | cons name rest =>
    obtain ⟨vector, present, fitting⟩ := biased name rfl
    rw [same, List.map_cons, List.headD_cons, held name vector present]
    exact fitting transB listed

theorem denote_splits {rows : Nat → Text → Tensor ℚ} (batched : Batched model varies (provider.gemmStrategy = .auto))
    (fed : 0 < n.toNat)
    (has : model.graph.Has owner node) (written : output ∈ node.outputs) (varying : varies output)
    (held : ∀ name tensor, model.initializers.lookup name = some tensor → store name = tensor)
    (aligned : ∀ read ∈ node.inputs, varies read → Stacked n (store read) fun i => rows i read)
    (shared : ∀ read ∈ node.inputs, ¬varies read → ∀ i, i < n.toNat → rows i read = store read) :
    Splits n (denote provider node (node.inputs.map store)) fun i => denote provider node (node.inputs.map (rows i)) := by
  cases batched.varying has written varying with
  | flatten kind axis reads varying =>
    simp only [denote_flatten kind reads]
    exact Provider.splits_flatten fed axis (aligned _ (by rw [reads]; exact List.mem_cons_self) varying)
  | relu kind reads varying =>
    simp only [denote_relu kind reads]
    exact Provider.splits_relu fed (aligned _ (by rw [reads]; exact List.mem_cons_self) varying)
  | add kind reads first second =>
    simp only [denote_add kind reads]
    exact Provider.splits_add fed (aligned _ (by rw [reads]; exact List.mem_cons_self) first)
      (aligned _ (by rw [reads]; exact List.mem_cons_of_mem _ List.mem_cons_self) second)
  | @product A B rest kind plain reads varying weighted =>
    simp only [denote_product kind reads]
    intro result returned
    obtain ⟨params, found, returned⟩ := Lib.bind_ok returned
    obtain ⟨lookup, fitting⟩ := bias_perColumn weighted plain held found
    have stacked := aligned A (by rw [reads]; exact List.mem_cons_self) varying
    have whole : provider.gemmStrategy = .auto → (store B).Whole :=
      fun automatic => batched.whole automatic owner node has kind B _ (by rw [reads]; rfl) lookup
    obtain ⟨row, laid, each⟩ := Gemm.splits_compute fed
      (gemmParams_plain plain found).1 stacked fitting whole serial result returned
    refine ⟨row, laid, fun i inside => ?_⟩
    have weight : ∀ name ∈ node.inputs, name ∈ model.initializers → rows i name = store name :=
      fun name member present => shared name member (batched.fixed name present) i inside
    have bias := weighted.bias_congr fun name listed =>
      weight name (by rw [reads]; exact List.mem_cons_of_mem _ (List.mem_cons_of_mem _ listed))
    beta_reduce
    rw [found, bias, weight B (by rw [reads]; exact List.mem_cons_of_mem _ List.mem_cons_self) weighted.mem]
    exact each i inside

/-- A node that can be run on a row can be run on a batch of such rows. -/
theorem denote_widens {single : Text → Tensor ℚ} {result : Tensor ℚ} (batched : Batched model varies whole)
    (full : model.Whole)
    (fed : 0 < n.toNat) (few : n.toNat ≤ Gemm.tileLimit) (has : model.graph.Has owner node) (written : output ∈ node.outputs)
    (varying : varies output) (held : ∀ name tensor, model.initializers.lookup name = some tensor → single name = tensor)
    (wide : ∀ read ∈ node.inputs, varies read → Wide n (store read) (single read))
    (shared : ∀ read ∈ node.inputs, ¬varies read → store read = single read)
    (made : denote provider node (node.inputs.map single) = .ok result) (fits : n.toNat * result.data.length * 4 < 2 ^ 64) :
    ∃ wider, denote provider node (node.inputs.map store) = .ok wider ∧ Wide n wider result := by
  cases batched.varying has written varying with
  | flatten kind axis reads varying =>
    rw [denote_flatten kind reads] at made ⊢
    exact Provider.widens_flatten fed axis (wide _ (by rw [reads]; exact List.mem_cons_self) varying) made
  | relu kind reads varying =>
    rw [denote_relu kind reads] at made ⊢
    exact Provider.widens_relu (wide _ (by rw [reads]; exact List.mem_cons_self) varying) made
  | add kind reads first second =>
    rw [denote_add kind reads] at made ⊢
    exact Provider.widens_add (wide _ (by rw [reads]; exact List.mem_cons_self) first)
      (wide _ (by rw [reads]; exact List.mem_cons_of_mem _ List.mem_cons_self) second) made
  | @product A B rest kind plain reads varying weighted =>
    rw [denote_product kind reads] at made ⊢
    obtain ⟨params, found, made⟩ := Lib.bind_ok made
    obtain ⟨lookup, _⟩ := bias_perColumn weighted plain held found
    have weight : ∀ name ∈ node.inputs, name ∈ model.initializers → store name = single name :=
      fun name member present => shared name member (batched.fixed name present)
    have bias := weighted.bias_congr fun name listed =>
      weight name (by rw [reads]; exact List.mem_cons_of_mem _ (List.mem_cons_of_mem _ listed))
    rw [found, bias, weight B (by rw [reads]; exact List.mem_cons_of_mem _ List.mem_cons_self) weighted.mem]
    exact Gemm.widens_compute (gemmParams_plain plain found).1 (wide A (by rw [reads]; exact List.mem_cons_self) varying)
      (full owner node has kind B _ (by rw [reads]; rfl) lookup) serial made few fits

end Batched
end FromScratch.Inference
