import FromScratch.Inference.Provider
import FromScratch.Proofs.GemmSharding

/-! A kernel may reuse the buffer of an earlier call. Unless it leaves its
buffers, its result does not depend on what that buffer was, nor on the threads
it ran on. -/

namespace FromScratch.Inference
open Lib (FailsWith)
open Gemm (Silent Threads)

namespace Tensor
variable {F : Type}

/-- A copy that fills the buffer leaves nothing of what it held. -/
theorem copyFrom_full {tensor filled : Tensor F} (same : tensor.shape = filled.shape) :
    tensor.copyFrom filled.data = .ok filled := by
  have long : filled.data.length = tensor.data.length := by rw [filled.sized, tensor.sized, same]
  rw [copyFrom, dif_pos (le_of_eq long)]
  refine congrArg Except.ok (Tensor.ext same ?_)
  simp [long]

theorem copyFrom_short {tensor : Tensor F} {values : List F} (short : tensor.data.length < values.length) :
    tensor.copyFrom values = .error .undefined := by
  rw [copyFrom, dif_neg (by omega)]

end Tensor

namespace Provider
variable {F : Type} [Scalar F]

/-- What is true of a kernel, given its threads and the buffer it writes to. The
condition is that it stays inside its buffers. -/
structure Reuses (run : Threads F → Tensor F → Except Fault (Tensor F)) (inside : Prop) : Prop where
  same : inside → ∀ threads output others buffer, run threads output = run others buffer
  thrown : inside → ∀ threads output fault, run threads output = .error fault → fault.Thrown
  outside : ¬inside → ∀ threads output, ∃ fault, run threads output = .error fault
  silent : ¬inside → ∀ threads, ∃ fault, run threads Tensor.empty = .error fault ∧ ¬fault.Thrown

namespace Reuses
variable {run : Threads F → Tensor F → Except Fault (Tensor F)} {inside : Prop}

omit [Scalar F] in
theorem returns (result : Tensor F) (always : ∀ threads output, run threads output = .ok result) : Reuses run True where
  same _ threads output others buffer := (always threads output).trans (always others buffer).symm
  thrown _ threads output fault failed := by cases (always threads output).symm.trans failed
  outside never := absurd trivial never
  silent never := absurd trivial never

omit [Scalar F] in
theorem throws {fault : Fault} (thrown : fault.Thrown) (always : ∀ threads output, run threads output = .error fault) :
    Reuses run True where
  same _ threads output others buffer := (always threads output).trans (always others buffer).symm
  thrown _ threads output other failed := by
    cases (always threads output).symm.trans failed
    exact thrown
  outside never := absurd trivial never
  silent never := absurd trivial never

omit [Scalar F] in
theorem mono {other : Prop} (reuses : Reuses run inside) (iff : inside ↔ other) : Reuses run other := by
  rwa [← propext iff]

omit [Scalar F] in
/-- Arguments are looked up first, whatever the buffer. -/
theorem before {α : Type} {lookup : Except Fault α} {next : α → Threads F → Tensor F → Except Fault (Tensor F)}
    {inside : α → Prop} (thrown : FailsWith Fault.Thrown lookup)
    (each : ∀ found, lookup = .ok found → Reuses (next found) (inside found)) :
    Reuses (fun threads output => lookup >>= fun found => next found threads output)
      (∀ found, lookup = .ok found → inside found) := by
  cases ran : lookup with
  | error fault => exact (throws (thrown fault ran) fun _ _ => rfl).mono (iff_of_true trivial nofun)
  | ok found =>
    have rest := each found ran
    exact rest.mono ⟨fun holds other same => by cases same; exact holds, fun all => all found rfl⟩

end Reuses

section Arguments

omit [Scalar F] in
theorem thrown_operand (inputs : List (Tensor F)) (index : Nat) : FailsWith Fault.Thrown (operand inputs index) := by
  rw [operand]
  split
  · exact FailsWith.ok _
  · exact FailsWith.error trivial

omit [Scalar F] in
theorem thrown_getAttrInt (node : Node F) (key : Text) (default : Int64) :
    FailsWith Fault.Thrown (node.getAttrInt key default) := by
  rw [Node.getAttrInt]
  split
  · exact FailsWith.ok _
  next value _ =>
    cases value with
    | int value => exact FailsWith.ok value
    | float value => exact FailsWith.error trivial
    | ints values => exact FailsWith.error trivial

omit [Scalar F] in
theorem thrown_getAttrFloat (node : Node F) (key : Text) (default : F) :
    FailsWith Fault.Thrown (node.getAttrFloat key default) := by
  rw [Node.getAttrFloat]
  split
  · exact FailsWith.ok _
  next value _ =>
    cases value with
    | int value => exact FailsWith.error trivial
    | float value => exact FailsWith.ok value
    | ints values => exact FailsWith.error trivial

omit [Scalar F] in
theorem thrown_flattenDims (node : Node F) (input : Tensor F) : FailsWith Fault.Thrown (flattenDims node input) := by
  refine FailsWith.bind ?_ fun axis _ => FailsWith.ok _
  refine (thrown_getAttrInt node _ _).bind fun attr _ => ?_
  simp only []
  generalize (if attr.toInt < 0 then attr.toInt + (input.rank : Int) else attr.toInt) = axis
  split
  · exact FailsWith.error trivial
  · exact FailsWith.ok _

theorem thrown_gemmParams (node : Node F) (fuseRelu : Bool) : FailsWith Fault.Thrown (gemmParams node fuseRelu) :=
  (thrown_getAttrInt node _ _).bind fun _ _ => (thrown_getAttrInt node _ _).bind fun _ _ =>
    (thrown_getAttrFloat node _ _).bind fun _ _ => (thrown_getAttrFloat node _ _).bind fun _ _ => FailsWith.ok _

end Arguments

section Kernels

/-- A kernel that fills a buffer of a shape some tensor has. -/
theorem fill_shaped (output result : Tensor F) :
    (ensureShape output result.shape >>= fun buffer => buffer.copyFrom result.data) = .ok result := by
  rw [ensureShape]
  by_cases same : output.shape = result.shape
  · rw [if_neg (not_not.mpr same)]
    exact Tensor.copyFrom_full same
  · obtain ⟨made, fresh⟩ := Tensor.filled_shape result Scalar.zero
    rw [if_pos same, fresh]
    exact Tensor.copyFrom_full (Tensor.filled_ok fresh).1

theorem relu_exact {input result : Tensor F} (shape : result.shape = input.shape)
    (data : result.data = input.data.map (Scalar.max Scalar.zero)) (output : Tensor F) :
    computeRelu input output = .ok result := by
  rw [computeRelu, ← shape, ← data]
  exact fill_shaped output result

theorem add_exact {a b result : Tensor F} (same : a.shape = b.shape) (shape : result.shape = a.shape)
    (data : result.data = List.zipWith Scalar.add a.data b.data) (output : Tensor F) :
    computeAdd a b output = .ok result := by
  rw [computeAdd, if_neg (not_not.mpr same), ← shape, ← data]
  exact fill_shaped output result

theorem reuses_relu (input : Tensor F) : Reuses (fun _ output => computeRelu input output) True := by
  let result : Tensor F := ⟨input.shape, input.data.map (Scalar.max Scalar.zero), by rw [List.length_map, input.sized],
    by rw [List.length_map]; exact input.fits⟩
  exact Reuses.returns result fun _ output => @relu_exact F _ input result rfl rfl output

theorem reuses_add (a b : Tensor F) : Reuses (fun _ output => computeAdd a b output) True := by
  by_cases same : a.shape = b.shape
  · have long : (List.zipWith Scalar.add a.data b.data).length = a.data.length := by
      rw [List.length_zipWith, a.sized, b.sized, same, Nat.min_self]
    let result : Tensor F := ⟨a.shape, List.zipWith Scalar.add a.data b.data, long.trans a.sized, long.symm ▸ a.fits⟩
    exact Reuses.returns result fun _ output => @add_exact F _ a b result same rfl rfl output
  · refine Reuses.throws ?_ fun _ _ => if_pos same
    exact trivial

omit [Scalar F] in
theorem flattenDims_le {node : Node F} {input : Tensor F} {outer inner : UInt64}
    (dims : flattenDims node input = .ok (outer, inner)) : outer.toNat * inner.toNat ≤ input.data.length := by
  obtain ⟨axis, _, split⟩ := Lib.bind_ok dims
  cases split
  rw [UInt64.toNat_div, Tensor.size_toNat]
  exact Nat.mul_div_le _ _

section Flatten
variable {node : Node F} {input : Tensor F} {outer inner : UInt64}

omit [Scalar F] in
theorem flattenDims_size (dims : flattenDims node input = .ok (outer, inner)) :
    (computeSize [outer, inner]).toNat = outer.toNat * inner.toNat := by
  have less := flattenDims_le dims
  have fits := input.fits
  rw [Tensor.size_pair]
  exact Nat.mod_eq_of_lt (by omega)

theorem flatten_renewed (dims : flattenDims node input = .ok (outer, inner)) {output : Tensor F}
    (different : output.size ≠ input.size) :
    computeFlatten node input output = Tensor.filled [outer, inner] Scalar.zero >>= fun output =>
      output.copyFrom input.data := by
  rw [computeFlatten, dims]
  exact if_pos different

theorem flatten_reshaped (dims : flattenDims node input = .ok (outer, inner)) {output : Tensor F}
    (same : output.size = input.size) :
    computeFlatten node input output = output.reshape [outer, inner] >>= fun output => output.copyFrom input.data := by
  rw [computeFlatten, dims]
  exact if_neg (not_not.mpr same)

omit [Scalar F] in
theorem flatten_buffer (dims : flattenDims node input = .ok (outer, inner)) (value : F) :
    ∃ made : Tensor F, Tensor.filled [outer, inner] value = .ok made := by
  have less := flattenDims_le dims
  have fits := input.fits
  rw [← flattenDims_size dims] at less
  exact ⟨_, dif_pos (by omega)⟩

/-- A split into the two extents that loses no element. -/
theorem flatten_exact (dims : flattenDims node input = .ok (outer, inner))
    (whole : outer.toNat * inner.toNat = input.data.length)
    {result : Tensor F} (shape : result.shape = [outer, inner]) (data : result.data = input.data) (output : Tensor F) :
    computeFlatten node input output = .ok result := by
  by_cases same : output.size = input.size
  · have count : computeSize [outer, inner] = output.size := by
      apply UInt64.toNat_inj.mp
      rw [flattenDims_size dims, same, Tensor.size_toNat, whole]
    rw [flatten_reshaped dims same, Tensor.reshape, dif_pos count, ← data]
    exact Tensor.copyFrom_full shape.symm
  · obtain ⟨made, fresh⟩ := flatten_buffer dims Scalar.zero
    rw [flatten_renewed dims same, fresh, ← data]
    exact Tensor.copyFrom_full ((Tensor.filled_ok fresh).1.trans shape.symm)

/-- The split is exact if the elements are those of the two extents. -/
theorem reuses_flatten (dims : flattenDims node input = .ok (outer, inner)) :
    Reuses (fun _ output => computeFlatten node input output) (outer.toNat * inner.toNat = input.data.length) := by
  have size := flattenDims_size dims
  by_cases exact_ : outer.toNat * inner.toNat = input.data.length
  · let result : Tensor F := ⟨[outer, inner], input.data, by rw [size, exact_], input.fits⟩
    exact (Reuses.returns result fun _ output =>
      @flatten_exact F _ node input outer inner dims exact_ result rfl rfl output).mono
      (iff_of_true trivial exact_)
  · have overrun : ∀ output : Tensor F, output.size ≠ input.size → computeFlatten node input output = .error .undefined := by
      intro output different
      obtain ⟨made, fresh⟩ := flatten_buffer dims Scalar.zero
      have less := flattenDims_le dims
      rw [flatten_renewed dims different, fresh]
      refine Tensor.copyFrom_short ?_
      rw [(Tensor.filled_ok fresh).2, List.length_replicate, size]
      omega
    refine ⟨fun holds => absurd holds exact_, fun holds => absurd holds exact_, fun _ _ output => ?_, fun _ _ => ?_⟩
    · by_cases same : output.size = input.size
      · have count : computeSize [outer, inner] ≠ output.size := by
          intro equal
          have lengths := congrArg UInt64.toNat (equal.trans same)
          rw [size, Tensor.size_toNat] at lengths
          exact exact_ lengths
        rw [flatten_reshaped dims same, Tensor.reshape, dif_neg count]
        exact ⟨_, rfl⟩
      · exact ⟨_, overrun output same⟩
    · refine ⟨.undefined, overrun Tensor.empty ?_, id⟩
      intro same
      have less := flattenDims_le dims
      have lengths := congrArg UInt64.toNat same
      rw [Tensor.size_toNat, Tensor.size_toNat] at lengths
      change 0 = input.data.length at lengths
      omega

end Flatten

section Gemm
variable {A B bias : Tensor F} {params : GemmParams F}

omit [Scalar F] in
theorem thrown_dim (tensor : Tensor F) (axis : Nat) : FailsWith Fault.Thrown (tensor.dim axis) := by
  rw [Tensor.dim]
  split
  · exact FailsWith.ok _
  · exact FailsWith.error trivial

omit [Scalar F] in
theorem thrown_resolveDims : FailsWith Fault.Thrown (Gemm.resolveDims A B params) :=
  (thrown_dim A _).bind fun _ _ => (thrown_dim A _).bind fun _ _ => (thrown_dim B _).bind fun _ _ => FailsWith.ok _

omit [Scalar F] in
theorem thrown_validate : FailsWith Fault.Thrown (Gemm.validate A B bias params) := by
  rw [Gemm.validate]
  split
  · exact FailsWith.error trivial
  refine (thrown_dim A _).bind fun innerA _ => (thrown_dim B _).bind fun innerB _ => ?_
  simp only []
  split
  · exact FailsWith.error trivial
  refine thrown_resolveDims.bind fun d _ => ?_
  split
  · exact FailsWith.error trivial
  · exact FailsWith.ok ()

theorem silent_compute {d : Dims} (accepted : Gemm.validate A B bias params = .ok ())
    (dims : Gemm.resolveDims A B params = .ok d) (strategy : GemmStrategy) (threads : Threads F) (output : Tensor F) :
    Silent (Gemm.compute A B bias output params strategy threads) := by
  rw [Gemm.compute_eq accepted dims]
  refine FailsWith.bind ?_ fun C _ => FailsWith.foldlM (fun rows C => Gemm.silent_runRows _ _ rows C) C
  rw [Gemm.buffer]
  split
  · exact FailsWith.ok output
  · rw [Tensor.filled]
    split
    · exact FailsWith.ok _
    · exact FailsWith.error id

/-- The operands of an accepted product hold what the kernel reads. -/
def ProductInside (strategy : GemmStrategy) (A B bias : Tensor F) (params : GemmParams F) : Prop :=
  Gemm.validate A B bias params = .ok () → ∀ d, Gemm.resolveDims A B params = .ok d →
    Gemm.Defined (Gemm.chosen strategy d) A.data B.data d params

theorem reuses_gemm (strategy : GemmStrategy) : Reuses
    (fun threads output => Gemm.compute A B bias output params strategy threads)
    (ProductInside strategy A B bias params) := by
  cases accepted : Gemm.validate A B bias params with
  | error fault =>
    refine (Reuses.throws (thrown_validate fault accepted) fun threads output => ?_).mono
      (iff_of_true trivial fun fine => by cases accepted.symm.trans fine)
    rw [Gemm.compute, accepted]
    rfl
  | ok _ =>
    cases dims : Gemm.resolveDims A B params with
    | error fault =>
      refine (Reuses.throws (thrown_resolveDims fault dims) fun threads output => ?_).mono
        (iff_of_true trivial fun _ d found => by cases dims.symm.trans found)
      rw [Gemm.compute, accepted, dims]
      rfl
    | ok d =>
      have inside : ProductInside strategy A B bias params ↔
        Gemm.Defined (Gemm.chosen strategy d) A.data B.data d params := by
        refine ⟨fun holds => holds accepted d dims, fun defined _ other found => ?_⟩
        cases dims.symm.trans found
        exact defined
      refine Reuses.mono ?_ inside.symm
      by_cases defined : Gemm.Defined (Gemm.chosen strategy d) A.data B.data d params
      · obtain ⟨result, made, _⟩ := Gemm.compute_returns accepted dims defined
        exact (Reuses.returns result fun threads output => made output threads).mono (iff_of_true trivial defined)
      · have fails : ∀ threads output, ∃ fault, Gemm.compute A B bias output params strategy threads = .error fault := by
          intro threads output
          cases ran : Gemm.compute A B bias output params strategy threads with
          | error fault => exact ⟨fault, rfl⟩
          | ok result => exact absurd ((Gemm.compute_ok_iff accepted dims).mp ran).1 defined
        refine ⟨fun holds => absurd holds defined, fun holds => absurd holds defined, fun _ => fails, fun _ threads => ?_⟩
        obtain ⟨fault, failed⟩ := fails threads Tensor.empty
        exact ⟨fault, failed, silent_compute accepted dims strategy threads _ fault failed⟩

theorem reuses_computeGemm (provider : Provider) (node : Node F) (inputs : List (Tensor F)) (fuseRelu : Bool) : Reuses
    (fun threads output => provider.computeGemm threads node inputs output fuseRelu)
    (∀ A B rest, inputs = A :: B :: rest → ∀ params, gemmParams node fuseRelu = .ok params →
      ProductInside provider.gemmStrategy A B (rest.headD Tensor.empty) params) := by
  have refused : (Fault.invalidArgument (text "Gemm node " ++ node.name ++
    text " requires at least two inputs")).Thrown := trivial
  match inputs with
  | [] => exact (Reuses.throws refused fun _ _ => rfl).mono (iff_of_true trivial nofun)
  | [_] => exact (Reuses.throws refused fun _ _ => rfl).mono (iff_of_true trivial nofun)
  | A :: B :: rest =>
    refine (Reuses.before (thrown_gemmParams node fuseRelu) fun params _ =>
      reuses_gemm provider.gemmStrategy).mono ⟨fun all A' B' rest' same => ?_, fun all => all A B rest rfl⟩
    cases same
    exact all

end Gemm
end Kernels

/-- No kernel of the node's operation leaves its buffers: an exact split for
`Flatten`, and for a product operands and an output whose sizes do not wrap. -/
def Inside (provider : Provider) (node : Node F) (inputs : List (Tensor F)) : Prop :=
  match node.opType with
  | .flatten => ∀ input, operand inputs 0 = .ok input → ∀ dims, flattenDims node input = .ok dims →
      dims.1.toNat * dims.2.toNat = input.data.length
  | .gemm => ∀ A B rest, inputs = A :: B :: rest → ∀ params, gemmParams node false = .ok params →
      ProductInside provider.gemmStrategy A B (rest.headD Tensor.empty) params
  | .gemmRelu => ∀ A B rest, inputs = A :: B :: rest → ∀ params, gemmParams node true = .ok params →
      ProductInside provider.gemmStrategy A B (rest.headD Tensor.empty) params
  | _ => True

theorem reuses_compute (provider : Provider) (node : Node F) (inputs : List (Tensor F)) :
    Reuses (fun threads output => provider.compute threads node inputs output) (Inside provider node inputs) := by
  simp only [compute, Inside]
  cases node.opType with
  | flatten =>
    refine Reuses.before (thrown_operand inputs 0) fun input _ => ?_
    cases dims : flattenDims node input with
    | error fault =>
      refine (Reuses.throws (thrown_flattenDims node input fault dims) fun _ _ => ?_).mono (iff_of_true trivial nofun)
      rw [computeFlatten, dims]
      rfl
    | ok found =>
      refine (reuses_flatten dims).mono ⟨fun exact_ other same => ?_, fun all => all found rfl⟩
      cases same
      exact exact_
  | gemm => exact reuses_computeGemm provider node inputs false
  | gemmRelu => exact reuses_computeGemm provider node inputs true
  | relu =>
    exact (Reuses.before (thrown_operand inputs 0) fun input _ => reuses_relu input).mono (by simp)
  | add =>
    exact (Reuses.before (thrown_operand inputs 0) fun a _ => Reuses.before (thrown_operand inputs 1) fun b _ =>
      reuses_add a b).mono (by simp)
  | unknown =>
    refine Reuses.throws ?_ fun _ _ => rfl
    exact trivial

end Provider
end FromScratch.Inference
