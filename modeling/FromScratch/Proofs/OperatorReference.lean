import FromScratch.Inference.Operators
import FromScratch.Proofs.BufferReuse
import FromScratch.Proofs.GemmStacked
import FromScratch.Proofs.OptimizerMeaning

/-! Whatever kernel a provider takes, on whatever threads and into whatever buffer, a
node is given the value the plain operators define. -/

namespace FromScratch.Inference
open Gemm (Threads)

namespace Gemm
variable {A B bias out result : Tensor ℚ} {p : GemmParams ℚ} {strategy : GemmStrategy} {d : Dims}

/-- The scaled product, the bias and the activation: what the elements are to be. -/
def values (A B bias : Tensor ℚ) (p : GemmParams ℚ) (d : Dims) : List ℚ :=
  table d fun i j => finish d p bias.data i j (product A.data B.data d p i j)

/-- A product that was accepted, and what it made. -/
structure Makes (A B bias : Tensor ℚ) (p : GemmParams ℚ) (d : Dims) (result : Tensor ℚ) : Prop where
  accepted : validate A B bias p = .ok ()
  dims : resolveDims A B p = .ok d
  fits : d.N * d.M * 4 < 2 ^ 64
  shape : result.shape = resultShape d
  data : result.data = values A B bias p d

theorem stored_whole (accepted : validate A B bias p = .ok ()) (dims : resolveDims A B p = .ok d) (wholeA : A.Whole)
    (wholeB : B.Whole) : Stored A.data B.data d := by
  obtain ⟨rowsA, colsA, rowsB, colsB, shapeA, shapeB, inner, rfl, _⟩ := validate_ok accepted dims
  refine @stored_of_whole B p _ _ rowsB colsB shapeB wholeB (congrArg UInt64.toNat inner) rfl ?_ A.fits
  rw [Tensor.Whole, shapeA] at wholeA
  rw [wholeA]
  cases p.transA with
  | false => simp
  | true => simp [Nat.mul_comm]

/-- Of whole operands every kernel makes the same product, and refuses it only where
the output is too large or its loop over the rows has no end. -/
theorem compute_whole_iff (wholeA : A.Whole) (wholeB : B.Whole) (threads : Threads ℚ) :
    compute A B bias out p strategy threads = .ok result ↔
      ∃ d, Makes A B bias p d result ∧ (Blocked strategy → d.N ≤ tileLimit) := by
  have entries : ∀ d, validate A B bias p = .ok () → resolveDims A B p = .ok d →
      (table d fun i j => finish d p bias.data i j (entry (chosen strategy d) A.data B.data d p i j)) =
        values A B bias p d := by
    intro d accepted dims
    refine List.map_congr_left fun index member => ?_
    have inside := List.mem_range.mp member
    have column : 0 < d.M := Nat.pos_of_ne_zero fun zero => by simp [zero] at inside
    have row : index / d.M < d.N := Nat.div_lt_of_lt_mul (Nat.mul_comm d.N d.M ▸ inside)
    exact congrArg (finish d p bias.data _ _) (entry_eq (stored_whole accepted dims wholeA wholeB)
      (chosen_ne_auto strategy d) row (Nat.mod_lt index column))
  constructor
  · intro returned
    obtain ⟨_, accepted, located⟩ := Lib.bind_ok returned
    obtain ⟨d, dims, _⟩ := Lib.bind_ok located
    obtain ⟨defined, shape, data⟩ := (compute_ok_iff accepted dims).mp returned
    refine ⟨d, ⟨accepted, dims, defined.fits, shape, data.trans (entries d accepted dims)⟩, fun blocked => defined.ends ?_⟩
    rcases blocked with rfl | rfl
    · exact Or.inl rfl
    · exact Or.inr rfl
  · rintro ⟨d, makes, ends⟩
    have stored := stored_whole makes.accepted makes.dims wholeA wholeB
    have defined : Defined (chosen strategy d) A.data B.data d p :=
      ⟨makes.fits, fun blocked => chosen_ends makes.fits blocked ends, fun i row => rowReady_of_stored stored row⟩
    have data := makes.data.trans (entries d makes.accepted makes.dims).symm
    exact (compute_ok_iff makes.accepted makes.dims).mpr ⟨defined, makes.shape, data⟩

end Gemm

namespace Tensor
variable {F : Type} {tensor result : Tensor F}

theorem copyFrom_shape {values : List F} (made : tensor.copyFrom values = .ok result) : result.shape = tensor.shape := by
  rw [copyFrom] at made
  split at made
  next =>
    cases made
    rfl
  next => cases made

theorem reshape_shape {shape : List UInt64} (made : tensor.reshape shape = .ok result) : result.shape = shape := by
  rw [reshape] at made
  split at made
  next =>
    cases made
    rfl
  next => cases made

end Tensor

namespace CpuOperators

section Meaning
variable {F : Type} [Scalar F]

/-- The product a node asks for, before its activation. -/
def multiply (node : Node F) (inputs : List (Tensor F)) : Except Fault (Tensor F) :=
  match inputs with
  | A :: B :: rest => do
    let params ← Provider.gemmParams node false
    gemm A B (rest.headD Tensor.empty) params.transA params.transB params.alpha params.beta
  | _ => throw (.invalidArgument (text "Gemm node " ++ node.name ++ text " requires at least two inputs"))

/-- What a node stands for. -/
def evaluate (node : Node F) (inputs : List (Tensor F)) : Except Fault (Tensor F) :=
  match node.opType with
  | .flatten => do
    let input ← Provider.operand inputs 0
    let axis ← node.getAttrInt (text "axis") 1
    flatten input axis
  | .gemm => multiply node inputs
  | .gemmRelu => relu <$> multiply node inputs
  | .relu => relu <$> Provider.operand inputs 0
  | .add => do
    let a ← Provider.operand inputs 0
    let b ← Provider.operand inputs 1
    add a b
  | .unknown => throw (.runtimeError (text "Unsupported op type '" ++ node.opTypeStr ++ text "' on node " ++ node.name))

end Meaning

section Elementwise
variable {F : Type} [Scalar F]

theorem relu_ok {made : Except Fault (Tensor F)} {result : Tensor F} (returned : relu <$> made = .ok result) :
    ∃ plain, made = .ok plain ∧ relu plain = result := by
  cases made with
  | error fault => cases returned
  | ok plain => exact ⟨plain, rfl, Except.ok.inj returned⟩

theorem relu_agrees (input output : Tensor F) : Provider.computeRelu input output = .ok (relu input) :=
  @Provider.relu_exact F _ input (relu input) rfl rfl output

theorem add_agrees (a b output : Tensor F) : Provider.computeAdd a b output = add a b := by
  by_cases same : a.shape = b.shape
  · have long : (List.zipWith Scalar.add a.data b.data).length = a.data.length := by
      rw [List.length_zipWith, a.sized, b.sized, same, Nat.min_self]
    let result : Tensor F := ⟨a.shape, List.zipWith Scalar.add a.data b.data, long.trans a.sized, long.symm ▸ a.fits⟩
    obtain ⟨made, fresh⟩ := Tensor.filled_shape a Scalar.zero
    rw [@Provider.add_exact F _ a b result same rfl rfl output, add, if_neg (not_not.mpr same), fresh]
    exact (@Tensor.copyFrom_full F made result (Tensor.filled_ok fresh).1).symm
  · rw [Provider.computeAdd, add, if_pos same, if_pos same]

omit [Scalar F] in
/-- Both flatten to the same extents, and refuse the same axes. -/
theorem flatten_dims (node : Node F) (input result : Tensor F) :
    (node.getAttrInt (text "axis") 1 >>= flatten input) = .ok result ↔ ∃ outer inner,
      Provider.flattenDims node input = .ok (outer, inner) ∧ input.reshape [outer, inner] = .ok result := by
  rw [Provider.flattenDims, Provider.flattenAxis]
  cases node.getAttrInt (text "axis") 1 with
  | error fault =>
    constructor
    · intro never
      cases never
    · rintro ⟨_, _, never, _⟩
      cases never
  | ok attr =>
    simp only [bind, Except.bind, flatten]
    generalize (if attr.toInt < 0 then attr.toInt + (input.rank : Int) else attr.toInt) = axis
    split
    next refused =>
      constructor
      · intro never
        cases never
      · rintro ⟨_, _, never, _⟩
        cases never
    next accepted =>
      constructor
      · intro made
        exact ⟨_, _, rfl, made⟩
      · rintro ⟨outer, inner, same, made⟩
        cases same
        exact made

theorem flatten_agrees (node : Node F) (input output result : Tensor F) :
    Provider.computeFlatten node input output = .ok result ↔
      (node.getAttrInt (text "axis") 1 >>= flatten input) = .ok result := by
  rw [flatten_dims]
  cases dims : Provider.flattenDims node input with
  | error fault =>
    rw [Provider.computeFlatten, dims]
    constructor
    · intro never
      cases never
    · rintro ⟨_, _, never, _⟩
      cases never
  | ok found =>
    obtain ⟨outer, inner⟩ := found
    have size := Provider.flattenDims_size dims
    by_cases whole : outer.toNat * inner.toNat = input.data.length
    · let flat : Tensor F := ⟨[outer, inner], input.data, by rw [size, whole], input.fits⟩
      have count : computeSize [outer, inner] = input.size := by
        apply UInt64.toNat_inj.mp
        rw [size, Tensor.size_toNat, whole]
      have reshaped : input.reshape [outer, inner] = .ok flat := by
        rw [Tensor.reshape, dif_pos count]
      rw [@Provider.flatten_exact F _ node input outer inner dims whole flat rfl rfl output]
      constructor
      · intro same
        exact ⟨outer, inner, rfl, reshaped.trans same⟩
      · rintro ⟨_, _, same, made⟩
        cases same
        exact reshaped.symm.trans made
    · have count : computeSize [outer, inner] ≠ input.size := by
        intro equal
        rw [← size, equal, Tensor.size_toNat] at whole
        exact whole rfl
      obtain ⟨fault, failed⟩ := (Provider.reuses_flatten dims).outside whole ⟨none, fun _ => ⟨[], []⟩⟩ output
      refine iff_of_false (fun made => by cases failed.symm.trans made) ?_
      rintro ⟨_, _, same, made⟩
      cases same
      rw [Tensor.reshape, dif_neg count] at made
      cases made

end Elementwise

section Product
variable {A B bias out result : Tensor ℚ} {transA transB : Bool} {alpha beta : ℚ}

theorem gemm_iff (wholeA : A.Whole) (wholeB : B.Whole) : gemm A B bias transA transB alpha beta = .ok result ↔
    ∃ d, Gemm.Makes A B bias ⟨transA, transB, alpha, beta, false⟩ d result := by
  constructor
  · intro made
    obtain ⟨shape, _, rest⟩ := Lib.bind_ok made
    obtain ⟨output, _, made⟩ := Lib.bind_ok rest
    obtain ⟨d, makes, _⟩ := (Gemm.compute_whole_iff wholeA wholeB _).mp made
    exact ⟨d, makes⟩
  · rintro ⟨d, makes⟩
    have fits := makes.fits
    obtain ⟨output, made⟩ := Gemm.buffer_ok (F := ℚ) Tensor.empty (Gemm.narrow_result makes.dims (by omega)) fits
    rw [gemm, Gemm.outputShape, makes.dims]
    change (Tensor.filled (Gemm.resultShape d) (Scalar.zero : ℚ) >>= _) = _
    have fresh : (Tensor.empty : Tensor ℚ).shape ≠ Gemm.resultShape d := by
      intro same
      cases same
    rw [Gemm.buffer, if_neg fresh] at made
    rw [made]
    have serial : ¬Gemm.Blocked .naive := by
      rintro (never | never) <;> cases never
    have computed : Gemm.compute A B bias output ⟨transA, transB, alpha, beta, false⟩ .naive
        ⟨none, fun _ => ⟨[], []⟩⟩ = .ok result :=
      (Gemm.compute_whole_iff wholeA wholeB _).mpr ⟨d, makes, (absurd · serial)⟩
    exact computed

/-- The activation that a node has fused in comes after its product. -/
theorem values_fused (d : Dims) : Gemm.values A B bias ⟨transA, transB, alpha, beta, true⟩ d =
    (Gemm.values A B bias ⟨transA, transB, alpha, beta, false⟩ d).map (Scalar.max Scalar.zero) := by
  rw [Gemm.values, Gemm.values, ← relu_table]
  rfl

/-- The kernels that walk tiles of rows are asked for a product they can count. -/
def Counted (strategy : GemmStrategy) (result : Tensor ℚ) : Prop :=
  Gemm.Blocked strategy → ∀ rows ∈ result.shape.head?, rows.toNat ≤ Gemm.tileLimit

theorem counted_iff {strategy : GemmStrategy} {d : Dims} {p : GemmParams ℚ} (dims : Gemm.resolveDims A B p = .ok d)
    (shaped : result.shape = Gemm.resultShape d) :
    Counted strategy result ↔ (Gemm.Blocked strategy → d.N ≤ Gemm.tileLimit) := by
  have rows : (UInt64.ofNat d.N).toNat = d.N := by
    rw [UInt64.toNat_ofNat', Nat.mod_eq_of_lt (Gemm.resolveDims_lt dims).1]
  rw [Counted, shaped, Gemm.resultShape]
  simp only [List.head?_cons, Option.mem_some_iff, forall_eq', rows]

/-- Whichever kernel a product is left to, it is the one that is defined. -/
theorem gemm_agrees (wholeA : A.Whole) (wholeB : B.Whole) (strategy : GemmStrategy) (threads : Threads ℚ) :
    Gemm.compute A B bias out ⟨transA, transB, alpha, beta, false⟩ strategy threads = .ok result ↔
      gemm A B bias transA transB alpha beta = .ok result ∧ Counted strategy result := by
  rw [Gemm.compute_whole_iff wholeA wholeB threads, gemm_iff wholeA wholeB]
  constructor
  · rintro ⟨d, makes, ends⟩
    exact ⟨⟨d, makes⟩, (counted_iff makes.dims makes.shape).mpr ends⟩
  · rintro ⟨⟨d, makes⟩, counted⟩
    exact ⟨d, makes, (counted_iff makes.dims makes.shape).mp counted⟩

theorem gemm_relu_agrees (wholeA : A.Whole) (wholeB : B.Whole) (strategy : GemmStrategy) (threads : Threads ℚ) :
    Gemm.compute A B bias out ⟨transA, transB, alpha, beta, true⟩ strategy threads = .ok result ↔
      relu <$> gemm A B bias transA transB alpha beta = .ok result ∧ Counted strategy result := by
  rw [Gemm.compute_whole_iff wholeA wholeB threads]
  constructor
  · rintro ⟨d, ⟨accepted, dims, fits, shape, data⟩, ends⟩
    have narrow := Gemm.narrow_result dims (by omega)
    have length : (Gemm.values A B bias ⟨transA, transB, alpha, beta, false⟩ d).length = d.N * d.M :=
      Gemm.length_table d _
    let plain : Tensor ℚ := ⟨Gemm.resultShape d, Gemm.values A B bias ⟨transA, transB, alpha, beta, false⟩ d,
      length.trans narrow.size.symm, by rwa [length]⟩
    have product : gemm A B bias transA transB alpha beta = .ok plain :=
      (gemm_iff wholeA wholeB).mpr ⟨d, accepted, dims, fits, rfl, rfl⟩
    refine ⟨?_, (counted_iff dims shape).mpr ends⟩
    rw [product]
    exact congrArg Except.ok (Tensor.ext shape.symm (data.trans (values_fused d)).symm)
  · rintro ⟨made, counted⟩
    obtain ⟨plain, product, rfl⟩ := relu_ok made
    obtain ⟨d, accepted, dims, fits, shape, data⟩ := (gemm_iff wholeA wholeB).mp product
    refine ⟨d, ⟨accepted, dims, fits, shape, ?_⟩, (counted_iff dims shape).mp counted⟩
    rw [values_fused, ← data]
    rfl

end Product

section Nodes
variable {provider : Provider} {node : Node ℚ} {inputs : List (Tensor ℚ)} {output result : Tensor ℚ} {threads : Threads ℚ}

/-- The product of a node is one its provider can count. -/
def Countable (provider : Provider) (node : Node ℚ) (result : Tensor ℚ) : Prop :=
  node.opType = .gemm ∨ node.opType = .gemmRelu → Counted provider.gemmStrategy result

theorem gemmParams_cases {F : Type} [Scalar F] (node : Node F) :
    (∃ fault, ∀ fused, Provider.gemmParams node fused = .error fault) ∨
    ∃ transA transB alpha beta, ∀ fused, Provider.gemmParams node fused = .ok ⟨transA, transB, alpha, beta, fused⟩ := by
  simp only [Provider.gemmParams, bind, Except.bind]
  cases node.getAttrInt (text "transA") 0 with
  | error fault => exact Or.inl ⟨fault, fun _ => rfl⟩
  | ok transA =>
    cases node.getAttrInt (text "transB") 0 with
    | error fault => exact Or.inl ⟨fault, fun _ => rfl⟩
    | ok transB =>
      cases node.getAttrFloat (text "alpha") Scalar.one with
      | error fault => exact Or.inl ⟨fault, fun _ => rfl⟩
      | ok alpha =>
        cases node.getAttrFloat (text "beta") Scalar.one with
        | error fault => exact Or.inl ⟨fault, fun _ => rfl⟩
        | ok beta => exact Or.inr ⟨_, _, alpha, beta, fun _ => rfl⟩

theorem computeGemm_agrees (whole : ∀ input ∈ inputs, input.Whole) (fused : Bool) :
    provider.computeGemm threads node inputs output fused = .ok result ↔
      (if fused then relu <$> multiply node inputs else multiply node inputs) = .ok result ∧
        Counted provider.gemmStrategy result := by
  have refused : ∀ fault, ∀ failed : Except Fault (Tensor ℚ), failed = .error fault → (failed = .ok result ↔
      (if fused then relu <$> failed else failed) = .ok result ∧ Counted provider.gemmStrategy result) := by
    rintro fault _ rfl
    constructor
    · intro never
      cases never
    · rintro ⟨never, _⟩
      cases fused <;> cases never
  rcases inputs with _ | ⟨A, _ | ⟨B, rest⟩⟩
  · exact refused _ _ rfl
  · exact refused _ _ rfl
  · have wholeA := whole A List.mem_cons_self
    have wholeB := whole B (List.mem_cons_of_mem _ List.mem_cons_self)
    rw [Provider.computeGemm, multiply]
    rcases gemmParams_cases node with ⟨fault, failed⟩ | ⟨transA, transB, alpha, beta, found⟩
    · rw [failed, failed]
      exact refused fault _ rfl
    · rw [found, found]
      cases fused with
      | false => exact gemm_agrees wholeA wholeB provider.gemmStrategy threads
      | true => exact gemm_relu_agrees wholeA wholeB provider.gemmStrategy threads

/-- A node is given what its operator makes of its operands. -/
theorem compute_agrees (whole : ∀ input ∈ inputs, input.Whole) (provider : Provider) (threads : Threads ℚ) :
    provider.compute threads node inputs output = .ok result ↔
      evaluate node inputs = .ok result ∧ Countable provider node result := by
  rw [Provider.compute, evaluate, Countable]
  cases kind : node.opType with
  | gemm => simpa using computeGemm_agrees whole false
  | gemmRelu => simpa using computeGemm_agrees whole true
  | flatten =>
    rw [and_iff_left (by simp)]
    cases Provider.operand inputs 0 with
    | error fault => exact Iff.rfl
    | ok input => exact flatten_agrees node input output result
  | relu =>
    rw [and_iff_left (by simp)]
    cases Provider.operand inputs 0 with
    | error fault => exact Iff.rfl
    | ok input =>
      change Provider.computeRelu input output = .ok result ↔ Except.ok (relu input) = .ok result
      rw [relu_agrees]
  | add =>
    rw [and_iff_left (by simp)]
    cases Provider.operand inputs 0 with
    | error fault => exact Iff.rfl
    | ok a =>
      cases Provider.operand inputs 1 with
      | error fault => exact Iff.rfl
      | ok b =>
        change Provider.computeAdd a b output = .ok result ↔ add a b = .ok result
        rw [add_agrees]
  | unknown =>
    constructor
    · intro never
      cases never
    · rintro ⟨never, _⟩
      cases never

theorem multiply_whole (whole : ∀ input ∈ inputs, input.Whole) (made : multiply node inputs = .ok result) :
    result.Whole := by
  rcases inputs with _ | ⟨A, _ | ⟨B, rest⟩⟩
  · cases made
  · cases made
  · obtain ⟨params, _, made⟩ := Lib.bind_ok made
    obtain ⟨d, makes⟩ :=
      (gemm_iff (whole A List.mem_cons_self) (whole B (List.mem_cons_of_mem _ List.mem_cons_self))).mp made
    obtain ⟨rows, _, columns⟩ := Gemm.resolveDims_lt makes.dims
    rw [Tensor.Whole, makes.shape, makes.data, Gemm.values, Gemm.length_table, Gemm.resultShape]
    simp only [List.map_cons, List.map_nil, List.prod_cons, List.prod_nil, Nat.mul_one, UInt64.toNat_ofNat',
      Nat.mod_eq_of_lt rows, Nat.mod_eq_of_lt columns]

theorem relu_whole {input : Tensor ℚ} (whole : input.Whole) : (relu input).Whole :=
  (List.length_map _).trans whole

theorem add_whole {a b : Tensor ℚ} (whole : a.Whole) (made : add a b = .ok result) : result.Whole := by
  by_cases same : a.shape = b.shape
  · rw [add, if_neg (not_not.mpr same)] at made
    obtain ⟨output, fresh, made⟩ := Lib.bind_ok made
    have shaped := (Tensor.filled_ok fresh).1
    have copied := Tensor.copyFrom_shape made
    rw [Tensor.Whole, result.sized, copied, shaped, ← a.sized, whole]
  · rw [add, if_pos same] at made
    cases made

theorem flatten_whole {input : Tensor ℚ} (made : (node.getAttrInt (text "axis") 1 >>= flatten input) = .ok result) :
    result.Whole := by
  obtain ⟨outer, inner, dims, reshaped⟩ := (flatten_dims node input result).mp made
  have shaped : result.shape = [outer, inner] := Tensor.reshape_shape reshaped
  rw [Tensor.Whole, result.sized, shaped, Provider.flattenDims_size dims]
  simp

/-- An operator makes a whole tensor of whole operands. -/
theorem evaluate_whole (whole : ∀ input ∈ inputs, input.Whole) (made : evaluate node inputs = .ok result) :
    result.Whole := by
  have operand : ∀ index input, Provider.operand inputs index = .ok input → input.Whole := by
    intro index input found
    rw [Provider.operand] at found
    split at found
    next input here =>
      cases found
      exact whole _ (List.mem_of_getElem? here)
    next => cases found
  rw [evaluate] at made
  split at made
  · obtain ⟨input, _, made⟩ := Lib.bind_ok made
    exact flatten_whole made
  · exact multiply_whole whole made
  · obtain ⟨product, multiplied, rfl⟩ := relu_ok made
    exact relu_whole (multiply_whole whole multiplied)
  · obtain ⟨input, found, rfl⟩ := relu_ok made
    exact relu_whole (operand 0 input found)
  · obtain ⟨a, found, made⟩ := Lib.bind_ok made
    obtain ⟨b, _, made⟩ := Lib.bind_ok made
    exact add_whole (operand 0 a found) made
  · cases made

end Nodes

end CpuOperators
end FromScratch.Inference
