import FromScratch.Inference.Gemm
import FromScratch.Inference.Node

/-! The CPU execution provider: which operations it has, and the kernel a node is
handed to. A kernel writes into a tensor the caller keeps, and decides by its
shape or size whether the buffer can be used again. -/

namespace FromScratch.Inference

namespace Tensor
variable {F : Type}

/-- `std::copy(values.begin(), values.end(), tensor.begin())`. -/
def copyFrom (tensor : Tensor F) (values : List F) : Except Fault (Tensor F) :=
  if inside : values.length ≤ tensor.data.length then
    .ok ⟨tensor.shape, values ++ tensor.data.drop values.length,
      by rw [List.length_append, List.length_drop, Nat.add_sub_of_le inside, tensor.sized],
      by rw [List.length_append, List.length_drop, Nat.add_sub_of_le inside]; exact tensor.fits⟩
  else .error .undefined

end Tensor

structure Provider where
  gemmStrategy : GemmStrategy

namespace Provider
variable {F : Type}

def supports : OpType → Bool
  | .flatten | .gemm | .relu | .add | .gemmRelu => true
  | .unknown => false

/-- The axis at which `computeFlatten` splits the shape. -/
def flattenAxis (node : Node F) (input : Tensor F) : Except Fault Nat := do
  let attr ← node.getAttrInt (text "axis") 1
  let axis := if attr.toInt < 0 then attr.toInt + input.rank else attr.toInt
  if axis < 0 ∨ input.rank < axis.toNat then
    throw (.invalidArgument (text "Flatten axis is out of range for node " ++ node.name))
  else pure axis.toNat

/-- The two extents it gives its output. -/
def flattenDims (node : Node F) (input : Tensor F) : Except Fault (UInt64 × UInt64) := do
  let axis ← flattenAxis node input
  let outer := (input.shape.take axis).foldl (· * ·) 1
  let outer := if outer = 0 then 1 else outer
  pure (outer, input.size / outer)

variable [Scalar F]

def computeFlatten (node : Node F) (input output : Tensor F) : Except Fault (Tensor F) := do
  let (outer, inner) ← flattenDims node input
  if output.size ≠ input.size then do
    let output ← Tensor.filled [outer, inner] Scalar.zero
    output.copyFrom input.data
  else do
    let output ← output.reshape [outer, inner]
    output.copyFrom input.data

/-- `if (output.shape() != shape) output = Tensor<float>(shape, output.allocator());` -/
def ensureShape (output : Tensor F) (shape : List UInt64) : Except Fault (Tensor F) :=
  if output.shape ≠ shape then Tensor.filled shape Scalar.zero else .ok output

def computeRelu (input output : Tensor F) : Except Fault (Tensor F) := do
  let output ← ensureShape output input.shape
  output.copyFrom (input.data.map (Scalar.max Scalar.zero))

def computeAdd (a b output : Tensor F) : Except Fault (Tensor F) :=
  if a.shape ≠ b.shape then throw (.invalidArgument (text "Add requires operands of matching shape"))
  else do
    let output ← ensureShape output a.shape
    output.copyFrom (List.zipWith Scalar.add a.data b.data)

def gemmParams (node : Node F) (fuseRelu : Bool) : Except Fault (GemmParams F) := do
  let transA ← node.getAttrInt (text "transA") 0
  let transB ← node.getAttrInt (text "transB") 0
  let alpha ← node.getAttrFloat (text "alpha") Scalar.one
  let beta ← node.getAttrFloat (text "beta") Scalar.one
  pure ⟨transA ≠ 0, transB ≠ 0, alpha, beta, fuseRelu⟩

def computeGemm (provider : Provider) (threads : Gemm.Threads F) (node : Node F) (inputs : List (Tensor F))
    (output : Tensor F) (fuseRelu : Bool) : Except Fault (Tensor F) :=
  match inputs with
  | A :: B :: rest => do
    let params ← gemmParams node fuseRelu
    Gemm.compute A B (rest.headD Tensor.empty) output params provider.gemmStrategy threads
  | _ => throw (.invalidArgument (text "Gemm node " ++ node.name ++ text " requires at least two inputs"))

/-- `inputs.at(index)`. -/
def operand (inputs : List (Tensor F)) (index : Nat) : Except Fault (Tensor F) :=
  match inputs[index]? with
  | some input => .ok input
  | none => .error .outOfRange

/-- The callers never pass a null pointer. -/
def compute (provider : Provider) (threads : Gemm.Threads F) (node : Node F) (inputs : List (Tensor F))
    (output : Tensor F) : Except Fault (Tensor F) :=
  match node.opType with
  | .flatten => do
    let input ← operand inputs 0
    computeFlatten node input output
  | .gemm => provider.computeGemm threads node inputs output false
  | .gemmRelu => provider.computeGemm threads node inputs output true
  | .relu => do
    let input ← operand inputs 0
    computeRelu input output
  | .add => do
    let a ← operand inputs 0
    let b ← operand inputs 1
    computeAdd a b output
  | .unknown => throw (.runtimeError (text "Unsupported op type '" ++ node.opTypeStr ++ text "' on node " ++ node.name))

end Provider
end FromScratch.Inference
