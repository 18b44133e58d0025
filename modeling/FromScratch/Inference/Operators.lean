import FromScratch.Inference.Provider

/-! The plain operators, which define what the kernels of a provider are to
compute. Each returns a tensor of its own. -/

namespace FromScratch.Inference.CpuOperators
variable {F : Type}

/-- The product of the extents in front of the axis, where `0` counts as `1`. -/
def outerOf (input : Tensor F) (axis : Nat) : UInt64 :=
  let outer := (input.shape.take axis).foldl (· * ·) 1
  if outer = 0 then 1 else outer

def flatten (input : Tensor F) (axis : Int64) : Except Fault (Tensor F) :=
  let axis := if axis.toInt < 0 then axis.toInt + input.rank else axis.toInt
  if axis < 0 ∨ input.rank < axis.toNat then throw (.invalidArgument (text "Flatten axis is out of range"))
  else input.reshape [outerOf input axis.toNat, input.size / outerOf input axis.toNat]

variable [Scalar F]

/-- The copy of the input, overwritten element by element. -/
def relu (input : Tensor F) : Tensor F :=
  ⟨input.shape, input.data.map (Scalar.max Scalar.zero), by rw [List.length_map, input.sized],
    by rw [List.length_map]; exact input.fits⟩

def add (A B : Tensor F) : Except Fault (Tensor F) :=
  if A.shape ≠ B.shape then throw (.invalidArgument (text "Add requires operands of matching shape"))
  else do
    let output ← Tensor.filled A.shape Scalar.zero
    output.copyFrom (List.zipWith Scalar.add A.data B.data)

/-- The kernel it takes keeps nothing between its calls. -/
def gemm (A B bias : Tensor F) (transA transB : Bool) (alpha beta : F) : Except Fault (Tensor F) := do
  let params : GemmParams F := ⟨transA, transB, alpha, beta, false⟩
  let shape ← Gemm.outputShape A B params
  let output ← Tensor.filled shape Scalar.zero
  Gemm.compute A B bias output params .naive ⟨none, fun _ => ⟨[], []⟩⟩

end FromScratch.Inference.CpuOperators
