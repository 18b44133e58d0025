import FromScratch.Inference.Loader
import Mathlib.Data.Matrix.Mul

/-! The network `train_mnist.py` trains, and the model file it writes for the engine. -/

namespace FromScratch.Inference
open Lib (littleEndian)

/-- `nn.Linear(inFeatures, outFeatures)`. -/
structure Linear (F : Type) (inFeatures outFeatures : Nat) where
  weight : Matrix (Fin outFeatures) (Fin inFeatures) F
  bias : Fin outFeatures → F

structure Net (F : Type) where
  fc1 : Linear F 784 512
  fc2Left : Linear F 512 200
  fc2Left2 : Linear F 200 100
  fc2Right : Linear F 512 100
  fc3 : Linear F 100 10

section Forward
variable {F : Type} [NonUnitalNonAssocSemiring F] [Max F]

def Linear.forward {inFeatures outFeatures : Nat} (layer : Linear F inFeatures outFeatures) (x : Fin inFeatures → F) :
    Fin outFeatures → F := layer.weight.mulVec x + layer.bias

def relu {features : Nat} (x : Fin features → F) : Fin features → F := fun i => max 0 (x i)

/-- `Net.forward` of one image, which `x.view(x.size(0), -1)` makes one row. -/
def Net.forward (net : Net F) (x : Fin 784 → F) : Fin 10 → F :=
  let h := relu (net.fc1.forward x)
  let left := relu (net.fc2Left.forward h)
  let left := net.fc2Left2.forward left
  let right := net.fc2Right.forward h
  let combined := left + right
  net.fc3.forward combined

end Forward

namespace Exporter

/-- `tensor.contiguous()`. -/
def contiguous {F : Type} {rows columns : Nat} (matrix : Matrix (Fin rows) (Fin columns) F) : List F :=
  (List.ofFn fun i => List.ofFn (matrix i)).flatten

/-- What `write_tensor` is given: a parameter of the state. -/
structure Parameter (F : Type) where
  name : String
  shape : List Nat
  data : List F

variable {F : Type}

def weight {inFeatures outFeatures : Nat} (name : String) (layer : Linear F inFeatures outFeatures) : Parameter F :=
  ⟨name, [outFeatures, inFeatures], contiguous layer.weight⟩

def bias {inFeatures outFeatures : Nat} (name : String) (layer : Linear F inFeatures outFeatures) : Parameter F :=
  ⟨name, [outFeatures], List.ofFn layer.bias⟩

def initializers (net : Net F) : List (Parameter F) := [
  weight "fc1.weight" net.fc1, bias "fc1.bias" net.fc1,
  weight "fc2_left.weight" net.fc2Left, bias "fc2_left.bias" net.fc2Left,
  weight "fc2_left2.weight" net.fc2Left2, bias "fc2_left2.bias" net.fc2Left2,
  weight "fc2_right.weight" net.fc2Right, bias "fc2_right.bias" net.fc2Right,
  weight "fc3.weight" net.fc3, bias "fc3.bias" net.fc3]

/-- `write_attr_int` and `write_attr_float`. -/
inductive Attr (F : Type) where
  | int (name : String) (value : Int64)
  | float (name : String) (value : F)

structure ExportedNode (F : Type) where
  name : String
  opType : String
  inputs : List String
  outputs : List String
  attrs : List (Attr F)

def gemmAttrs [Scalar F] : List (Attr F) :=
  [.int "transA" 0, .int "transB" 1, .float "alpha" Scalar.one, .float "beta" Scalar.one]

def nodes (F : Type) [Scalar F] : List (ExportedNode F) := [
  ⟨"flatten", "Flatten", ["input"], ["flatten_out"], [.int "axis" 1]⟩,
  ⟨"fc1", "Gemm", ["flatten_out", "fc1.weight", "fc1.bias"], ["fc1_out"], gemmAttrs⟩,
  ⟨"relu1", "Relu", ["fc1_out"], ["relu1_out"], []⟩,
  ⟨"fc2_left", "Gemm", ["relu1_out", "fc2_left.weight", "fc2_left.bias"], ["fc2_left_out"], gemmAttrs⟩,
  ⟨"relu2", "Relu", ["fc2_left_out"], ["relu2_out"], []⟩,
  ⟨"fc2_left2", "Gemm", ["relu2_out", "fc2_left2.weight", "fc2_left2.bias"], ["left_out"], gemmAttrs⟩,
  ⟨"fc2_right", "Gemm", ["relu1_out", "fc2_right.weight", "fc2_right.bias"], ["right_out"], gemmAttrs⟩,
  ⟨"add", "Add", ["left_out", "right_out"], ["add_out"], []⟩,
  ⟨"fc3", "Gemm", ["add_out", "fc3.weight", "fc3.bias"], ["output"], gemmAttrs⟩]

def OIEN_MAGIC : List UInt8 := text "OIEN"
def OIEN_VERSION : Nat := 1
def ATTR_INT : UInt8 := 0
def ATTR_FLOAT : UInt8 := 1

/-- `struct.pack("<I", value)`. -/
def packU32 (value : Nat) : List UInt8 := littleEndian 4 value

def writeStr (s : String) : List UInt8 := packU32 (text s).length ++ text s

def writeTensor (tensor : Parameter FloatBits) : List UInt8 :=
  writeStr tensor.name ++ packU32 tensor.shape.length ++ tensor.shape.flatMap (littleEndian 8) ++
    tensor.data.flatMap fun value => littleEndian 4 value.toNat

def writeAttr : Attr FloatBits → List UInt8
  | .int name value => writeStr name ++ ATTR_INT :: littleEndian 8 value.toUInt64.toNat
  | .float name value => writeStr name ++ ATTR_FLOAT :: littleEndian 4 value.toNat

def writeNode (node : ExportedNode FloatBits) : List UInt8 :=
  writeStr node.name ++ writeStr node.opType ++ packU32 node.inputs.length ++ node.inputs.flatMap writeStr ++
    packU32 node.outputs.length ++ node.outputs.flatMap writeStr ++ packU32 node.attrs.length ++ node.attrs.flatMap writeAttr

def exportOien (net : Net FloatBits) : List UInt8 :=
  OIEN_MAGIC ++ packU32 OIEN_VERSION ++
    packU32 (initializers net).length ++ (initializers net).flatMap writeTensor ++
    packU32 (nodes FloatBits).length ++ (nodes FloatBits).flatMap writeNode ++
    packU32 1 ++ writeStr "input" ++
    packU32 1 ++ writeStr "output"

end Exporter
end FromScratch.Inference
