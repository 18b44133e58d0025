import FromScratch.Inference.Tensor

/-! A node of the computation graph: its operation, the names of the tensors it
reads and writes, and the attributes that configure it. -/

namespace FromScratch.Inference
open Lib (FiniteMap)

inductive Attribute (F : Type) where
  | int (value : Int64)
  | float (value : F)
  | ints (values : List Int64)
deriving DecidableEq

namespace Attribute
variable {F : Type}

def asInt : Attribute F → Except Fault Int64
  | .int value => .ok value
  | _ => .error (.runtimeError (text "Attribute is not an Int"))

def asFloat : Attribute F → Except Fault F
  | .float value => .ok value
  | _ => .error (.runtimeError (text "Attribute is not a Float"))

end Attribute

inductive OpType where
  | flatten | gemm | relu | add | gemmRelu | unknown
deriving DecidableEq

def opTypeFromString (name : Text) : OpType :=
  if name = text "Flatten" then .flatten
  else if name = text "Gemm" then .gemm
  else if name = text "Relu" then .relu
  else if name = text "Add" then .add
  else if name = text "GemmRelu" then .gemmRelu
  else .unknown

def opTypeToString : OpType → Text
  | .flatten => text "Flatten"
  | .gemm => text "Gemm"
  | .relu => text "Relu"
  | .add => text "Add"
  | .gemmRelu => text "GemmRelu"
  | .unknown => text "Unknown"

theorem opTypeFromString_toString (op : OpType) : opTypeFromString (opTypeToString op) = op := by
  cases op <;> decide

structure Node (F : Type) where
  name : Text
  opTypeStr : Text
  opType : OpType
  inputs : List Text
  outputs : List Text
  attributes : FiniteMap Text (Attribute F)

namespace Node
variable {F : Type}

/-- The constructor. -/
def make (name opTypeStr : Text) (inputs outputs : List Text) (attributes : FiniteMap Text (Attribute F)) : Node F where
  name
  opTypeStr
  opType := opTypeFromString opTypeStr
  inputs
  outputs
  attributes

def setOpType (node : Node F) (op : OpType) : Node F :=
  { node with opType := op, opTypeStr := opTypeToString op }

def setOutputs (node : Node F) (outputs : List Text) : Node F := { node with outputs }

def setAttr (node : Node F) (key : Text) (value : Attribute F) : Node F :=
  { node with attributes := node.attributes.insert key value }

def getAttrInt (node : Node F) (key : Text) (defaultValue : Int64) : Except Fault Int64 :=
  match node.attributes.lookup key with
  | none => .ok defaultValue
  | some value => value.asInt

def getAttrFloat (node : Node F) (key : Text) (defaultValue : F) : Except Fault F :=
  match node.attributes.lookup key with
  | none => .ok defaultValue
  | some value => value.asFloat

end Node
end FromScratch.Inference
