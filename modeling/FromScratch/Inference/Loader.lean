import FromScratch.Inference.Graph
import FromScratch.Lib.Reader

/-! The OIEN model format: counted tables of initializers and nodes, then the
graph's inputs and outputs. A `float` is copied bit by bit, so it is its bits. -/

namespace FromScratch.Inference
open Lib (FiniteMap Reader littleEndian ofLittleEndian)
open Lib.Reader (times repeated)

abbrev FloatBits := UInt32

/-- The operations of the kernels, on the bits. -/
instance : Scalar FloatBits where
  zero := 0
  one := 0x3f800000
  add a b := (Float32.ofBits a + Float32.ofBits b).toBits
  mul a b := (Float32.ofBits a * Float32.ofBits b).toBits
  max a b := if Float32.ofBits a < Float32.ofBits b then b else a
  isZero a := Float32.ofBits a == 0

namespace ModelLoader

def kMagic : List UInt8 := text "OIEN"
def kVersion : Nat := 1
def kAttrInt : UInt8 := 0
def kAttrFloat : UInt8 := 1
def kAttrInts : UInt8 := 2

/-- `writeU32(os, static_cast<uint32_t>(value))`. -/
def writeU32 (value : Nat) : List UInt8 := littleEndian 4 value
def writeU64 (value : UInt64) : List UInt8 := littleEndian 8 value.toNat
def writeI64 (value : Int64) : List UInt8 := littleEndian 8 value.toUInt64.toNat
def writeF32 (value : FloatBits) : List UInt8 := littleEndian 4 value.toNat
def writeString (s : Text) : List UInt8 := writeU32 s.length ++ s

abbrev Stream := Reader Fault

def readBytes (count : Nat) (what : String) : Stream (List UInt8) :=
  Reader.take count (.runtimeError (text "Unexpected end of model file while reading " ++ text what))

def readU32 : Stream Nat := do
  let bytes ← readBytes 4 "u32"
  pure (ofLittleEndian bytes)

def readU64 : Stream UInt64 := do
  let bytes ← readBytes 8 "u64"
  pure (UInt64.ofNat (ofLittleEndian bytes))

def readI64 : Stream Int64 := do
  let bytes ← readBytes 8 "i64"
  pure (UInt64.ofNat (ofLittleEndian bytes)).toInt64

def readF32 : Stream FloatBits := do
  let bytes ← readBytes 4 "f32"
  pure (UInt32.ofNat (ofLittleEndian bytes))

def readString : Stream Text := do
  let len ← readU32
  readBytes len "string"

def readStrings : Stream (List Text) := do
  let count ← readU32
  times readString count

def readInitializer (model : Model FloatBits) : Stream (Model FloatBits) := do
  let name ← readString
  let ndim ← readU32
  let dims ← times readU64 ndim
  let total := dims.foldl (· * ·) 1
  let data ← times readF32 total.toNat
  let tensor ← Tensor.ofValues dims data
  pure (model.addInitializer name tensor)

def readAttribute (attrs : FiniteMap Text (Attribute FloatBits)) : Stream (FiniteMap Text (Attribute FloatBits)) := do
  let attrName ← readString
  let tag ← readBytes 1 "attribute tag"
  if tag = [kAttrInt] then do
    let value ← readI64
    pure (attrs.emplace attrName (.int value))
  else if tag = [kAttrFloat] then do
    let value ← readF32
    pure (attrs.emplace attrName (.float value))
  else if tag = [kAttrInts] then do
    let count ← readU32
    let values ← times readI64 count
    pure (attrs.emplace attrName (.ints values))
  else throw (.runtimeError (text "Unknown attribute tag in model file: " ++ text (toString (ofLittleEndian tag))))

def readNode (walk : FiniteMap.Traversal Text (NodeEntry FloatBits)) (model : Model FloatBits) :
    Stream (Model FloatBits) := do
  let name ← readString
  let opType ← readString
  let inputs ← readStrings
  let outputs ← readStrings
  let numAttrs ← readU32
  let attrs ← repeated readAttribute numAttrs ∅
  pure { model with graph := model.graph.addNode walk (Node.make name opType inputs outputs attrs) }

/-- The stream after the version number. -/
def readModel (walk : FiniteMap.Traversal Text (NodeEntry FloatBits)) : Stream (Model FloatBits) := do
  let numInitializers ← readU32
  let model ← repeated readInitializer numInitializers {}
  let numNodes ← readU32
  let model ← repeated (readNode walk) numNodes model
  let graphInputs ← readStrings
  let graphOutputs ← readStrings
  pure { model with graph := { model.graph with inputs := graphInputs, outputs := graphOutputs } }

def readFile (walk : FiniteMap.Traversal Text (NodeEntry FloatBits)) (path : Text) : Stream (Model FloatBits) := do
  let notValid : Fault := .runtimeError (text "Not a valid OIEN model file: " ++ path)
  let magic ← Reader.take 4 notValid
  if magic ≠ kMagic then throw notValid
  let version ← readU32
  if version ≠ kVersion then
    throw (.runtimeError (text "Unsupported OIEN model version: " ++ text (toString version)))
  readModel walk

/-- `load`: what is left of the file after the last name is not looked at. -/
def load (walk : FiniteMap.Traversal Text (NodeEntry FloatBits)) (path : Text) (file : Option (List UInt8)) :
    Except Fault (Model FloatBits) := do
  match file with
  | none => .error (.runtimeError (text "Failed to open model file: " ++ path))
  | some bytes =>
    let (model, _) ← (readFile walk path).run bytes
    pure model

theorem load_accepts {walk : FiniteMap.Traversal Text (NodeEntry FloatBits)} {path : Text} {bytes : List UInt8}
    {model : Model FloatBits} (accepted : load walk path (some bytes) = .ok model) :
    ∃ rest, (readFile walk path).run bytes = .ok (model, rest) := by
  cases read : (readFile walk path).run bytes with
  | error e =>
    rw [load, read] at accepted
    cases accepted
  | ok found =>
    rw [load, read] at accepted
    cases accepted
    exact ⟨found.2, rfl⟩

def writeStrings (names : List Text) : List UInt8 := writeU32 names.length ++ names.flatMap writeString

def writeInitializer (initializer : Text × Tensor FloatBits) : List UInt8 :=
  writeString initializer.1 ++ writeU32 initializer.2.shape.length ++ initializer.2.shape.flatMap writeU64 ++
    initializer.2.data.flatMap writeF32

def writeAttribute (attr : Text × Attribute FloatBits) : List UInt8 :=
  writeString attr.1 ++
    match attr.2 with
    | .int value => kAttrInt :: writeI64 value
    | .float value => kAttrFloat :: writeF32 value
    | .ints values => kAttrInts :: (writeU32 values.length ++ values.flatMap writeI64)

/-- The orders in which the three kinds of hash table are walked. -/
structure Walks where
  nodes : FiniteMap.Traversal Text (NodeEntry FloatBits)
  initializers : FiniteMap.Traversal Text (Tensor FloatBits)
  attributes : FiniteMap.Traversal Text (Attribute FloatBits)

def writeNode (walks : Walks) (node : Node FloatBits) : List UInt8 :=
  writeString node.name ++ writeString node.opTypeStr ++ writeStrings node.inputs ++ writeStrings node.outputs ++
    writeU32 node.attributes.keys.length ++ (walks.attributes.entries node.attributes).flatMap writeAttribute

def save (walks : Walks) (path : Text) (opened : Bool) (model : Model FloatBits) : Except Fault (List UInt8) := do
  if !opened then throw (.runtimeError (text "Failed to open file for writing: " ++ path))
  let nodes ← model.graph.nodesInInsertionOrder
  pure (kMagic ++ writeU32 kVersion ++
    writeU32 model.initializers.keys.length ++ (walks.initializers.entries model.initializers).flatMap writeInitializer ++
    writeU32 nodes.length ++ nodes.flatMap (fun entry => writeNode walks entry.node) ++
    writeStrings model.graph.inputs ++ writeStrings model.graph.outputs)

end ModelLoader
end FromScratch.Inference
