import FromScratch.Inference.Batcher
import FromScratch.Inference.Engine
import FromScratch.Lib.Cellwise
import FromScratch.Lib.Reader

/-! The command line: a dataset that is read from its file and given to the engine
batch by batch, and a single image. The times that are taken are left out. -/

namespace FromScratch.Inference
open Lib (Reader littleEndian ofLittleEndian upTo stepping)

namespace Cli

def kImagePixels : Nat := 28 * 28

section Files

structure Dataset where
  pixels : List UInt8 := []
  labels : List UInt8 := []
  count : Nat := 0

def invalidCount : Fault := .runtimeError (text "Dataset file declares an invalid sample count")

def truncated (i : Nat) : Fault := .runtimeError (text "Dataset truncated at sample " ++ text (toString i))

/-- The body of the loop, with its counter: what is read goes behind what is there. -/
def readSample (state : Nat × Dataset) : Reader Fault (Nat × Dataset) := do
  let (i, dataset) := state
  let record ← Reader.take (kImagePixels + 1) (truncated i)
  pure (i + 1, { dataset with
    pixels := dataset.pixels ++ record.take kImagePixels, labels := dataset.labels ++ record.drop kImagePixels })

def readDataset : Reader Fault Dataset := do
  let bytes ← Reader.take 4 invalidCount
  let count := ofLittleEndian bytes
  if count = 0 ∨ count > 10000000 then throw invalidCount
  else do
    let (_, dataset) ← Reader.repeated readSample count (0, { count })
    pure dataset

def loadDataset (path : Text) : Option (List UInt8) → Except Fault Dataset
  | none => .error (.runtimeError (text "Failed to open dataset file: " ++ path))
  | some bytes => do
    let (dataset, _) ← readDataset.run bytes
    pure dataset

/-- An image and its label. -/
structure Sample where
  image : List UInt8
  label : UInt8

/-- The file `export_test_set.py` writes. -/
def exportTestSet (testSet : List Sample) : List UInt8 :=
  littleEndian 4 testSet.length ++ testSet.flatMap fun sample => sample.image ++ [sample.label]

end Files

section Evaluation
variable {F : Type}

/-- The rest of `std::max_element`, where `largest` is the first of the largest so far. -/
def maxElement [LT F] [DecidableLT F] (largest : Nat × F) (i : Nat) : List F → Nat × F
  | [] => largest
  | value :: values => maxElement (if largest.2 < value then (i, value) else largest) (i + 1) values

def argmax [LT F] [DecidableLT F] : List F → Nat
  | [] => 0
  | value :: values => (maxElement (0, value) 1 values).1

/-- `dst[i * kImagePixels + p] = static_cast<float>(src[p]) / 255.0f`. -/
def fillBatch (normalize : UInt8 → F) (dataset : Dataset) (offset current : Nat) : Tensor F → Except Fault (Tensor F) :=
  upTo 0 current fun i => upTo 0 kImagePixels fun p input => do
    let pixel ← Lib.read .undefined dataset.pixels ((offset + i) * kImagePixels + p)
    input.modify (i * kImagePixels + p) fun _ => normalize pixel

def countCorrect [LT F] [DecidableLT F] (dataset : Dataset) (offset current : Nat) (output : Tensor F) (classes : UInt64) :
    Nat → Except Fault Nat :=
  upTo 0 current fun i correct => do
    let logits ← output.slice (UInt64.ofNat i * classes) (UInt64.ofNat i * classes + classes)
    let label ← Lib.read .undefined dataset.labels (offset + i)
    pure (if argmax logits = label.toNat then correct + 1 else correct)

structure EvalResult where
  correct : Nat
  samples : Nat
deriving DecidableEq

/-- The tensor that is filled again and again, the slots of the session, and the count. -/
structure Evaluation (F : Type) where
  input : Tensor F
  tensors : Slots F
  correct : Nat

section Batches
variable [Scalar F]

/-- A tensor for as many images: the last one, if it is of this size. -/
def inputFor (current : Nat) (input : Tensor F) : Except Fault (Tensor F) := do
  let extent ← input.dim 0
  if UInt64.ofNat current ≠ extent then Tensor.filled [UInt64.ofNat current, UInt64.ofNat kImagePixels] Scalar.zero
  else pure input

variable [LT F] [DecidableLT F]

def evaluateBatch (normalize : UInt8 → F) (maxBatch : UInt64) (provider : Provider) (session : Session F)
    (call : InferenceSession.Call F) (dataset : Dataset) (batchSize offset : Nat) (state : Evaluation F) :
    Except Fault (Evaluation F) := do
  let current := min batchSize (dataset.count - offset)
  let input ← inputFor current state.input
  let input ← fillBatch normalize dataset offset current input
  let (tensors, answer) ← InferenceEngine.inferBatch maxBatch provider session call input state.tensors
  let output ← answer
  let classes ← output.dim 1
  let correct ← countCorrect dataset offset current output classes state.correct
  pure ⟨input, tensors, correct⟩

/-- How many batches are expected is computed first, by a division. -/
def evaluate (normalize : UInt8 → F) (maxBatch : UInt64) (provider : Provider) (session : Session F)
    (call : Nat → InferenceSession.Call F) (dataset : Dataset) (batchSize : Nat) (tensors : Slots F) :
    Except Fault (Slots F × EvalResult) :=
  if batchSize = 0 then .error .undefined
  else do
    let input ← Tensor.filled [UInt64.ofNat batchSize, UInt64.ofNat kImagePixels] Scalar.zero
    let state ← stepping batchSize (2 ^ 64) dataset.count .endless
      (fun offset => evaluateBatch normalize maxBatch provider session (call offset) dataset batchSize offset)
      (dataset.count + 1) 0 ⟨input, tensors, 0⟩
    pure (state.tensors, ⟨state.correct, dataset.count⟩)

/-- `runSingle`, once the file is read: the digit that is printed. The first answer
only warms the engine up. -/
def runSingle (normalize : UInt8 → F) (provider : Provider) (session : Session F) (warm call : InferenceSession.Call F)
    (raw : List UInt8) (tensors : Slots F) : Except Fault Nat :=
  if raw.length ≠ kImagePixels then
    .error (.runtimeError (text "Expected a 784-byte (28x28) raw uint8 image, got " ++ text (toString raw.length) ++
      text " bytes"))
  else do
    let input ← Tensor.ofValues [1, 28, 28] (raw.map normalize)
    let (tensors, first) ← InferenceSession.run provider session warm input tensors
    let _ ← first
    let (_, answer) ← InferenceSession.run provider session call input tensors
    let output ← answer
    pure (argmax output.data)

end Batches
end Evaluation
end Cli
end FromScratch.Inference
