import FromScratch.Inference.Batcher

/-! One batch of the dynamic batcher, down to the promise. What a statement has done
before it throws stays done. -/

namespace FromScratch.Inference

/-- What `catch (...)` catches. -/
inductive Exception where
  | fault (fault : Fault)
  | badAlloc
  | systemError
  | promiseAlreadySatisfied
deriving DecidableEq

/-- How a call is left if it does not return. -/
inductive Exit where
  | thrown (exception : Exception)
  | undefined
deriving DecidableEq

def Fault.exit (fault : Fault) : Exit := if fault.Thrown then .thrown (.fault fault) else .undefined

/-- What the future of a promise gives. -/
abbrev Outcome (F : Type) := Except Exception (List F)

/-- The promises that are satisfied, in this order, and the statistics. -/
structure Settlement (F : Type) where
  outcomes : List (Nat × Outcome F) := []
  stats : BatcherStats := {}

abbrev Serving (F : Type) := ExceptT Exit (StateM (Settlement F))

/-- What the batch meets: the allocation of its input, the engine, the allocation
of each result vector, and the mutex. -/
structure Surroundings (F : Type) where
  allocate : Except Exception Unit
  inferBatch : Tensor F → Except Exception (Tensor F)
  vector : Nat → Except Exception Unit
  lock : Except Exception Unit

namespace Serving
variable {F : Type}

def run {α : Type} (serving : Serving F α) (settlement : Settlement F) : Except Exit α × Settlement F :=
  StateT.run (ExceptT.run serving) settlement

def computed {α : Type} (run : Except Fault α) : Serving F α := ExceptT.mk (pure (run.mapError Fault.exit))

def attempt {α : Type} (run : Except Exception α) : Serving F α := ExceptT.mk (pure (run.mapError Exit.thrown))

/-- `set_value` and `set_exception`. -/
def satisfy (promise : Nat) (outcome : Outcome F) : Serving F Unit := do
  if promise ∈ (← get).outcomes.map Prod.fst then throw (.thrown .promiseAlreadySatisfied)
  modify fun settlement => { settlement with outcomes := settlement.outcomes ++ [(promise, outcome)] }

end Serving

namespace Batcher
open Serving
variable {F : Type}

def batchClasses (n : Nat) (output : Tensor F) : Except Fault UInt64 := do
  let unexpected : Fault := .runtimeError (text "Batched output has unexpected shape")
  if output.rank ≠ 2 then throw unexpected
  let first ← output.dim 0
  if first ≠ UInt64.ofNat n then throw unexpected
  output.dim 1

/-- `std::vector<float> logits(src + i * classes, src + (i + 1) * classes)`. -/
def batchRow (output : Tensor F) (classes : UInt64) (i : Nat) : Except Fault (List F) :=
  output.slice (UInt64.ofNat i * classes) ((UInt64.ofNat i + 1) * classes)

def answerRows (surroundings : Surroundings F) (output : Tensor F) (classes : UInt64) :
    Nat → List (Request F) → Serving F Unit
  | _, [] => pure ()
  | i, request :: batch => do
    attempt (surroundings.vector i)
    let logits ← computed (batchRow output classes i)
    satisfy request.promise (.ok logits)
    answerRows surroundings output classes (i + 1) batch

def answerError (exception : Exception) : List (Request F) → Serving F Unit
  | [] => pure ()
  | request :: batch => do
    satisfy request.promise (.error exception)
    answerError exception batch

/-- The `try` block. -/
def tryBatch [Scalar F] (config : BatcherConfig) (surroundings : Surroundings F) (batch : List (Request F)) :
    Serving F Unit := do
  attempt surroundings.allocate
  let input ← computed (packBatch config batch)
  let output ← attempt (surroundings.inferBatch input)
  let classes ← computed (batchClasses batch.length output)
  answerRows surroundings output classes 0 batch
  attempt surroundings.lock
  modify fun settlement => { settlement with stats := settlement.stats.count batch.length }

def runBatch [Scalar F] (config : BatcherConfig) (surroundings : Surroundings F) (batch : List (Request F)) :
    Serving F Unit :=
  tryCatch (tryBatch config surroundings batch) fun
    | .thrown exception => answerError exception batch
    | .undefined => throw .undefined

end Batcher
end FromScratch.Inference
