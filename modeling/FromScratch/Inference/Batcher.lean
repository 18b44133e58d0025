import FromScratch.Inference.Provider

/-! The dynamic batcher: clients that put requests in a queue, and one worker that
takes them out in batches. What happens under the mutex happens at once. A
`Request` is the number of its promise and its features. -/

namespace FromScratch.Inference

namespace Tensor
variable {F : Type}

/-- `std::copy(values.begin(), values.end(), tensor.data() + offset)`. -/
def copyAt (tensor : Tensor F) (offset : UInt64) (values : List F) : Except Fault (Tensor F) :=
  if inside : offset.toNat + values.length ≤ tensor.data.length then
    .ok ⟨tensor.shape, tensor.data.take offset.toNat ++ values ++ tensor.data.drop (offset.toNat + values.length),
      by rw [← tensor.sized]; simp; omega, by simp; have := tensor.fits; omega⟩
  else .error .undefined

/-- `std::vector<float>(tensor.data() + first, tensor.data() + last)`. -/
def slice (tensor : Tensor F) (first last : UInt64) : Except Fault (List F) :=
  if first ≤ last ∧ last.toNat ≤ tensor.data.length then .ok ((tensor.data.take last.toNat).drop first.toNat)
  else .error .undefined

end Tensor

structure BatcherConfig where
  maxBatchSize : UInt64
  maxQueueDelayUs : UInt64
  featureCount : UInt64

/-- `maxBatchSize_`. -/
def BatcherConfig.limit (config : BatcherConfig) : UInt64 := if config.maxBatchSize = 0 then 1 else config.maxBatchSize

structure Request (F : Type) where
  promise : Nat
  features : List F

/-- What a future gives: logits or an exception. -/
abbrev Answer (F : Type) := Except Fault (List F)

structure BatcherStats where
  requests : Nat := 0
  batches : Nat := 0
  maxBatchObserved : Nat := 0

def BatcherStats.count (stats : BatcherStats) (size : Nat) : BatcherStats :=
  ⟨stats.requests + size, stats.batches + 1, if size > stats.maxBatchObserved then size else stats.maxBatchObserved⟩

/-- Where the worker is. -/
inductive Worker (F : Type) where
  /-- At the top of the loop. -/
  | looping
  /-- In `condition_.wait`. -/
  | waiting (notified : Bool)
  /-- In `condition_.wait_for`. -/
  | delaying (notified expired : Bool)
  /-- In `engine_.inferBatch`. -/
  | inferring (batch : List (Request F))
  /-- Before these promises, and before the statistics if they are to count the batch. -/
  | answering (left : List (Nat × Answer F)) (counted : Option Nat)
  /-- After an access no buffer stands behind. -/
  | lost
  | returned

structure Batcher (F : Type) where
  queue : List (Request F) := []
  stopping : Bool := false
  stats : BatcherStats := {}
  worker : Worker F := .looping
  /-- The promises that have been made. -/
  promises : Nat := 0
  /-- Threads that have left the mutex and not yet notified the worker. -/
  notifying : Nat := 0

/-- Whose turn it is. `infer` brings what the engine makes of the batch. -/
inductive BatcherAction (F : Type) where
  | enqueue (features : List F)
  | stop
  | notify
  | wakeSpuriously
  | expire
  | infer (returned : Except Fault (Tensor F))
  | work

inductive BatcherEvent (F : Type) where
  | accepted (request : Request F)
  | refused (fault : Fault)
  | took (batch : List (Request F))
  | inferred (batch : List (Request F)) (input : Tensor F) (returned : Except Fault (Tensor F))
  | answered (promise : Nat) (answer : Answer F)
  /-- Another turn. -/
  | turned
  /-- Nobody is there to take the turn. -/
  | nobody

namespace Batcher
variable {F : Type}

/-- `enqueue`, up to the end of the mutex. -/
def enqueue (config : BatcherConfig) (features : List F) (batcher : Batcher F) : Except Fault (Request F × Batcher F) := do
  if features.length ≠ config.featureCount.toNat then
    throw (.invalidArgument (text "Expected " ++ text (toString config.featureCount.toNat) ++ text " features, got " ++
      text (toString features.length)))
  if batcher.stopping then throw (.runtimeError (text "Batcher is shutting down"))
  let request := ⟨batcher.promises, features⟩
  pure (request, { batcher with
    queue := batcher.queue ++ [request], promises := batcher.promises + 1, notifying := batcher.notifying + 1 })

/-- `stop`, up to the end of the mutex. -/
def stop (batcher : Batcher F) : Batcher F :=
  if batcher.stopping then batcher else { batcher with stopping := true, notifying := batcher.notifying + 1 }

/-- The worker hears of a notification if it waits for one. -/
def wake : Worker F → Worker F
  | .waiting _ => .waiting true
  | .delaying _ expired => .delaying true expired
  | worker => worker

def packBatch [Scalar F] (config : BatcherConfig) (batch : List (Request F)) : Except Fault (Tensor F) := do
  let input ← Tensor.filled [UInt64.ofNat batch.length, config.featureCount] Scalar.zero
  batch.zipIdx.foldlM (fun input (request, i) => input.copyAt (UInt64.ofNat i * config.featureCount) request.features) input

/-- The logits of a batch of `n`. -/
def sliceBatch (n : Nat) (output : Tensor F) : Except Fault (List (List F)) := do
  let unexpected : Fault := .runtimeError (text "Batched output has unexpected shape")
  if output.rank ≠ 2 then throw unexpected
  let first ← output.dim 0
  if first ≠ UInt64.ofNat n then throw unexpected
  let classes ← output.dim 1
  (List.range n).mapM fun i => output.slice (UInt64.ofNat i * classes) ((UInt64.ofNat i + 1) * classes)

/-- What becomes of the promises of the batch. -/
def settle (batch : List (Request F)) : Except Fault (List (List F)) → Worker F
  | .ok logits => .answering ((batch.map Request.promise).zip (logits.map .ok)) (some batch.length)
  | .error fault => if fault.Thrown then .answering
      (batch.map fun request => (request.promise, .error fault)) none else .lost

def takeBatch (config : BatcherConfig) (batcher : Batcher F) : BatcherEvent F × Batcher F :=
  let batch := batcher.queue.take config.limit.toNat
  (.took batch, { batcher with
    queue := batcher.queue.drop config.limit.toNat
    worker := if batch = [] then .looping else .inferring batch })

/-- What the second wait waits for. -/
def gathered (config : BatcherConfig) (batcher : Batcher F) : Bool :=
  batcher.stopping || config.limit.toNat ≤ batcher.queue.length

/-- The worker at the first wait, and on to where it leaves the mutex. -/
def look (config : BatcherConfig) (batcher : Batcher F) : BatcherEvent F × Batcher F :=
  if ¬batcher.stopping ∧ batcher.queue = [] then (.turned, { batcher with worker := .waiting false })
  else if batcher.stopping ∧ batcher.queue = [] then (.turned, { batcher with worker := .returned })
  else if batcher.queue.length < config.limit.toNat ∧ 0 < config.maxQueueDelayUs ∧ ¬gathered config batcher then
    (.turned, { batcher with worker := .delaying false false })
  else takeBatch config batcher

def work (config : BatcherConfig) (batcher : Batcher F) : BatcherEvent F × Batcher F :=
  match batcher.worker with
  | .looping | .waiting true => look config batcher
  | .delaying notified expired =>
    if ¬notified ∧ ¬expired then (.nobody, batcher)
    else if expired ∨ gathered config batcher then takeBatch config batcher
    else (.turned, { batcher with worker := .delaying false false })
  | .answering ((promise, answer) :: left) counted =>
      (.answered promise answer, { batcher with worker := .answering left counted })
  | .answering [] counted =>
      (.turned, { batcher with stats := counted.elim batcher.stats batcher.stats.count, worker := .looping })
  | _ => (.nobody, batcher)

def step [Scalar F] (config : BatcherConfig) (batcher : Batcher F) : BatcherAction F → BatcherEvent F × Batcher F
  | .enqueue features =>
    match enqueue config features batcher with
    | .ok (request, batcher) => (.accepted request, batcher)
    | .error fault => (.refused fault, batcher)
  | .stop => (.turned, batcher.stop)
  | .notify =>
    if 0 < batcher.notifying then (.turned,
      { batcher with notifying := batcher.notifying - 1, worker := wake batcher.worker })
    else (.nobody, batcher)
  | .wakeSpuriously => (.turned, { batcher with worker := wake batcher.worker })
  | .expire =>
    match batcher.worker with
    | .delaying notified false => (.turned, { batcher with worker := .delaying notified true })
    | _ => (.nobody, batcher)
  | .infer returned =>
    match batcher.worker with
    | .inferring batch =>
      match packBatch config batch with
      | .ok input => (.inferred batch input returned,
          { batcher with worker := settle batch (returned >>= sliceBatch batch.length) })
      | .error fault => (.turned, { batcher with worker := settle batch (.error fault) })
    | _ => (.nobody, batcher)
  | .work => work config batcher

end Batcher
end FromScratch.Inference
