import FromScratch.Inference.Session

/-! The engine, a facade over one session. `infer` is `InferenceSession.run`. -/

namespace FromScratch.Inference.InferenceEngine
open InferenceSession

variable {F : Type} [Scalar F]

def inferBatch (maxBatch : UInt64) (provider : Provider) (session : Session F) (call : Call F) (batch : Tensor F)
    (tensors : Slots F) :
    Except Fault (Slots F × Except Fault (Tensor F)) :=
  if batch.rank = 0 then .ok (tensors, .error (.invalidArgument (text "Batch tensor must have at least one dimension")))
  else do
    let count ← batch.dim 0
    if count > maxBatch then
      pure (tensors, .error (.invalidArgument (text "Batch size " ++ text (toString count.toNat) ++
        text " exceeds max_batch_size " ++
        text (toString maxBatch.toNat))))
    else run provider session call batch tensors

theorem inferBatch_eq {maxBatch count : UInt64} {shape : List UInt64} {batch : Tensor F}
    (shaped : batch.shape = count :: shape)
    (provider : Provider) (session : Session F) (call : Call F) (tensors : Slots F) :
    inferBatch maxBatch provider session call batch tensors =
      if count > maxBatch then
        .ok (tensors, .error (.invalidArgument (text "Batch size " ++ text (toString count.toNat) ++
          text " exceeds max_batch_size " ++
          text (toString maxBatch.toNat))))
      else run provider session call batch tensors := by
  have ranked : batch.rank ≠ 0 := by
    rw [Tensor.rank, shaped]
    exact Nat.succ_ne_zero _
  have first : batch.dim 0 = .ok count := by
    rw [Tensor.dim, shaped]
    rfl
  rw [inferBatch, if_neg ranked, first]
  rfl

/-- A batch that is not too large is handed to the session. -/
theorem inferBatch_ok_iff {maxBatch count : UInt64} {shape : List UInt64} {batch result : Tensor F} {provider : Provider}
    {session : Session F} {call : Call F} {tensors after : Slots F} (shaped : batch.shape = count :: shape) :
    inferBatch maxBatch provider session call batch tensors = .ok (after, .ok result) ↔
      count ≤ maxBatch ∧ run provider session call batch tensors = .ok (after, .ok result) := by
  rw [inferBatch_eq shaped]
  by_cases many : count > maxBatch
  · rw [if_pos many]
    exact iff_of_false nofun fun ⟨few, _⟩ => UInt64.not_le.mpr many few
  · rw [if_neg many]
    exact (and_iff_right (UInt64.not_lt.mp many)).symm

end FromScratch.Inference.InferenceEngine
