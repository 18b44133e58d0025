import Mathlib.Data.List.Perm.Basic

/-! The worker pool's fork-join loop: how `parallelFor` cuts a range into shards.
The shards run at the same time; what they do is taken in some order. -/

namespace FromScratch.Inference

/-- The range `[begin, end)` a task was given. -/
abbrev Shard := Nat × Nat

/-- A pool and the thread that calls it. -/
structure ThreadPool where
  workers : Nat
  /-- The caller is one of the workers. -/
  insidePool : Bool
  /-- The order in which the shards of a call take effect. -/
  order : List Shard → List Shard
  perm : ∀ shards, (order shards).Perm shards

namespace ThreadPool

/-- The shards one after the other. -/
def inOrder (workers : Nat) (insidePool : Bool) : ThreadPool := ⟨workers, insidePool, id, fun _ => .refl _⟩

/-- The ranges of `parallelFor`. -/
def shards (pool : ThreadPool) (count minChunk : Nat) : List Shard :=
  if count = 0 then []
  else
    let minChunk := if minChunk = 0 then 1 else minChunk
    let maxShards := (count + minChunk - 1) / minChunk
    let shards := if pool.workers + 1 > maxShards then maxShards else pool.workers + 1
    if shards ≤ 1 ∨ pool.workers = 0 ∨ pool.insidePool then [(0, count)]
    else
      let chunk := (count + shards - 1) / shards
      let begins := ((List.range shards).map (· * chunk)).takeWhile (· < count)
      begins.map fun start => (start, if start + chunk > count then count else start + chunk)

/-- The ranges of `parallelFor` as it counts them, in `size_t`. -/
def ranges (pool : ThreadPool) (count minChunk : UInt64) : List (UInt64 × UInt64) :=
  if count = 0 then []
  else
    let minChunk := if minChunk = 0 then 1 else minChunk
    let maxShards := (count + minChunk - 1) / minChunk
    let shards := UInt64.ofNat pool.workers + 1
    let shards := if shards > maxShards then maxShards else shards
    if shards ≤ 1 ∨ pool.workers = 0 ∨ pool.insidePool then [(0, count)]
    else
      let chunk := (count + shards - 1) / shards
      let begins := ((List.range shards.toNat).map fun s => UInt64.ofNat s * chunk).takeWhile (· < count)
      begins.map fun start => (start, if start + chunk > count then count else start + chunk)

def parallelFor {ε σ : Type} (pool : ThreadPool) (count minChunk : Nat) (body : Shard → σ → Except ε σ) (state : σ) :
    Except ε σ :=
  (pool.order (pool.shards count minChunk)).foldlM (fun state shard => body shard state) state

end ThreadPool
end FromScratch.Inference
