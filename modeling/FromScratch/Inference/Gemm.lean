import FromScratch.Inference.Tensor
import FromScratch.Inference.ThreadPool
import FromScratch.Lib.Cellwise

/-! The GEMM kernels. Each accumulates the raw product of its rows in the output
buffer; a shared pass then applies `alpha`, the bias and the fused ReLU. Sizes
and indices are 64-bit products that wrap, loop counters stay below them. -/

namespace FromScratch.Inference
open Lib (upTo stepping)

def kTile : Nat := 64
def kPackTile : Nat := 64

inductive GemmStrategy where
  | naive | reordered | tiled | packed | auto
deriving DecidableEq

structure GemmParams (F : Type) where
  transA : Bool
  transB : Bool
  alpha : F
  beta : F
  fuseRelu : Bool

structure Dims where
  N : Nat
  K : Nat
  M : Nat

/-- What a `uint64_t` keeps of a number. -/
def wrap (number : Nat) : Nat := number % 2 ^ 64

namespace Gemm
variable {F : Type}

def resolveDims (A B : Tensor F) (params : GemmParams F) : Except Fault Dims := do
  let n ← A.dim (if params.transA then 1 else 0)
  let k ← A.dim (if params.transA then 0 else 1)
  let m ← B.dim (if params.transB then 0 else 1)
  pure ⟨n.toNat, k.toNat, m.toNat⟩

def fetch (buffer : List F) (index : Nat) : Except Fault F := Lib.read .undefined buffer index

def store (C : Tensor F) (index : Nat) (value : F) : Except Fault (Tensor F) := C.modify index fun _ => value

/-- `for (x = lo; x < hi; x += tile)`. -/
def forTiles {σ : Type} (tile lo hi : Nat) (body : Nat → σ → Except Fault σ) : σ → Except Fault σ :=
  stepping tile (2 ^ 64) hi .endless body (2 ^ 64 / tile + 1) lo

/-- `std::min(x + tile, hi)`. -/
def tileEnd (tile x hi : Nat) : Nat := min (wrap (x + tile)) hi

section Kernels
variable [Scalar F] (A B : List F) (d : Dims) (p : GemmParams F)

def accumulateNaive (rowBegin rowEnd : Nat) : Tensor F → Except Fault (Tensor F) :=
  upTo rowBegin rowEnd fun i => upTo 0 d.M fun j C => do
    let acc ← upTo 0 d.K (fun k acc => do
      let a ← fetch A (if p.transA then wrap (k * d.N + i) else wrap (i * d.K + k))
      let b ← fetch B (if p.transB then wrap (j * d.K + k) else wrap (k * d.M + j))
      pure (Scalar.add acc (Scalar.mul a b))) Scalar.zero
    store C (wrap (i * d.M + j)) acc

/-- One step `acc += arow[k] * brow[k]` of a contiguous dot product. -/
def dotStep (arow brow k : Nat) (acc : F) : Except Fault F := do
  let a ← fetch A (arow + k)
  let b ← fetch B (brow + k)
  pure (Scalar.add acc (Scalar.mul a b))

/-- The body of the loop unrolled four times, `k = 4 * quarter`. -/
def dotFourSteps (arow brow quarter : Nat) (acc : F × F × F × F) : Except Fault (F × F × F × F) := do
  let k := 4 * quarter
  let a0 ← dotStep A B arow brow k acc.1
  let a1 ← dotStep A B arow brow (k + 1) acc.2.1
  let a2 ← dotStep A B arow brow (k + 2) acc.2.2.1
  let a3 ← dotStep A B arow brow (k + 3) acc.2.2.2
  pure (a0, a1, a2, a3)

/-- Four partial sums over the multiples of four with `k + 4 <= K`, then the tail. -/
def accumulateDotContiguous (rowBegin rowEnd : Nat) : Tensor F → Except Fault (Tensor F) :=
  upTo rowBegin rowEnd fun i => upTo 0 d.M fun j C => do
    let arow := wrap (i * d.K)
    let brow := wrap (j * d.K)
    let (a0, a1, a2, a3) ← upTo 0 (d.K / 4) (dotFourSteps A B arow brow) (Scalar.zero, Scalar.zero, Scalar.zero, Scalar.zero)
    let acc ← upTo (4 * (d.K / 4)) d.K (dotStep A B arow brow) (Scalar.add (Scalar.add a0 a1) (Scalar.add a2 a3))
    store C (wrap (i * d.M + j)) acc

/-- `std::fill(C + i * d.M, C + i * d.M + d.M, 0.0f)`. -/
def clearRow (i : Nat) : Tensor F → Except Fault (Tensor F) :=
  upTo 0 d.M fun j C => store C (wrap (i * d.M) + j) Scalar.zero

/-- The loop over `j` of a kernel that walks rows of `C`: `crow[j] += a * b(k, j)`
for the columns `[jj, jMax)`, and nothing when `a` is zero. -/
def addRow (i k jj jMax : Nat) (C : Tensor F) : Except Fault (Tensor F) := do
  let a ← fetch A (if p.transA then wrap (k * d.N + i) else wrap (i * d.K + k))
  if Scalar.isZero a then pure C
  else upTo jj jMax (fun j C => do
    let b ← fetch B (if p.transB then wrap (j * d.K + k) else wrap (k * d.M) + j)
    C.modify (wrap (i * d.M) + j) fun c => Scalar.add c (Scalar.mul a b)) C

def accumulateReordered (rowBegin rowEnd : Nat) : Tensor F → Except Fault (Tensor F) :=
  if p.transB && !p.transA then accumulateDotContiguous A B d rowBegin rowEnd
  else upTo rowBegin rowEnd fun i C => do
    let C ← clearRow d i C
    upTo 0 d.K (fun k => addRow A B d p i k 0 d.M) C

def accumulateTiled (rowBegin rowEnd : Nat) (C : Tensor F) : Except Fault (Tensor F) := do
  let C ← upTo rowBegin rowEnd (clearRow d) C
  forTiles kTile rowBegin rowEnd (fun ii => forTiles kTile 0 d.K fun kk => forTiles kTile 0 d.M fun jj =>
    upTo ii (tileEnd kTile ii rowEnd) fun i => upTo kk (tileEnd kTile kk d.K) fun k =>
      addRow A B d p i k jj (tileEnd kTile jj d.M)) C

/-- The thread-local buffers of `accumulatePacked`. -/
structure Packs (F : Type) where
  packA : List F
  packB : List F

/-- `resize(kPackTile * kPackTile)`: what was there stays. -/
def resize (pack : List F) : List F :=
  pack.take (kPackTile * kPackTile) ++ List.replicate (kPackTile * kPackTile - pack.length) Scalar.zero

def storePack (pack : List F) (index : Nat) (value : F) : Except Fault (List F) :=
  if index < pack.length then .ok (pack.set index value) else .error .undefined

/-- The two loops that copy a block into a pack buffer. -/
def packBlock (rows cols : Nat) (element : Nat → Nat → Except Fault F) : List F → Except Fault (List F) :=
  upTo 0 rows fun i => upTo 0 cols fun j pack => do
    let value ← element i j
    storePack pack (i * cols + j) value

def packRowsOfA (ii kk rows depth : Nat) (state : Packs F × Tensor F) : Except Fault (Packs F × Tensor F) := do
  let packA ← packBlock rows depth (fun i k =>
    fetch A (if p.transA then wrap ((kk + k) * d.N + (ii + i)) else wrap ((ii + i) * d.K + (kk + k)))) state.1.packA
  pure ({ state.1 with packA }, state.2)

def packRowsOfB (kk jj depth cols : Nat) (state : Packs F × Tensor F) : Except Fault (Packs F × Tensor F) := do
  let packB ← packBlock depth cols (fun k j =>
    fetch B (if p.transB then wrap ((jj + j) * d.K + (kk + k)) else wrap ((kk + k) * d.M + (jj + j)))) state.1.packB
  pure ({ state.1 with packB }, state.2)

/-- `start` is where the block's first element lies in `C`. -/
def microKernel (packA packB : List F) (start rows depth cols ldc : Nat) : Tensor F → Except Fault (Tensor F) :=
  upTo 0 rows fun i => upTo 0 depth fun k C => do
    let a ← fetch packA (i * depth + k)
    if Scalar.isZero a then pure C
    else upTo 0 cols (fun j C => do
      let b ← fetch packB (k * cols + j)
      C.modify (start + wrap (i * ldc) + j) fun c => Scalar.add c (Scalar.mul a b)) C

/-- A tile does not end before it begins unless the counter has wrapped, and then
the loop over `ii` is endless. -/
def accumulatePacked (packs : Packs F) (rowBegin rowEnd : Nat) (C : Tensor F) : Except Fault (Tensor F) := do
  let C ← upTo rowBegin rowEnd (clearRow d) C
  let (_, C) ← forTiles kPackTile rowBegin rowEnd (fun ii => forTiles kPackTile 0 d.K fun kk state => do
    let rows := tileEnd kPackTile ii rowEnd - ii
    let depth := tileEnd kPackTile kk d.K - kk
    let state ← packRowsOfA A d p ii kk rows depth state
    forTiles kPackTile 0 d.M (fun jj state => do
      let cols := tileEnd kPackTile jj d.M - jj
      let state ← packRowsOfB B d p kk jj depth cols state
      let C ← microKernel state.1.packA state.1.packB (wrap (ii * d.M) + jj) rows depth cols d.M state.2
      pure (state.1, C)) state)
    (({ packA := resize packs.packA, packB := resize packs.packB } : Packs F), C)
  pure C

/-- The branches of `finalize` on the size of the bias. -/
def addBias (bias : List F) (i j : Nat) (value : F) : Except Fault F :=
  let perColumn := bias.length = d.M
  let full := bias.length = wrap (d.N * d.M)
  if perColumn then do
    let b ← fetch bias j
    pure (Scalar.add value (Scalar.mul p.beta b))
  else if full then do
    let b ← fetch bias (wrap (i * d.M + j))
    pure (Scalar.add value (Scalar.mul p.beta b))
  else pure value

def finalize (bias : List F) (rowBegin rowEnd : Nat) : Tensor F → Except Fault (Tensor F) :=
  upTo rowBegin rowEnd fun i => upTo 0 d.M fun j C => do
    let crow ← fetch C.data (wrap (i * d.M) + j)
    let value ← addBias d p bias i j (Scalar.mul p.alpha crow)
    store C (wrap (i * d.M) + j) (if p.fuseRelu then Scalar.max Scalar.zero value else value)

end Kernels

def resolveAuto (d : Dims) : GemmStrategy :=
  let work := wrap (d.N * d.K * d.M)
  if work < 2 ^ 12 then .reordered
  else if 16 ≤ d.N then .packed
  else .tiled

def validate (A B bias : Tensor F) (params : GemmParams F) : Except Fault Unit := do
  if A.rank ≠ 2 ∨ B.rank ≠ 2 then
    throw (.invalidArgument (text "Gemm expects rank-2 tensors for A and B"))
  let innerA ← A.dim (if params.transA then 0 else 1)
  let innerB ← B.dim (if params.transB then 1 else 0)
  if innerA ≠ innerB then
    throw (.invalidArgument (text "Gemm inner dimensions do not match"))
  let d ← resolveDims A B params
  if bias.data.length ≠ 0 ∧ bias.data.length ≠ d.M ∧ bias.data.length ≠ wrap (d.N * d.M) then
    throw (.invalidArgument (text "Gemm bias shape is not broadcastable to the output"))

def outputShape (A B : Tensor F) (params : GemmParams F) : Except Fault (List UInt64) := do
  let d ← resolveDims A B params
  pure [UInt64.ofNat d.N, UInt64.ofNat d.M]

/-- What a call finds outside its arguments: the pool, if there is one, and what
earlier calls left in the pack buffers of the threads that take up the shards. -/
structure Threads (F : Type) where
  pool : Option ThreadPool
  packs : Shard → Packs F

/-- `runRows(begin, end)`. -/
def runRows [Scalar F] (A B bias : List F) (d : Dims) (params : GemmParams F) (strategy : GemmStrategy)
    (packs : Shard → Packs F) (rows : Shard) (C : Tensor F) : Except Fault (Tensor F) := do
  let C ← match strategy with
    | .naive => accumulateNaive A B d params rows.1 rows.2 C
    | .reordered => accumulateReordered A B d params rows.1 rows.2 C
    | .tiled => accumulateTiled A B d params rows.1 rows.2 C
    | .packed => accumulatePacked A B d params (packs rows) rows.1 rows.2 C
    | .auto => pure C
  finalize d params bias rows.1 rows.2 C

def worthSharding (d : Dims) : Bool := 1 < d.N ∧ 2 ^ 18 ≤ wrap (wrap (d.K * d.M) * d.N)

/-- The result is what `out` holds afterwards. -/
def compute [Scalar F] (A B bias out : Tensor F) (params : GemmParams F) (strategy : GemmStrategy) (threads : Threads F) :
    Except Fault (Tensor F) := do
  validate A B bias params
  let d ← resolveDims A B params
  let shape := [UInt64.ofNat d.N, UInt64.ofNat d.M]
  let C ← if out.shape = shape then pure out else Tensor.filled shape Scalar.zero
  let strategy := if strategy = .auto then resolveAuto d else strategy
  let run := runRows A.data B.data bias.data d params strategy threads.packs
  match threads.pool with
  | some pool => if worthSharding d then pool.parallelFor d.N 1 run C else run (0, d.N) C
  | none => run (0, d.N) C

end Gemm
end FromScratch.Inference
