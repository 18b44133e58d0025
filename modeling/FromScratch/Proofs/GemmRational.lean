import FromScratch.Proofs.GemmSharding
import Mathlib.Algebra.BigOperators.Group.Finset.Basic
import Mathlib.Algebra.BigOperators.Intervals
import Mathlib.Data.Rat.Defs
import Mathlib.Algebra.Order.Ring.Rat
import Mathlib.Tactic.Abel

/-! What a multiplication computes when arithmetic is exact: the matrix product,
scaled, with the bias added, whichever kernel runs. -/

namespace FromScratch.Inference

instance : Scalar ℚ where
  zero := 0
  one := 1
  add := (· + ·)
  mul := (· * ·)
  max := max
  isZero value := decide (value = 0)

namespace Gemm

section Sums
variable {M : Type} [AddCommMonoid M]

theorem foldl_sum (term : Nat → M) (first count : Nat) (start : M) :
    (List.range' first count).foldl (fun acc k => acc + term k) start = start + ∑ k ∈ Finset.range count, term
    (first + k) := by
  induction count with
  | zero => simp
  | succ count ih =>
    rw [List.range'_1_concat, List.foldl_append, ih, Finset.sum_range_succ, ← add_assoc]
    rfl

/-- Summing four lanes of a range is summing the range. -/
theorem sum_lanes (term : Nat → M) (quarters : Nat) :
    (∑ q ∈ Finset.range quarters, term (4 * q) + ∑ q ∈ Finset.range quarters, term (4 * q + 1)) +
        (∑ q ∈ Finset.range quarters, term (4 * q + 2) + ∑ q ∈ Finset.range quarters, term (4 * q + 3)) =
      ∑ k ∈ Finset.range (4 * quarters), term k := by
  induction quarters with
  | zero => simp
  | succ quarters ih =>
    have next : 4 * (quarters + 1) = 4 * quarters + 1 + 1 + 1 + 1 := by omega
    rw [next]
    simp only [Finset.sum_range_succ]
    rw [← ih]
    abel

end Sums

section Operands
variable (A B bias : List ℚ) (d : Dims) (p : GemmParams ℚ)

/-- `op(A)[i][k]`, `op(B)[k][j]` and the bias of an element. -/
def left (i k : Nat) : ℚ := A.getD (if p.transA then k * d.N + i else i * d.K + k) 0
def right (k j : Nat) : ℚ := B.getD (if p.transB then j * d.K + k else k * d.M + j) 0
def biasTerm (i j : Nat) : ℚ :=
  if bias.length = d.M then bias.getD j 0 else if bias.length = d.N * d.M then bias.getD (i * d.M + j) 0 else 0

def product (i j : Nat) : ℚ := ∑ k ∈ Finset.range d.K, left A d p i k * right B d p k j

/-- The element a multiplication is to compute. -/
def expected (i j : Nat) : ℚ :=
  let value := p.alpha * product A B d p i j + p.beta * biasTerm bias d i j
  if p.fuseRelu then max 0 value else value

/-- The operands hold the matrices their dimensions say. -/
structure Stored : Prop where
  left : A.length = d.N * d.K
  right : B.length = d.K * d.M
  fitsLeft : A.length * 4 < 2 ^ 64
  fitsRight : B.length * 4 < 2 ^ 64

end Operands

section Entries
variable {A B bias : List ℚ} {d : Dims} {p : GemmParams ℚ}

theorem indexA_eq (stored : Stored A B d) {i k : Nat} (row : i < d.N) (depth : k < d.K) :
    indexA d p i k = (if p.transA then k * d.N + i else i * d.K + k) ∧ indexA d p i k < A.length := by
  have fits := stored.fitsLeft
  rw [indexA, stored.left] at *
  split
  · have place := place_lt depth row
    rw [mul_comm d.K d.N] at place
    rw [wrap_of_lt (by omega)]
    exact ⟨rfl, place⟩
  · have place := place_lt row depth
    rw [wrap_of_lt (by omega)]
    exact ⟨rfl, place⟩

theorem indexB_eq (stored : Stored A B d) {k j : Nat} (depth : k < d.K) (column : j < d.M) :
    indexB d p k j = (if p.transB then j * d.K + k else k * d.M + j) ∧ indexB d p k j < B.length := by
  have fits := stored.fitsRight
  rw [indexB, stored.right] at *
  split
  · have place := place_lt column depth
    rw [mul_comm d.M d.K] at place
    rw [wrap_of_lt (by omega)]
    exact ⟨rfl, place⟩
  · have place := place_lt depth column
    rw [wrap_of_lt (by omega)]
    exact ⟨rfl, place⟩

theorem indexRowB_eq (stored : Stored A B d) {k j : Nat} (depth : k < d.K) (column : j < d.M) :
    indexRowB d p k j = indexB d p k j := by
  have fits := stored.fitsRight
  have place := place_lt depth column
  rw [stored.right] at fits
  rw [indexRowB, indexB]
  split
  · rfl
  · rw [wrap_of_lt (by omega), wrap_of_lt (by omega)]

theorem elementA_eq (stored : Stored A B d) {i k : Nat} (row : i < d.N) (depth : k < d.K) :
    elementA A d p i k = left A d p i k := by
  rw [elementA, left, (indexA_eq stored row depth).1]
  rfl

theorem elementB_eq (stored : Stored A B d) {k j : Nat} (depth : k < d.K) (column : j < d.M) :
    B.getD (indexB d p k j) Scalar.zero = right B d p k j := by
  rw [right, (indexB_eq stored depth column).1]
  rfl

/-- A kernel's loop over `k` computes the product if each step adds its term. -/
theorem foldl_product {i j : Nat} {step : ℚ → Nat → ℚ}
    (adds : ∀ acc k, k < d.K → step acc k = acc + left A d p i k * right B d p k j) :
    (List.range' 0 d.K).foldl step (Scalar.zero : ℚ) = product A B d p i j := by
  have same : (List.range' 0 d.K).foldl step (Scalar.zero : ℚ) =
      (List.range' 0 d.K).foldl (fun acc k => acc + left A d p i k * right B d p k j) 0 := by
    refine List.foldl_ext _ _ _ fun acc k member => adds acc k ?_
    have bounds := List.mem_range'_1.mp member
    omega
  rw [same, foldl_sum, product]
  simp

theorem naiveEntry_eq (stored : Stored A B d) {i j : Nat} (row : i < d.N) (column : j < d.M) :
    naiveEntry A B d p i j = product A B d p i j := by
  refine foldl_product fun acc k depth => ?_
  rw [accumulate, elementA_eq stored row depth, elementB_eq stored depth column]
  rfl

theorem sparseEntry_eq (stored : Stored A B d) {i j : Nat} (row : i < d.N) (column : j < d.M) {placeB : Nat → Nat → Nat}
    (place : ∀ k, k < d.K → placeB k j = indexB d p k j) :
    sparseEntry A B d p placeB i j = product A B d p i j := by
  refine foldl_product fun acc k depth => ?_
  rw [accumulateNonzero, accumulate, place k depth, elementA_eq stored row depth, elementB_eq stored depth column]
  -- skipping a zero multiplier changes no sum of rationals
  by_cases zero : left A d p i k = 0
  · rw [zero, zero_mul, add_zero]
    exact if_pos (decide_eq_true rfl)
  · exact if_neg (by simpa [Scalar.isZero] using zero)

theorem dotIndex (stored : Stored A B d) {i j k : Nat} (row : i < d.N) (depth : k < d.K) (column : j < d.M) :
    (wrap (i * d.K) + k = i * d.K + k ∧ i * d.K + k < A.length) ∧
      wrap (j * d.K) + k = j * d.K + k ∧ j * d.K + k < B.length := by
  have fitsA := stored.fitsLeft
  have fitsB := stored.fitsRight
  have placeA := place_lt row depth
  have placeB := place_lt column depth
  rw [mul_comm d.M d.K] at placeB
  rw [stored.left] at fitsA
  rw [stored.right] at fitsB
  rw [wrap_of_lt (by omega), wrap_of_lt (by omega), stored.left, stored.right]
  exact ⟨⟨rfl, placeA⟩, rfl, placeB⟩

/-- The contiguous kernel runs on `A` and a transposed `B` only. -/
theorem dotEntry_eq (stored : Stored A B d) (contiguous : (p.transB && !p.transA) = true) {i j : Nat} (row : i < d.N)
    (column : j < d.M) : dotEntry A B d i j = product A B d p i j := by
  obtain ⟨transB, transA⟩ : p.transB = true ∧ p.transA = false := by simpa using contiguous
  have term : ∀ acc k, k < d.K → dotTerm A B d i j acc k = acc + left A d p i k * right B d p k j := by
    intro acc k depth
    obtain ⟨placeA, placeB⟩ := dotIndex stored row depth column
    rw [dotTerm, placeA.1, placeB.1, left, right, transA, transB]
    rfl
  have sums : ∀ (items : List Nat) (place : Nat → Nat) (start : ℚ), (∀ k ∈ items, place k < d.K) →
      items.foldl (fun acc k => dotTerm A B d i j acc (place k)) start =
        items.foldl (fun acc k => acc + left A d p i (place k) * right B d p (place k) j) start :=
    fun items place start inside => List.foldl_ext _ _ _ fun acc k member => term acc (place k) (inside k member)
  have lane : ∀ lane, lane < 4 → laneSum A B d i j lane =
      ∑ q ∈ Finset.range (d.K / 4), left A d p i (4 * q + lane) * right B d p (4 * q + lane) j := by
    intro lane few
    rw [laneSum, sums _ (fun quarter => 4 * quarter + lane) _ fun quarter member => ?_, foldl_sum]
    · simp only [Nat.zero_add]
      exact zero_add _
    · have bounds := List.mem_range'_1.mp member
      omega
  have tail := sums (List.range' (4 * (d.K / 4)) (d.K - 4 * (d.K / 4))) id (Scalar.add
    (Scalar.add (laneSum A B d i j 0) (laneSum A B d i j 1)) (Scalar.add (laneSum A B d i j 2) (laneSum A B d i j 3)))
    fun k member => by have bounds := List.mem_range'_1.mp member; simp only [id]; omega
  have whole : d.K = 4 * (d.K / 4) + (d.K - 4 * (d.K / 4)) := by omega
  rw [foldl_sum, lane 0 (by omega), lane 1 (by omega), lane 2 (by omega), lane 3 (by omega)] at tail
  rw [product, dotEntry, lane 0 (by omega), lane 1 (by omega), lane 2 (by omega), lane 3 (by omega)]
  refine tail.trans ?_
  conv_rhs => rw [whole, Finset.sum_range_add, ← sum_lanes]
  rfl

end Entries

section Accepted
variable {F : Type} {A B bias : Tensor F} {d : Dims} {p : GemmParams F}

theorem dim_pair {tensor : Tensor F} {rows cols : UInt64} (shape : tensor.shape = [rows, cols]) (choice : Bool) :
    tensor.dim (if choice then 1 else 0) = .ok (if choice then cols else rows) ∧
      tensor.dim (if choice then 0 else 1) = .ok (if choice then rows else cols) := by
  rw [Tensor.dim, Tensor.dim, shape]
  cases choice <;> exact ⟨rfl, rfl⟩

theorem length_pair {tensor : Tensor F} {rows cols : UInt64} (shape : tensor.shape = [rows, cols])
    (small : rows.toNat * cols.toNat < 2 ^ 64) : tensor.data.length = rows.toNat * cols.toNat := by
  rw [tensor.sized, shape, Tensor.size_pair]
  exact Nat.mod_eq_of_lt small

theorem resolveDims_pair {rowsA colsA rowsB colsB : UInt64} (shapeA : A.shape = [rowsA, colsA])
    (shapeB : B.shape = [rowsB, colsB]) : resolveDims A B p = .ok ⟨(if p.transA then colsA else rowsA).toNat,
      (if p.transA then rowsA else colsA).toNat, (if p.transB then rowsB else colsB).toNat⟩ := by
  rw [resolveDims, (dim_pair shapeA p.transA).1, (dim_pair shapeA p.transA).2, (dim_pair shapeB p.transB).2]
  rfl

/-- What a call that got past the checks was given. -/
theorem validate_ok (accepted : validate A B bias p = .ok ()) (dims : resolveDims A B p = .ok d) :
    ∃ rowsA colsA rowsB colsB, A.shape = [rowsA, colsA] ∧ B.shape = [rowsB, colsB] ∧
      (if p.transA then rowsA else colsA) = (if p.transB then colsB else rowsB) ∧
      d = ⟨(if p.transA then colsA else rowsA).toNat, (if p.transA then rowsA else colsA).toNat,
        (if p.transB then rowsB else colsB).toNat⟩ ∧
      (bias.data.length = 0 ∨ bias.data.length = d.M ∨ bias.data.length = wrap (d.N * d.M)) := by
  rw [validate] at accepted
  split at accepted
  next => cases accepted
  next ranks =>
    obtain ⟨rankA, rankB⟩ : A.rank = 2 ∧ B.rank = 2 := by simpa [not_or] using ranks
    obtain ⟨rowsA, colsA, shapeA⟩ := List.length_eq_two.mp rankA
    obtain ⟨rowsB, colsB, shapeB⟩ := List.length_eq_two.mp rankB
    refine ⟨rowsA, colsA, rowsB, colsB, shapeA, shapeB, ?_⟩
    have found := Except.ok.inj (dims.symm.trans (resolveDims_pair shapeA shapeB))
    rw [(dim_pair shapeA p.transA).2, (dim_pair shapeB p.transB).1, dims] at accepted
    by_cases same : (if p.transA then rowsA else colsA) = (if p.transB then colsB else rowsB)
    · refine ⟨same, found, ?_⟩
      by_contra bad
      have refused := (if_neg (not_not.mpr same)).symm.trans accepted
      have wrong : bias.data.length ≠ 0 ∧ bias.data.length ≠ d.M ∧ bias.data.length ≠ wrap (d.N * d.M) := by
        simpa [not_or] using bad
      cases (if_pos wrong).symm.trans refused
    · cases (if_pos same).symm.trans accepted

end Accepted

section Results
variable {A B bias : Tensor ℚ} {d : Dims} {p : GemmParams ℚ} {strategy : GemmStrategy}

theorem stored_of_accepted (accepted : validate A B bias p = .ok ()) (dims : resolveDims A B p = .ok d)
    (smallA : d.N * d.K < 2 ^ 64) (smallB : d.K * d.M < 2 ^ 64) : Stored A.data B.data d := by
  obtain ⟨rowsA, colsA, rowsB, colsB, shapeA, shapeB, inner, rfl, _⟩ := validate_ok accepted dims
  refine ⟨?_, ?_, A.fits, B.fits⟩
  · cases transA : p.transA with
    | false =>
      simp only [transA, Bool.false_eq_true, if_false] at smallA ⊢
      exact length_pair shapeA smallA
    | true =>
      simp only [transA, if_true] at smallA ⊢
      rw [mul_comm] at smallA ⊢
      exact length_pair shapeA smallA
  · simp only [inner] at smallB ⊢
    cases transB : p.transB with
    | false =>
      simp only [transB, Bool.false_eq_true, if_false] at smallB ⊢
      exact length_pair shapeB smallB
    | true =>
      simp only [transB, if_true] at smallB ⊢
      rw [mul_comm] at smallB ⊢
      exact length_pair shapeB smallB

theorem rowReady_of_stored (stored : Stored A.data B.data d) {i : Nat} (row : i < d.N) :
    RowReady strategy A.data B.data d p i := by
  have reads : ∀ k, k < d.K → indexA d p i k < A.data.length := fun k depth => (indexA_eq stored row depth).2
  have readsB : ∀ k j, k < d.K → j < d.M → indexB d p k j < B.data.length :=
    fun k j depth column => (indexB_eq stored depth column).2
  have adds : ∀ k j, k < d.K → j < d.M → AddReady A.data B.data d p i k j := by
    intro k j depth column _
    rw [indexRowB_eq stored depth column]
    exact readsB k j depth column
  have depthEnds : d.K ≤ tileLimit := by
    have all : d.K ≤ d.N * d.K := Nat.le_mul_of_pos_left d.K (by omega)
    have fits := stored.fitsLeft
    rw [stored.left] at fits
    simp only [tileLimit]
    omega
  have columnsEnd : ∀ k, k < d.K → d.M ≤ tileLimit := by
    intro k depth
    have all : d.M ≤ d.K * d.M := Nat.le_mul_of_pos_left d.M (by omega)
    have fits := stored.fitsRight
    rw [stored.right] at fits
    simp only [tileLimit]
    omega
  cases strategy with
  | naive => exact fun j column k depth => ⟨reads k depth, readsB k j depth column⟩
  | reordered =>
    simp only [RowReady]
    split
    next =>
      intro j column k depth
      obtain ⟨placeA, placeB⟩ := dotIndex stored row depth column
      exact ⟨placeA.1.symm ▸ placeA.2, placeB.1.symm ▸ placeB.2⟩
    next => exact fun k depth => ⟨reads k depth, fun j column => adds k j depth column⟩
  | tiled => exact ⟨depthEnds, fun k depth => ⟨columnsEnd k depth, fun j column => ⟨reads k depth, adds k j depth column⟩⟩⟩
  | packed => exact ⟨depthEnds, fun k depth => ⟨reads k depth, columnsEnd k depth, fun j column => readsB k j depth column⟩⟩
  | auto => trivial

theorem entry_eq (stored : Stored A.data B.data d) (started : strategy ≠ .auto) {i j : Nat} (row : i < d.N)
    (column : j < d.M) :
    entry strategy A.data B.data d p i j = product A.data B.data d p i j := by
  cases strategy with
  | naive => exact naiveEntry_eq stored row column
  | reordered =>
    simp only [entry]
    split
    next contiguous => exact dotEntry_eq stored contiguous row column
    next => exact sparseEntry_eq stored row column fun k depth => indexRowB_eq stored depth column
  | tiled => exact sparseEntry_eq stored row column fun k depth => indexRowB_eq stored depth column
  | packed => exact sparseEntry_eq stored row column fun k _ => rfl
  | auto => exact absurd rfl started

theorem finish_eq (small : d.N * d.M < 2 ^ 64) {i j : Nat} (row : i < d.N) (column : j < d.M) :
    finish d p bias.data i j (product A.data B.data d p i j) = expected A.data B.data bias.data d p i j := by
  have place := place_lt row column
  have value : biased d p bias.data i j (product A.data B.data d p i j) =
      p.alpha * product A.data B.data d p i j + p.beta * biasTerm bias.data d i j := by
    rw [biased, biasTerm, wrap_of_lt small, wrap_of_lt (by omega)]
    split
    · rfl
    · split
      · rfl
      · rw [mul_zero, add_zero]
        rfl
  rw [finish, expected, value]
  rfl

/-- A call that chooses its kernel itself never takes a blocked one for so many rows. -/
theorem chosen_ends (fits : d.N * d.M * 4 < 2 ^ 64) (blocked : Blocked (chosen strategy d))
    (asked : Blocked strategy → d.N ≤ tileLimit) : d.N ≤ tileLimit := by
  by_cases automatic : strategy = .auto
  · rw [chosen, if_pos automatic, resolveAuto] at blocked
    rcases Nat.eq_zero_or_pos d.M with zero | positive
    · rw [zero, Nat.mul_zero] at blocked
      rcases blocked with never | never <;> cases never
    · have all : d.N ≤ d.N * d.M := Nat.le_mul_of_pos_right d.N positive
      simp only [tileLimit]
      omega
  · rw [chosen, if_neg automatic] at blocked
    exact asked blocked

/-- Every kernel computes the scaled product with the bias added, exactly when the
output's byte count fits 64 bits and a kernel that walks tiles of rows can count
past the last of them. -/
theorem compute_exact_iff (A B bias out : Tensor ℚ) (p : GemmParams ℚ) (strategy : GemmStrategy) (threads : Threads ℚ)
    (d : Dims) (accepted : validate A B bias p = .ok ()) (dims : resolveDims A B p = .ok d)
    (smallA : d.N * d.K < 2 ^ 64) (smallB : d.K * d.M < 2 ^ 64) (smallC : d.N * d.M < 2 ^ 64) :
    (∃ result, compute A B bias out p strategy threads = .ok result ∧
      result.shape = [UInt64.ofNat d.N, UInt64.ofNat d.M] ∧ result.data.length = d.N * d.M ∧
      ∀ i, i < d.N → ∀ j, j < d.M → result.data[i * d.M + j]? = some (expected A.data B.data bias.data d p i j)) ↔
    (d.N * d.M * 4 < 2 ^ 64 ∧ (strategy = .tiled ∨ strategy = .packed → d.N ≤ 2 ^ 64 - 64)) := by
  have stored := stored_of_accepted accepted dims smallA smallB
  constructor
  · rintro ⟨result, returned, _⟩
    obtain ⟨defined, _⟩ := (compute_ok_iff accepted dims).mp returned
    refine ⟨defined.fits, fun blocked => defined.ends ?_⟩
    rcases blocked with rfl | rfl
    · exact Or.inl rfl
    · exact Or.inr rfl
  · rintro ⟨fits, asked⟩
    have defined : Defined (chosen strategy d) A.data B.data d p :=
      ⟨fits, fun blocked => chosen_ends fits blocked asked, fun i row => rowReady_of_stored stored row⟩
    obtain ⟨result, made, shape, data⟩ := @compute_returns ℚ _ A B bias d p strategy accepted dims defined
    refine ⟨result, made out threads, shape, by rw [data, length_table], fun i row j column => ?_⟩
    have place := place_lt row column
    obtain ⟨rowOf, columnOf⟩ := (place_iff column).mp (rfl : i * d.M + j = i * d.M + j)
    rw [data, table, List.getElem?_map, List.getElem?_range place, Option.map_some, rowOf, columnOf,
      entry_eq stored (chosen_ne_auto strategy d) row column, finish_eq smallC row column]

section Examples

def plain : GemmParams ℚ := ⟨false, false, 1, 1, false⟩

/-- A matrix of `rows` rows and no columns. -/
def tall (rows : UInt64) : Tensor ℚ := ⟨[rows, 0], [], by simp [computeSize], by decide⟩

def threeRows : Tensor ℚ := ⟨[3, 2], [1, 2, 3, 4, 5, 6], rfl, by simp⟩

def twoRows : Tensor ℚ := ⟨[2, 2], [1, 0, 2, 1], rfl, by simp⟩

def perColumn : Tensor ℚ := ⟨[2], [10, 20], rfl, by simp⟩

/-- The second operand is transposed, half of the product and three times the bias are taken. -/
def scaled : GemmParams ℚ := ⟨false, true, 1 / 2, 3, false⟩

/-- The last shard first. -/
def twoWorkers : ThreadPool := ⟨2, false, List.reverse, List.reverse_perm⟩

theorem compute_exact_scaled : ∃ result,
    compute threeRows twoRows perColumn Tensor.empty scaled .packed ⟨some twoWorkers, fun _ => ⟨[], []⟩⟩ = .ok result ∧
      result.data = [61 / 2, 62, 63 / 2, 65, 65 / 2, 68] := by
  obtain ⟨result, made, _, length, cells⟩ := (compute_exact_iff threeRows twoRows perColumn Tensor.empty scaled .packed
    ⟨some twoWorkers, fun _ => ⟨[], []⟩⟩ ⟨3, 2, 2⟩ rfl rfl (by decide) (by decide) (by decide)).mpr
    ⟨by decide, fun _ => by decide⟩
  have values : ∀ i < 3, ∀ j < 2, expected threeRows.data twoRows.data perColumn.data ⟨3, 2, 2⟩ scaled i j =
      [61 / 2, 62, 63 / 2, 65, 65 / 2, 68].getD (i * 2 + j) 0 := by decide +kernel
  refine ⟨result, made, List.ext_getElem? fun index => ?_⟩
  rcases lt_or_ge index 6 with inside | beyond
  · have row : index / 2 < 3 := by omega
    have column : index % 2 < 2 := by omega
    have place : index / 2 * 2 + index % 2 = index := by omega
    have cell := cells (index / 2) row (index % 2) column
    rw [values (index / 2) row (index % 2) column, place] at cell
    rw [cell, List.getD_eq_getElem?_getD, List.getElem?_eq_getElem inside, Option.getD_some]
  · have outside : result.data.length ≤ index := length.le.trans beyond
    rw [List.getElem?_eq_none outside, List.getElem?_eq_none beyond]

/-- The counter of the tiles of rows wraps before it reaches the last row. -/
theorem compute_tiled_endless :
    validate (tall 18446744073709551615) (tall 0) Tensor.empty plain = .ok () ∧
      resolveDims (tall 18446744073709551615) (tall 0) plain = .ok ⟨18446744073709551615, 0, 0⟩ ∧
      ¬∃ result, compute (tall 18446744073709551615) (tall 0) Tensor.empty Tensor.empty plain .tiled
        ⟨none, fun _ => ⟨[], []⟩⟩ = .ok result := by
  refine ⟨rfl, rfl, ?_⟩
  rintro ⟨result, returned⟩
  obtain ⟨defined, _⟩ := (compute_ok_iff rfl (rfl : resolveDims (tall 18446744073709551615) (tall 0) plain =
    .ok ⟨18446744073709551615, 0, 0⟩)).mp returned
  have ends := defined.ends (Or.inl rfl)
  simp [tileLimit] at ends

end Examples
end Results
end Gemm
end FromScratch.Inference
