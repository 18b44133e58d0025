import FromScratch.Lib.Rows
import FromScratch.Proofs.OptimizerMeaning

/-! A batch is a tensor whose rows could each be a request of their own. The kernels
that do not multiply keep the rows apart. -/

namespace FromScratch.Inference
open Lib.Rows

variable {F : Type} {n : UInt64} {tensor result : Tensor F} {row : Nat → Tensor F} {rest : List UInt64}

/-- The buffer has an element for every place of the shape. -/
def Tensor.Whole (tensor : Tensor F) : Prop := tensor.data.length = (tensor.shape.map UInt64.toNat).prod

/-- The rows of the tensor, one after the other. -/
structure Stacked (n : UInt64) (tensor : Tensor F) (row : Nat → Tensor F) : Prop where
  shape : ∃ rest, tensor.shape = n :: rest ∧ ∀ i, i < n.toNat → (row i).shape = 1 :: rest
  data : tensor.data = joined n.toNat fun i => (row i).data

namespace Stacked

theorem sized (shaped : ∀ i, i < n.toNat → (row i).shape = 1 :: rest) :
    ∀ i, i < n.toNat → (row i).data.length = (computeSize (1 :: rest)).toNat := by
  intro i inside
  rw [(row i).sized, shaped i inside]

theorem length (stacked : Stacked n tensor row) {i : Nat} (inside : i < n.toNat) :
    tensor.data.length = n.toNat * (row i).data.length := by
  obtain ⟨rest, _, shaped⟩ := stacked.shape
  rw [stacked.data, length_joined (sized shaped), sized shaped i inside]

theorem unique {other : Nat → Tensor F} (first : Stacked n tensor row) (second : Stacked n tensor other) {i : Nat}
    (inside : i < n.toNat) : row i = other i := by
  obtain ⟨rest, shape, shaped⟩ := first.shape
  obtain ⟨_, same, others⟩ := second.shape
  cases shape.symm.trans same
  refine Tensor.ext ((shaped i inside).trans (others i inside).symm) ?_
  exact joined_inj (sized shaped) (sized others) (first.data.symm.trans second.data) inside

/-- The rows of a tensor that holds as many elements as its shape says. -/
theorem exists_rows (positive : 0 < n.toNat) (shape : tensor.shape = n :: rest) {values : Nat → List F}
    (widths : ∀ i, i < n.toNat → (values i).length = (computeSize (1 :: rest)).toNat)
    (data : tensor.data = joined n.toNat values) :
    ∃ row, Stacked n tensor row ∧ ∀ i, i < n.toNat → (row i).shape = 1 :: rest ∧ (row i).data = values i := by
  have count := length_joined widths
  have fits := tensor.fits
  rw [data, count] at fits
  have least : (computeSize (1 :: rest)).toNat ≤ n.toNat * (computeSize (1 :: rest)).toNat :=
    Nat.le_mul_of_pos_left _ positive
  have each : ∀ i, ∃ made : Tensor F, i < n.toNat → made.shape = 1 :: rest ∧ made.data = values i := by
    intro i
    by_cases inside : i < n.toNat
    · exact ⟨⟨1 :: rest, values i, widths i inside, by rw [widths i inside]; omega⟩, fun _ => ⟨rfl, rfl⟩⟩
    · exact ⟨Tensor.empty, fun within => absurd within inside⟩
  choose row made using each
  refine ⟨row, ⟨⟨rest, shape, fun i inside => (made i inside).1⟩, ?_⟩, made⟩
  rw [data]
  exact joined_congr fun i inside => (made i inside).2.symm

end Stacked

/-- What becomes of a batch is what becomes of its rows. -/
def Splits (n : UInt64) (batch : Except Fault (Tensor F)) (rows : Nat → Except Fault (Tensor F)) : Prop :=
  ∀ result, batch = .ok result → ∃ row, Stacked n result row ∧ ∀ i, i < n.toNat → rows i = .ok (row i)

theorem Splits.of_rows {batch : Except Fault (Tensor F)} {rows : Nat → Except Fault (Tensor F)} (positive : 0 < n.toNat)
    (each : ∀ result, batch = .ok result → ∃ rest values, result.shape = n :: rest ∧ result.data = joined n.toNat values ∧
      ∀ i, i < n.toNat → (values i).length = (computeSize (1 :: rest)).toNat ∧
        ∀ made : Tensor F, made.shape = 1 :: rest → made.data = values i → rows i = .ok made) : Splits n batch rows := by
  intro result returned
  obtain ⟨rest, values, shape, data, each⟩ := each result returned
  obtain ⟨row, stacked, made⟩ := Stacked.exists_rows positive shape (fun i inside => (each i inside).1) data
  exact ⟨row, stacked, fun i inside => (each i inside).2 (row i) (made i inside).1 (made i inside).2⟩

/-- As large as so many such rows. -/
def Wide (n : UInt64) (tensor row : Tensor F) : Prop :=
  ∃ rest, tensor.shape = n :: rest ∧ row.shape = 1 :: rest ∧ tensor.data.length = n.toNat * row.data.length

theorem Stacked.wide (stacked : Stacked n tensor row) {i : Nat} (inside : i < n.toNat) : Wide n tensor (row i) := by
  obtain ⟨rest, shape, shaped⟩ := stacked.shape
  exact ⟨rest, shape, shaped i inside, stacked.length inside⟩

variable [Scalar F]

namespace Provider
variable {input a b : Tensor F} {node : Node F}

theorem relu_iff : computeRelu input Tensor.empty = .ok result ↔
    result.shape = input.shape ∧ result.data = input.data.map (Scalar.max Scalar.zero) := by
  exact ⟨relu_ok, fun ⟨shape, data⟩ => relu_exact shape data Tensor.empty⟩

theorem add_iff : computeAdd a b Tensor.empty = .ok result ↔
    a.shape = b.shape ∧ result.shape = a.shape ∧ result.data = List.zipWith Scalar.add a.data b.data := by
  by_cases same : a.shape = b.shape
  · have long : (List.zipWith Scalar.add a.data b.data).length = a.data.length := by
      rw [List.length_zipWith, a.sized, b.sized, same, Nat.min_self]
    let sum : Tensor F := ⟨a.shape, List.zipWith Scalar.add a.data b.data, long.trans a.sized, long.symm ▸ a.fits⟩
    have made : computeAdd a b Tensor.empty = .ok sum := @add_exact F _ a b sum same rfl rfl Tensor.empty
    rw [made, Except.ok.injEq]
    exact ⟨fun equal => equal ▸ ⟨same, rfl, rfl⟩, fun equal => (@Tensor.ext F result sum equal.2.1 equal.2.2).symm⟩
  · rw [computeAdd, if_pos same]
    refine iff_of_false ?_ fun equal => same equal.1
    intro returned
    cases returned

omit [Scalar F] in
theorem flattenDims_rows (axis : node.getAttrInt (text "axis") 1 = .ok 1) (positive : 0 < n.toNat)
    (shape : input.shape = n :: rest) :
    flattenDims node input = .ok (n, input.size / n) := by
  have ranked : ¬((1 : Int) < 0 ∨ input.rank < (1 : Int).toNat) := by
    rw [Tensor.rank, shape, List.length_cons]
    omega
  have split : flattenAxis node input = .ok 1 := by
    rw [flattenAxis, axis]
    exact if_neg ranked
  have outer : (input.shape.take 1).foldl (· * ·) 1 = n := by
    rw [shape]
    exact UInt64.one_mul n
  have counted : n ≠ 0 := by
    rintro rfl
    exact lt_irrefl 0 positive
  rw [flattenDims, split]
  change Except.ok (if _ = 0 then _ else _, _) = _
  rw [outer, if_neg counted]

/-- Flattened rows keep their elements. -/
theorem flatten_iff (axis : node.getAttrInt (text "axis") 1 = .ok 1) (positive : 0 < n.toNat)
    (shape : input.shape = n :: rest)
    (whole : input.data.length = n.toNat * (computeSize (1 :: rest)).toNat) :
    computeFlatten node input Tensor.empty = .ok result ↔
      result.shape = [n, computeSize (1 :: rest)] ∧ result.data = input.data := by
  have width : input.size / n = computeSize (1 :: rest) := by
    apply UInt64.toNat_inj.mp
    rw [UInt64.toNat_div, Tensor.size_toNat, whole, Nat.mul_div_cancel_left _ positive]
  have dims := flattenDims_rows axis positive shape
  rw [width] at dims
  have size : (computeSize [n, computeSize (1 :: rest)]).toNat = input.data.length := by
    have fits := input.fits
    rw [Tensor.size_pair, whole]
    exact Nat.mod_eq_of_lt (by omega)
  let flat : Tensor F := ⟨[n, computeSize (1 :: rest)], input.data, size.symm, input.fits⟩
  have made : computeFlatten node input Tensor.empty = .ok flat :=
    @flatten_exact F _ node input n _ dims whole.symm flat rfl rfl Tensor.empty
  rw [made, Except.ok.injEq]
  exact ⟨fun equal => equal ▸ ⟨rfl, rfl⟩, fun ⟨shape, data⟩ => (@Tensor.ext F result flat shape data).symm⟩

section Split
variable (positive : 0 < n.toNat)
include positive

theorem splits_relu (stacked : Stacked n tensor row) :
    Splits n (computeRelu tensor Tensor.empty) fun i => computeRelu (row i) Tensor.empty := by
  refine Splits.of_rows positive fun result returned => ?_
  obtain ⟨shape, data⟩ := relu_ok returned
  obtain ⟨rest, outer, shaped⟩ := stacked.shape
  refine ⟨rest, fun i => (row i).data.map (Scalar.max Scalar.zero), shape.trans outer, ?_,
    fun i inside => ⟨?_, fun made same values => ?_⟩⟩
  · rw [data, stacked.data, map_joined]
  · rw [List.length_map, Stacked.sized shaped i inside]
  · exact relu_exact (same.trans (shaped i inside).symm) values Tensor.empty

theorem splits_add {other : Nat → Tensor F} (first : Stacked n a row) (second : Stacked n b other) :
    Splits n (computeAdd a b Tensor.empty) fun i => computeAdd (row i) (other i) Tensor.empty := by
  refine Splits.of_rows positive fun result returned => ?_
  obtain ⟨same, shape, data⟩ := add_iff.mp returned
  obtain ⟨rest, outer, shaped⟩ := first.shape
  obtain ⟨_, equal, narrow⟩ := second.shape
  cases (outer.symm.trans same).trans equal
  have lengths := fun i inside => (Stacked.sized shaped i inside).trans (Stacked.sized narrow i inside).symm
  refine ⟨rest, fun i => List.zipWith Scalar.add (row i).data (other i).data, shape.trans outer, ?_,
    fun i inside => ⟨?_, fun made same values => ?_⟩⟩
  · rw [data, first.data, second.data, zipWith_joined Scalar.add lengths]
  · rw [List.length_zipWith, ← lengths i inside, Nat.min_self, Stacked.sized shaped i inside]
  · exact add_exact ((shaped i inside).trans (narrow i inside).symm) (same.trans (shaped i inside).symm) values Tensor.empty

theorem splits_flatten (axis : node.getAttrInt (text "axis") 1 = .ok 1) (stacked : Stacked n tensor row) :
    Splits n (computeFlatten node tensor Tensor.empty) fun i => computeFlatten node (row i) Tensor.empty := by
  refine Splits.of_rows positive fun result returned => ?_
  obtain ⟨rest, outer, shaped⟩ := stacked.shape
  have widths := Stacked.sized shaped
  obtain ⟨shape, data⟩ := (flatten_iff axis positive outer (by rw [stacked.data, length_joined widths])).mp returned
  refine ⟨[computeSize (1 :: rest)], fun i => (row i).data, shape, data.trans stacked.data,
    fun i inside => ⟨?_, fun made same values => ?_⟩⟩
  · simp only [widths i inside, computeSize, List.foldl_cons, List.foldl_nil, UInt64.one_mul]
  · exact (flatten_iff axis (by decide) (shaped i inside) (by rw [widths i inside]; exact (Nat.one_mul _).symm)).mpr ⟨same, values⟩

end Split

section Widen

theorem widens_relu (wide : Wide n tensor input) (made : computeRelu input Tensor.empty = .ok result) :
    ∃ wider, computeRelu tensor Tensor.empty = .ok wider ∧ Wide n wider result := by
  obtain ⟨rest, shape, narrow, length⟩ := wide
  obtain ⟨same, data⟩ := relu_ok made
  let wider : Tensor F := ⟨tensor.shape, tensor.data.map (Scalar.max Scalar.zero), by rw [List.length_map, tensor.sized],
    by rw [List.length_map]; exact tensor.fits⟩
  refine ⟨wider, relu_iff.mpr ⟨rfl, rfl⟩, rest, shape, same.trans narrow, ?_⟩
  rw [List.length_map, length, data, List.length_map]

theorem widens_add {other : Tensor F} (first : Wide n tensor a) (second : Wide n other b)
    (made : computeAdd a b Tensor.empty = .ok result) : ∃ wider, computeAdd tensor other Tensor.empty = .ok wider ∧
    Wide n wider result := by
  obtain ⟨rest, shape, narrow, length⟩ := first
  obtain ⟨_, equal, thin, _⟩ := second
  obtain ⟨same, shaped, data⟩ := add_iff.mp made
  cases (narrow.symm.trans same).trans thin
  have matching : tensor.shape = other.shape := shape.trans equal.symm
  have long : (List.zipWith Scalar.add tensor.data other.data).length = tensor.data.length := by
    rw [List.length_zipWith, tensor.sized, other.sized, matching, Nat.min_self]
  have short : (List.zipWith Scalar.add a.data b.data).length = a.data.length := by
    rw [List.length_zipWith, a.sized, b.sized, same, Nat.min_self]
  let wider : Tensor F := ⟨tensor.shape, List.zipWith Scalar.add tensor.data other.data, long.trans tensor.sized,
    long.symm ▸ tensor.fits⟩
  refine ⟨wider, add_iff.mpr ⟨matching, rfl, rfl⟩, rest, shape, shaped.trans narrow, ?_⟩
  rw [long, length, data, short]

theorem widens_flatten (positive : 0 < n.toNat) (axis : node.getAttrInt (text "axis") 1 = .ok 1) (wide : Wide n tensor input)
    (made : computeFlatten node input Tensor.empty = .ok result) :
    ∃ wider, computeFlatten node tensor Tensor.empty = .ok wider ∧ Wide n wider result := by
  obtain ⟨rest, shape, narrow, length⟩ := wide
  have width : input.data.length = (computeSize (1 :: rest)).toNat := by rw [input.sized, narrow]
  obtain ⟨shaped, data⟩ := (flatten_iff axis (by decide) narrow (width.trans (Nat.one_mul _).symm)).mp made
  have whole : tensor.data.length = n.toNat * (computeSize (1 :: rest)).toNat := by rw [length, width]
  have size : tensor.data.length = (computeSize [n, computeSize (1 :: rest)]).toNat := by
    have fits := tensor.fits
    rw [Tensor.size_pair, whole]
    exact (Nat.mod_eq_of_lt (by omega)).symm
  let wider : Tensor F := ⟨[n, computeSize (1 :: rest)], tensor.data, size, tensor.fits⟩
  refine ⟨wider, (flatten_iff axis positive shape whole).mpr ⟨rfl, rfl⟩, _, rfl, shaped, ?_⟩
  rw [length, data]

end Widen
end Provider
end FromScratch.Inference
