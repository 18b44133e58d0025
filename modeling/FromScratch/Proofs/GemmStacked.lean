import FromScratch.Proofs.RowStacks
import Mathlib.Data.List.GetD

/-! The product of a batch is the products of its rows. Every kernel computes a row of
the output from that row of `A` alone; and where arithmetic is exact the kernels a
call chooses from by the number of its rows compute the same. -/

namespace FromScratch.Inference.Gemm
open Lib.Rows

section Row
variable {F : Type} [Scalar F] {A B row : List F} {d : Dims} {p : GemmParams F} {i : Nat}

/-- A product of one row. -/
def oneRow (d : Dims) : Dims := ⟨1, d.K, d.M⟩

structure IsRow (A row : List F) (d : Dims) (i : Nat) : Prop where
  bounded : A.length < 2 ^ 64
  inside : ∀ k, k < d.K → i * d.K + k < A.length
  same : ∀ k, k < d.K → A.getD (i * d.K + k) Scalar.zero = row.getD k Scalar.zero

theorem isRow_self (width : row.length = d.K) (bounded : row.length < 2 ^ 64) : IsRow row row (oneRow d) 0 where
  bounded := bounded
  inside k below := by
    rw [Nat.zero_mul, Nat.zero_add, width]
    exact below
  same k _ := by rw [Nat.zero_mul, Nat.zero_add]

namespace IsRow

theorem indexA_eq (isRow : IsRow A row d i) (plain : p.transA = false) {k : Nat} (below : k < d.K) :
    indexA d p i k = i * d.K + k := by
  have inside := isRow.inside k below
  rw [indexA, plain]
  exact wrap_of_lt (inside.trans isRow.bounded)

theorem indexA_lt (isRow : IsRow A row d i) (plain : p.transA = false) {k : Nat} (below : k < d.K) :
    indexA d p i k < A.length := by
  rw [isRow.indexA_eq plain below]
  exact isRow.inside k below

theorem elementA_eq (isRow : IsRow A row d i) (plain : p.transA = false) {k : Nat} (below : k < d.K) :
    elementA A d p i k = row.getD k Scalar.zero := by
  rw [elementA, isRow.indexA_eq plain below, isRow.same k below]

/-- Where the contiguous kernel reads. -/
theorem start_eq (isRow : IsRow A row d i) {k : Nat} (below : k < d.K) : wrap (i * d.K) + k = i * d.K + k := by
  have inside := isRow.inside k below
  have bounded := isRow.bounded
  rw [wrap_of_lt (by omega)]

variable (isRow : IsRow A row d i) (own : IsRow row row (oneRow d) 0) (plain : p.transA = false)
include isRow own plain

theorem accumulate_eq (placeB : Nat → Nat → Nat) (j : Nat) (acc : F) {k : Nat} (below : k < d.K) :
    accumulate A B d p i placeB j acc k = accumulate row B (oneRow d) p 0 placeB j acc k := by
  have there : elementA row (oneRow d) p 0 k = row.getD k Scalar.zero := own.elementA_eq plain below
  rw [accumulate, accumulate, isRow.elementA_eq plain below, there]

theorem sparseEntry_eq (placeB : Nat → Nat → Nat) (j : Nat) :
    sparseEntry A B d p placeB i j = sparseEntry row B (oneRow d) p placeB 0 j := by
  refine List.foldl_ext _ _ _ fun acc k member => ?_
  have below : k < d.K := by have bounds := List.mem_range'_1.mp member; omega
  have there : elementA row (oneRow d) p 0 k = row.getD k Scalar.zero := own.elementA_eq plain below
  rw [accumulateNonzero, accumulateNonzero, isRow.elementA_eq plain below, there,
    isRow.accumulate_eq own plain placeB j acc below]

theorem naiveEntry_eq (j : Nat) : naiveEntry A B d p i j = naiveEntry row B (oneRow d) p 0 j := by
  refine List.foldl_ext _ _ _ fun acc k member => ?_
  have bounds := List.mem_range'_1.mp member
  exact isRow.accumulate_eq own plain (indexB d p) j acc (by omega)

omit plain in
theorem dotTerm_eq (j : Nat) (acc : F) {k : Nat} (below : k < d.K) :
    dotTerm A B d i j acc k = dotTerm row B (oneRow d) 0 j acc k := by
  have there : wrap (0 * (oneRow d).K) + k = 0 * d.K + k := own.start_eq below
  rw [dotTerm, dotTerm, isRow.start_eq below, isRow.same k below, there, Nat.zero_mul, Nat.zero_add]
  rfl

omit plain in
theorem dotEntry_eq (j : Nat) : dotEntry A B d i j = dotEntry row B (oneRow d) 0 j := by
  have lane : ∀ lane, lane < 4 → laneSum A B d i j lane = laneSum row B (oneRow d) 0 j lane := by
    intro lane few
    refine List.foldl_ext _ _ _ fun acc quarter member => isRow.dotTerm_eq own j acc ?_
    have bounds := List.mem_range'_1.mp member
    omega
  rw [dotEntry, dotEntry, lane 0 (by omega), lane 1 (by omega), lane 2 (by omega), lane 3 (by omega)]
  refine List.foldl_ext _ _ _ fun acc k member => isRow.dotTerm_eq own j acc ?_
  have bounds := List.mem_range'_1.mp member
  omega

/-- No kernel looks at the other rows. -/
theorem entry_eq (strategy : GemmStrategy) (j : Nat) :
    entry strategy A B d p i j = entry strategy row B (oneRow d) p 0 j := by
  cases strategy with
  | naive => exact isRow.naiveEntry_eq own plain j
  | reordered =>
    simp only [entry]
    rw [isRow.dotEntry_eq own, isRow.sparseEntry_eq own plain]
    rfl
  | tiled => exact isRow.sparseEntry_eq own plain _ j
  | packed => exact isRow.sparseEntry_eq own plain _ j
  | auto => rfl

theorem addReady_row {k j : Nat} (below : k < d.K) (ready : AddReady A B d p i k j) : AddReady row B (oneRow d) p 0 k j := by
  have there : elementA row (oneRow d) p 0 k = row.getD k Scalar.zero := own.elementA_eq plain below
  rw [AddReady, isRow.elementA_eq plain below] at ready
  rw [AddReady, there]
  exact ready

theorem rowReady (strategy : GemmStrategy) (ready : RowReady strategy A B d p i) :
    RowReady strategy row B (oneRow d) p 0 := by
  have inside : ∀ k, k < d.K → indexA (oneRow d) p 0 k < row.length := fun k below => own.indexA_lt plain below
  cases strategy with
  | naive => exact fun j column k below => ⟨inside k below, (ready j column k below).2⟩
  | reordered =>
    simp only [RowReady] at ready ⊢
    split
    next contiguous =>
      rw [if_pos contiguous] at ready
      refine fun j column k below => ⟨?_, (ready j column k below).2⟩
      have there : wrap (0 * (oneRow d).K) + k = 0 * d.K + k := own.start_eq below
      rw [there]
      exact own.inside k below
    next strided =>
      rw [if_neg strided] at ready
      exact fun k below => ⟨inside k below, fun j column => isRow.addReady_row own plain below ((ready k below).2 j column)⟩
  | tiled =>
    refine ⟨ready.1, fun k below => ⟨(ready.2 k below).1, fun j column => ⟨inside k below, ?_⟩⟩⟩
    exact isRow.addReady_row own plain below ((ready.2 k below).2 j column).2
  | packed => exact ⟨ready.1, fun k below => ⟨inside k below, (ready.2 k below).2⟩⟩
  | auto => trivial

end IsRow
end Row

section Table
variable {F : Type} {d : Dims}

theorem table_rows (value : Nat → Nat → F) : table d value = joined d.N fun i => table (oneRow d) fun _ j => value i j := by
  have each : ∀ i, i < d.N → (table (oneRow d) fun _ j => value i j).length = d.M :=
    fun i _ => (length_table _ _).trans (Nat.one_mul _)
  refine List.ext_getElem ?_ fun index first second => ?_
  · rw [length_table, length_joined each]
  · rw [length_table] at first
    have positive : 0 < d.M := by
      rcases Nat.eq_zero_or_pos d.M with zero | positive
      · rw [zero, Nat.mul_zero] at first
        exact absurd first (Nat.not_lt_zero index)
      · exact positive
    have row : index / d.M < d.N := Nat.div_lt_of_lt_mul (Nat.mul_comm d.N d.M ▸ first)
    have column := Nat.mod_lt index positive
    have found := getD_joined each row column (value 0 0)
    have place : index % d.M < (table (oneRow d) fun _ j => value (index / d.M) j).length := (each _ row).symm ▸ column
    rw [Nat.mul_comm, Nat.div_add_mod, List.getD_eq_getElem _ _ second, List.getD_eq_getElem _ _ place] at found
    rw [found]
    simp only [table, oneRow, List.getElem_map, List.getElem_range, Nat.mod_eq_of_lt column]

theorem table_oneRow (value : Nat → Nat → F) : table (oneRow d) value = table (oneRow d) fun _ j => value 0 j := by
  refine List.map_congr_left fun index member => ?_
  have inside : index < 1 * d.M := List.mem_range.mp member
  have first : index / (oneRow d).M = 0 := Nat.div_eq_of_lt (Nat.one_mul d.M ▸ inside)
  rw [first]

end Table

section Shapes
variable {F : Type} {A B bias : Tensor F} {p : GemmParams F} {rowsA colsA rowsB colsB : UInt64}

theorem validate_of_shapes (shapeA : A.shape = [rowsA, colsA]) (shapeB : B.shape = [rowsB, colsB])
    (inner : (if p.transA then rowsA else colsA) = if p.transB then colsB else rowsB)
    (fitting : bias.data.length = 0 ∨ bias.data.length = (if p.transB then rowsB else colsB).toNat) :
    validate A B bias p = .ok () := by
  have ranked : ¬(A.rank ≠ 2 ∨ B.rank ≠ 2) := by
    rw [Tensor.rank, Tensor.rank, shapeA, shapeB]
    simp
  rw [validate, if_neg ranked, (dim_pair shapeA p.transA).2, (dim_pair shapeB p.transB).1, resolveDims_pair shapeA shapeB]
  refine (if_neg (not_not.mpr inner)).trans (if_neg ?_)
  rintro ⟨stored, other, _⟩
  exact fitting.elim stored other

end Shapes

/-- Nothing, or a value for every column of the product. -/
def PerColumn {F : Type} (B bias : Tensor F) (transB : Bool) : Prop :=
  bias.data.length = 0 ∨ ∃ columns, B.dim (if transB then 0 else 1) = .ok columns ∧ bias.data.length = columns.toNat

section Finish
variable {F : Type} [Scalar F] {bias : List F} {d : Dims} {p : GemmParams F}

/-- A bias of one row is added to every row. -/
theorem finish_row (positive : 0 < d.N) (fits : d.N * d.M * 4 < 2 ^ 64) (fitting : bias.length = 0 ∨ bias.length = d.M)
    {i j : Nat}
    (column : j < d.M) (product : F) : finish d p bias i j product = finish (oneRow d) p bias 0 j product := by
  have same : biased d p bias i j product = biased (oneRow d) p bias 0 j product := by
    by_cases perColumn : bias.length = d.M
    · rw [biased, biased, if_pos perColumn]
      exact (if_pos perColumn).symm
    · have zero : bias.length = 0 := fitting.resolve_right perColumn
      have all : d.M ≤ d.N * d.M := Nat.le_mul_of_pos_left d.M positive
      have full : bias.length ≠ wrap (d.N * d.M) := by
        rw [wrap_of_lt (by omega)]
        omega
      have one : bias.length ≠ wrap ((oneRow d).N * (oneRow d).M) := by
        change bias.length ≠ wrap (1 * d.M)
        rw [Nat.one_mul, wrap_of_lt (by omega)]
        exact perColumn
      rw [biased, biased, if_neg perColumn, if_neg full]
      exact ((if_neg perColumn).trans (if_neg one)).symm
  rw [finish, finish, same]

end Finish

section Product
variable {n : UInt64} {A B bias result : Tensor ℚ} {row : Nat → Tensor ℚ} {p : GemmParams ℚ} {strategy : GemmStrategy}
    {d : Dims}

theorem stored_of_whole {values : List ℚ} {rowsB colsB : UInt64} (shapeB : B.shape = [rowsB, colsB]) (whole : B.Whole)
    (depth : d.K = (if p.transB then colsB else rowsB).toNat) (columns : d.M = (if p.transB then rowsB else colsB).toNat)
    (count : values.length = d.N * d.K) (fits : values.length * 4 < 2 ^ 64) : Stored values B.data d := by
  refine ⟨count, ?_, fits, B.fits⟩
  rw [Tensor.Whole, shapeB] at whole
  rw [whole, depth, columns]
  cases p.transB with
  | false => simp
  | true => simp [Nat.mul_comm]

section Chosen
variable {values : Tensor ℚ} {i : Nat} (isRow : IsRow A.data values.data d i)
    (own : IsRow values.data values.data (oneRow d) 0)
  (plain : p.transA = false) (stored : strategy = .auto → Stored values.data B.data (oneRow d))
include isRow own plain stored

/-- The kernel that is chosen for a batch computes what the one chosen for a row does. -/
theorem entry_chosen {j : Nat} (column : j < d.M) : entry (chosen strategy d) A.data B.data d p i j =
    entry (chosen strategy (oneRow d)) values.data B.data (oneRow d) p 0 j := by
  rw [isRow.entry_eq own plain]
  by_cases automatic : strategy = .auto
  · rw [entry_eq (stored automatic) (chosen_ne_auto strategy d) Nat.one_pos column,
      entry_eq (stored automatic) (chosen_ne_auto strategy (oneRow d)) Nat.one_pos column]
  · rw [chosen, chosen, if_neg automatic, if_neg automatic]

theorem defined_row (fits : d.M * 4 < 2 ^ 64) (ready : RowReady (chosen strategy d) A.data B.data d p i) :
    Defined (chosen strategy (oneRow d)) values.data B.data (oneRow d) p where
  fits := by
    change 1 * d.M * 4 < 2 ^ 64
    omega
  ends _ := by
    change 1 ≤ tileLimit
    rw [tileLimit]
    omega
  ready k below := by
    obtain rfl := Nat.lt_one_iff.mp below
    by_cases automatic : strategy = .auto
    · exact rowReady_of_stored (stored automatic) Nat.one_pos
    · rw [chosen, if_neg automatic] at ready ⊢
      exact isRow.rowReady own plain strategy ready

end Chosen

/-- The product of a batch, where the operands stay inside their buffers. -/
theorem splits_compute (positive : 0 < n.toNat) (plain : p.transA = false) (stacked : Stacked n A row)
    (fitting : PerColumn B bias p.transB)
    (whole : strategy = .auto → B.Whole) (threads : Threads ℚ) :
    Splits n (compute A B bias Tensor.empty p strategy threads) fun i =>
      compute (row i) B bias Tensor.empty p strategy threads := by
  refine Splits.of_rows positive fun result returned => ?_
  obtain ⟨_, accepted, located⟩ := Lib.bind_ok returned
  obtain ⟨d, dims, _⟩ := Lib.bind_ok located
  obtain ⟨defined, shape, data⟩ := (compute_ok_iff accepted dims).mp returned
  obtain ⟨rowsA, colsA, rowsB, colsB, shapeA, shapeB, inner, found, _⟩ := validate_ok accepted dims
  obtain ⟨rest, outer, shaped⟩ := stacked.shape
  cases outer.symm.trans shapeA
  simp only [plain, Bool.false_eq_true, if_false] at found inner
  obtain ⟨count, depth, columns⟩ : d.N = n.toNat ∧ d.K = colsA.toNat ∧ d.M = (if p.transB then rowsB else colsB).toNat := by
    rw [found]
    exact ⟨rfl, rfl, rfl⟩
  have fits := defined.fits
  have least : d.M ≤ d.N * d.M := Nat.le_mul_of_pos_left d.M (count ▸ positive)
  have each : ∀ i, i < n.toNat → (row i).data.length = d.K := by
    intro i inside
    rw [(row i).sized, shaped i inside, Tensor.size_pair, depth]
    exact (congrArg (· % 2 ^ 64) (Nat.one_mul _)).trans (Nat.mod_eq_of_lt colsA.toNat_lt)
  have long : A.data.length = d.N * d.K := by rw [stacked.data, length_joined each, count]
  have per : bias.data.length = 0 ∨ bias.data.length = d.M := by
    refine fitting.imp_right ?_
    rintro ⟨extent, located, length⟩
    rw [(dim_pair shapeB p.transB).2] at located
    rw [length, columns, Except.ok.inj located]
  have isRow : ∀ i, i < n.toNat → IsRow A.data (row i).data d i := by
    intro i inside
    have bounded := A.fits
    refine ⟨by omega, fun k below => ?_, fun k below => ?_⟩
    · rw [long, count]
      exact place_lt inside below
    · rw [stacked.data]
      exact getD_joined each inside below Scalar.zero
  have own : ∀ i, i < n.toNat → IsRow (row i).data (row i).data (oneRow d) 0 := by
    intro i inside
    have bounded := (row i).fits
    exact isRow_self (each i inside) (by omega)
  have stored : strategy = .auto → ∀ i, i < n.toNat → Stored (row i).data B.data (oneRow d) := by
    intro automatic i inside
    refine @stored_of_whole B p (oneRow d) _ rowsB colsB shapeB (whole automatic) ?_ columns ?_ (row i).fits
    · exact depth.trans (congrArg UInt64.toNat inner)
    · exact (each i inside).trans (Nat.one_mul _).symm
  let value (i j : Nat) : ℚ := finish (oneRow d) p bias.data 0 j
    (entry (chosen strategy (oneRow d)) (row i).data B.data (oneRow d) p 0 j)
  refine ⟨[UInt64.ofNat d.M], fun i => table (oneRow d) fun _ j => value i j, ?_, ?_,
    fun i inside => ⟨?_, fun made same values => ?_⟩⟩
  · rw [shape, resultShape, count, UInt64.ofNat_toNat]
  · rw [data, table_rows, count]
    refine joined_congr fun i inside => List.map_congr_left fun index member => ?_
    have column : index % d.M < d.M := by
      rw [List.mem_range] at member
      change index < 1 * d.M at member
      exact Nat.mod_lt _ (by omega)
    have same := entry_chosen (isRow i inside) (own i inside) plain (fun automatic => stored automatic i inside) column
    exact (finish_row (count ▸ positive) fits per column _).trans (congrArg _ same)
  · rw [length_table, Tensor.size_pair]
    change 1 * d.M = 1 * (UInt64.ofNat d.M).toNat % 2 ^ 64
    rw [Nat.one_mul, Nat.one_mul, UInt64.toNat_ofNat', Nat.mod_mod, Nat.mod_eq_of_lt (by omega)]
  · have acceptedRow : validate (row i) B bias p = .ok () := by
      refine validate_of_shapes (shaped i inside) shapeB ?_ (per.imp_right fun length => length.trans columns)
      simpa only [plain, Bool.false_eq_true, if_false] using inner
    have dimsRow : resolveDims (row i) B p = .ok (oneRow d) := by
      rw [resolveDims_pair (shaped i inside) shapeB, found]
      simp only [plain, Bool.false_eq_true, if_false]
      rfl
    refine (compute_ok_iff acceptedRow dimsRow).mpr ⟨?_, same, ?_⟩
    · refine defined_row (isRow i inside) (own i inside) plain (fun automatic => stored automatic i inside) (by omega) ?_
      exact defined.ready i (count.symm ▸ inside)
    · rw [table_oneRow]
      exact values

/-- Where every element of `B` is there, a product of one row tells that a batch can be multiplied too. -/
theorem widens_compute {input : Tensor ℚ} (plain : p.transA = false) (wide : Wide n A input) (whole : B.Whole)
    (threads : Threads ℚ) (made : compute input B bias Tensor.empty p strategy threads = .ok result)
    (few : n.toNat ≤ tileLimit) (fits : n.toNat * result.data.length * 4 < 2 ^ 64) :
    ∃ wider, compute A B bias Tensor.empty p strategy threads = .ok wider ∧ Wide n wider result := by
  obtain ⟨_, accepted, located⟩ := Lib.bind_ok made
  obtain ⟨one, dims, _⟩ := Lib.bind_ok located
  obtain ⟨_, shape, data⟩ := (compute_ok_iff accepted dims).mp made
  obtain ⟨rowsA, colsA, rowsB, colsB, shapeA, shapeB, inner, found, fitting⟩ := validate_ok accepted dims
  obtain ⟨rest, outer, narrow, length⟩ := wide
  cases narrow.symm.trans shapeA
  simp only [plain, Bool.false_eq_true, if_false] at found inner
  have columns : one.M = (if p.transB then rowsB else colsB).toNat := by rw [found]
  have small : one.M < 2 ^ 64 := by rw [columns]; exact UInt64.toNat_lt _
  have rows : one.N = 1 := by rw [found]; rfl
  have per : bias.data.length = 0 ∨ bias.data.length = one.M := by
    rw [rows, Nat.one_mul, wrap_of_lt small, or_self] at fitting
    exact fitting
  have acceptedAll : validate A B bias p = .ok () := by
    refine validate_of_shapes outer shapeB ?_ (per.imp_right fun length => length.trans columns)
    simpa only [plain, Bool.false_eq_true, if_false] using inner
  have dimsAll : resolveDims A B p = .ok ⟨n.toNat, one.K, one.M⟩ := by
    rw [resolveDims_pair outer shapeB, found]
    simp only [plain, Bool.false_eq_true, if_false]
  have single : input.data.length = one.K := by
    rw [input.sized, shapeA, Tensor.size_pair, found]
    exact (congrArg (· % 2 ^ 64) (Nat.one_mul _)).trans (Nat.mod_eq_of_lt colsA.toNat_lt)
  have stored : Stored A.data B.data ⟨n.toNat, one.K, one.M⟩ := by
    refine @stored_of_whole B p ⟨n.toNat, one.K, one.M⟩ _ rowsB colsB shapeB whole ?_ columns ?_ A.fits
    · rw [found]
      exact congrArg UInt64.toNat inner
    · rw [length, single]
  have count : result.data.length = one.M := by rw [data, length_table, rows, Nat.one_mul]
  rw [count] at fits
  have defined : Defined (chosen strategy ⟨n.toNat, one.K, one.M⟩) A.data B.data ⟨n.toNat, one.K, one.M⟩ p :=
    ⟨fits, fun _ => few, fun i row => rowReady_of_stored stored row⟩
  obtain ⟨wider, returned, shaped, values⟩ := compute_returns acceptedAll dimsAll defined
  refine ⟨wider, returned Tensor.empty threads, [UInt64.ofNat one.M], ?_, ?_, ?_⟩
  · rw [shaped, resultShape, UInt64.ofNat_toNat]
  · rw [shape, resultShape, rows]
    rfl
  · rw [values, length_table, count]

end Product

end FromScratch.Inference.Gemm
