import FromScratch.Inference.Gemm

/-! What each kernel does to one element of the output. A loop nest touches an
element through its own row and column only, and whatever the tiling, the steps
it takes there are those of `k = 0, 1, 2, …` in this order. -/

namespace FromScratch.Inference
open Lib (upTo Settles Cellwise View tiles settles_read)

namespace Gemm

section Buffers
variable {F : Type}

/-- The output tensors of one shape. -/
def outView (F : Type) (shape : List UInt64) : View (Tensor F) F where
  cells := Tensor.data
  good C := C.shape = shape
  size := (computeSize shape).toNat
  length C same := by rw [C.sized, same]

theorem settles_fetch [Scalar F] (buffer : List F) (index : Nat) :
    Settles (fetch buffer index) (index < buffer.length) (buffer.getD index Scalar.zero) :=
  settles_read _ _ _ _

theorem set_eq_mapIdx (cells : List F) (index : Nat) (change : F → F) (inside : index < cells.length) :
    cells.set index (change cells[index]) = cells.mapIdx fun at_ value => if at_ = index then change value else value := by
  apply List.ext_getElem?
  intro other
  rw [List.getElem?_mapIdx, List.getElem?_set]
  by_cases same : index = other
  · subst same
    simp [inside]
  · have different : other ≠ index := Ne.symm same
    simp [same, different]

theorem cellwise_modify (shape : List UInt64) (index : Nat) (change : F → F) :
    Cellwise (outView F shape) (fun C => C.modify index change) (index < (computeSize shape).toNat)
      fun at_ value => if at_ = index then change value else value where
  ok inside C same := by
    have here : index < C.data.length := by rwa [C.sized, same]
    obtain ⟨after, changed, shaped, filled⟩ := Tensor.modify_of_lt here change
    exact ⟨after, changed, shaped.trans same, filled.trans (set_eq_mapIdx C.data index change here)⟩
  error outside C same := by
    refine ⟨.undefined, Tensor.modify_of_le ?_ change⟩
    rw [C.sized, same]
    omega

end Buffers

/-- The place of an element, given its row and column. -/
theorem place_iff {M i j index : Nat} (inside : j < M) : index = i * M + j ↔ index / M = i ∧ index % M = j := by
  have positive : 0 < M := by omega
  constructor
  · rintro rfl
    rw [mul_comm i M, Nat.mul_add_div positive, Nat.mul_add_mod, Nat.div_eq_of_lt inside, Nat.mod_eq_of_lt inside]
    exact ⟨Nat.add_zero i, rfl⟩
  · rintro ⟨rfl, rfl⟩
    rw [mul_comm, Nat.div_add_mod]

theorem place_lt {N M i j : Nat} (row : i < N) (column : j < M) : i * M + j < N * M := by
  calc i * M + j < i * M + M := Nat.add_lt_add_left column _
    _ = (i + 1) * M := (Nat.succ_mul i M).symm
    _ ≤ N * M := Nat.mul_le_mul_right M row

theorem wrap_of_lt {number : Nat} (small : number < 2 ^ 64) : wrap number = number := Nat.mod_eq_of_lt small

/-- An output whose element count does not wrap. -/
structure Narrow (d : Dims) (shape : List UInt64) : Prop where
  small : d.N * d.M < 2 ^ 64
  size : (computeSize shape).toNat = d.N * d.M

private theorem foldl_lanes {F : Type} (step : F → Nat → F) (quarters : List Nat) (sums : F × F × F × F) :
    quarters.foldl (fun acc quarter => (step acc.1 (4 * quarter), step acc.2.1 (4 * quarter + 1),
        step acc.2.2.1 (4 * quarter + 2), step acc.2.2.2 (4 * quarter + 3))) sums =
      (quarters.foldl (fun acc quarter => step acc (4 * quarter)) sums.1,
        quarters.foldl (fun acc quarter => step acc (4 * quarter + 1)) sums.2.1,
        quarters.foldl (fun acc quarter => step acc (4 * quarter + 2)) sums.2.2.1,
        quarters.foldl (fun acc quarter => step acc (4 * quarter + 3)) sums.2.2.2) := by
  induction quarters generalizing sums with
  | nil => rfl
  | cons quarter quarters ih => exact ih _

section Elements
variable {F : Type} {d : Dims} {shape : List UInt64}

theorem Narrow.row (narrow : Narrow d shape) {i : Nat} (row : i < d.N) : wrap (i * d.M) = i * d.M :=
  wrap_of_lt (lt_of_le_of_lt (Nat.mul_le_mul_right d.M row.le) narrow.small)

theorem Narrow.place (narrow : Narrow d shape) {i j : Nat} (row : i < d.N) (column : j < d.M) :
    wrap (i * d.M + j) = i * d.M + j :=
  wrap_of_lt ((place_lt row column).trans narrow.small)

/-- One element changes, wherever its index comes from. -/
theorem Narrow.modify (narrow : Narrow d shape) {i j index : Nat} (row : i < d.N) (column : j < d.M)
    (place : index = i * d.M + j) (change : F → F) :
    Cellwise (outView F shape) (fun C => C.modify index change) True
      fun at_ value => if at_ % d.M = j ∧ at_ / d.M = i then change value else value := by
  refine (cellwise_modify shape index change).congr ?_ fun at_ _ value => ?_
  · rw [narrow.size, place]
    exact iff_true_intro (place_lt row column)
  · rw [place]
    simp only [place_iff column, and_comm]

/-- What a statement does to the rows `[lo, hi)` of the output, one element at a time. -/
abbrev OnRows (d : Dims) (lo hi : Nat) (change : Nat → Nat → F → F) (at_ : Nat) (value : F) : F :=
  if lo ≤ at_ / d.M ∧ at_ / d.M < hi then change (at_ / d.M) (at_ % d.M) value else value

/-- A loop over rows whose body handles one row. -/
theorem cellwise_rows {lo hi : Nat} {body : Nat → Tensor F → Except Fault (Tensor F)} {ready : Nat → Prop}
    (change : Nat → Nat → F → F)
    (each : ∀ i, lo ≤ i → i < hi → Cellwise (outView F shape) (body i) (ready i)
      fun at_ value => if at_ / d.M = i then change i (at_ % d.M) value else value) :
    Cellwise (outView F shape) (upTo lo hi body) (∀ i, lo ≤ i → i < hi → ready i) (OnRows d lo hi change) := by
  refine (Cellwise.upTo each).congr Iff.rfl fun at_ _ value => ?_
  have walked := Lib.foldl_range_cell True (fun i value => change i (at_ % d.M) value) lo (hi - lo) (at_ / d.M) value
  simp only [and_true] at walked
  rw [walked]
  simp only [OnRows]
  split <;> split <;> first | rfl | omega

/-- The loop over the columns of one row. -/
theorem cellwise_columns {i jj jMax : Nat} {body : Nat → Tensor F → Except Fault (Tensor F)}
    {ready : Nat → Prop} (change : Nat → F → F)
    (each : ∀ j, jj ≤ j → j < jMax → Cellwise (outView F shape) (body j) (ready j)
      fun at_ value => if at_ % d.M = j ∧ at_ / d.M = i then change j value else value) :
    Cellwise (outView F shape) (upTo jj jMax body) (∀ j, jj ≤ j → j < jMax → ready j)
      fun at_ value =>
        if at_ / d.M = i ∧ jj ≤ at_ % d.M ∧ at_ % d.M < jMax then change (at_ % d.M) value else value := by
  refine (Cellwise.upTo each).congr Iff.rfl fun at_ _ value => ?_
  rw [Lib.foldl_range_cell (at_ / d.M = i) change jj (jMax - jj) (at_ % d.M) value]
  split <;> split <;> first | rfl | omega

theorem column_lt (narrow : Narrow d shape) {at_ : Nat} (inside : at_ < (outView F shape).size) : at_ % d.M < d.M := by
  apply Nat.mod_lt
  rcases Nat.eq_zero_or_pos d.M with zero | positive
  · have size := narrow.size
    rw [zero, Nat.mul_zero] at size
    change at_ < (computeSize shape).toNat at inside
    omega
  · exact positive

/-- A loop over all columns. -/
theorem cellwise_row (narrow : Narrow d shape) {i : Nat} {body : Nat → Tensor F → Except Fault (Tensor F)}
    {ready : Nat → Prop} (change : Nat → F → F)
    (each : ∀ j, j < d.M → Cellwise (outView F shape) (body j) (ready j)
      fun at_ value => if at_ % d.M = j ∧ at_ / d.M = i then change j value else value) :
    Cellwise (outView F shape) (upTo 0 d.M body) (∀ j, j < d.M → ready j)
      fun at_ value => if at_ / d.M = i then change (at_ % d.M) value else value := by
  refine (cellwise_columns change fun j _ column => each j column).congr (by simp) fun at_ inside value => ?_
  have column := column_lt narrow inside
  simp [column]

theorem cellwise_clearRow [Scalar F] (narrow : Narrow d shape) {i : Nat} (row : i < d.N) :
    Cellwise (outView F shape) (clearRow d i) True fun at_ value => if at_ / d.M = i then Scalar.zero else value := by
  refine (cellwise_row narrow (fun _ _ => Scalar.zero) fun j column =>
    narrow.modify row column ?_ fun _ => Scalar.zero).congr (by simp) fun _ _ _ => rfl
  rw [narrow.row row]

end Elements

section Sums
variable {F : Type} [Scalar F] (A B : List F) (d : Dims) (p : GemmParams F)

/-- Where `op(A)[i][k]` and `op(B)[k][j]` are read from. The kernels that walk a
row of `B` through a pointer reduce the index of its start only. -/
def indexA (i k : Nat) : Nat := if p.transA then wrap (k * d.N + i) else wrap (i * d.K + k)
def indexB (k j : Nat) : Nat := if p.transB then wrap (j * d.K + k) else wrap (k * d.M + j)
def indexRowB (k j : Nat) : Nat := if p.transB then wrap (j * d.K + k) else wrap (k * d.M) + j

def elementA (i k : Nat) : F := A.getD (indexA d p i k) Scalar.zero

/-- `acc += a * b`. -/
def accumulate (i : Nat) (placeB : Nat → Nat → Nat) (j : Nat) (acc : F) (k : Nat) : F :=
  Scalar.add acc (Scalar.mul (elementA A d p i k) (B.getD (placeB k j) Scalar.zero))

/-- The same, unless the multiplier is zero. -/
def accumulateNonzero (i : Nat) (placeB : Nat → Nat → Nat) (j : Nat) (acc : F) (k : Nat) : F :=
  if Scalar.isZero (elementA A d p i k) then acc else accumulate A B d p i placeB j acc k

def naiveEntry (i j : Nat) : F := (List.range' 0 d.K).foldl (accumulate A B d p i (indexB d p) j) Scalar.zero

def sparseEntry (placeB : Nat → Nat → Nat) (i j : Nat) : F :=
  (List.range' 0 d.K).foldl (accumulateNonzero A B d p i placeB j) Scalar.zero

def dotTerm (i j : Nat) (acc : F) (k : Nat) : F :=
  Scalar.add acc (Scalar.mul (A.getD (wrap (i * d.K) + k) Scalar.zero) (B.getD (wrap (j * d.K) + k) Scalar.zero))

/-- The partial sum over `k ≡ lane (mod 4)`. -/
def laneSum (i j lane : Nat) : F :=
  (List.range' 0 (d.K / 4)).foldl (fun acc quarter => dotTerm A B d i j acc (4 * quarter + lane)) Scalar.zero

def dotEntry (i j : Nat) : F :=
  (List.range' (4 * (d.K / 4)) (d.K - 4 * (d.K / 4))).foldl (dotTerm A B d i j)
    (Scalar.add (Scalar.add (laneSum A B d i j 0) (laneSum A B d i j 1))
      (Scalar.add (laneSum A B d i j 2) (laneSum A B d i j 3)))

end Sums

section Kernels
variable {F : Type} [Scalar F] {A B : List F} {d : Dims} {p : GemmParams F} {shape : List UInt64}

theorem settles_product (first second : Nat) (acc : F) :
    Settles (do
      let a ← fetch A first
      let b ← fetch B second
      pure (Scalar.add acc (Scalar.mul a b))) (first < A.length ∧ second < B.length)
      (Scalar.add acc (Scalar.mul (A.getD first Scalar.zero) (B.getD second Scalar.zero))) := by
  exact @Settles.mono _ _ _ (first < A.length ∧ second < B.length ∧ True) _ _
    ((settles_fetch A first).bind ((settles_fetch B second).bind (Settles.pure _))) (by simp)

def NaiveReady (A B : List F) (d : Dims) (p : GemmParams F) (i : Nat) : Prop :=
  ∀ j, j < d.M → ∀ k, k < d.K → indexA d p i k < A.length ∧ indexB d p k j < B.length

theorem cellwise_naive (narrow : Narrow d shape) {lo hi : Nat} (rows : hi ≤ d.N) :
    Cellwise (outView F shape) (accumulateNaive A B d p lo hi) (∀ i, lo ≤ i → i < hi → NaiveReady A B d p i)
      (OnRows d lo hi fun i j _ => naiveEntry A B d p i j) := by
  refine cellwise_rows (fun i j _ => naiveEntry A B d p i j) fun i _ below => ?_
  refine cellwise_row narrow (fun j _ => naiveEntry A B d p i j) fun j column => ?_
  have row : i < d.N := by omega
  have sum : Settles (upTo 0 d.K (fun k acc => do
      let a ← fetch A (if p.transA then wrap (k * d.N + i) else wrap (i * d.K + k))
      let b ← fetch B (if p.transB then wrap (j * d.K + k) else wrap (k * d.M + j))
      pure (Scalar.add acc (Scalar.mul a b))) Scalar.zero)
      (∀ k, k < d.K → indexA d p i k < A.length ∧ indexB d p k j < B.length) (naiveEntry A B d p i j) := by
    refine (Settles.upTo (fun k _ _ acc => ?_) _).mono ⟨fun every k below => every k (Nat.zero_le k) below,
      fun every k _ below => every k below⟩
    exact settles_product _ _ acc
  have place : wrap (i * d.M + j) = i * d.M + j := narrow.place row column
  refine (Cellwise.before sum (narrow.modify row column place _)).congr (and_iff_left trivial) fun _ _ _ => rfl

section Dot

def DotReady (A B : List F) (d : Dims) (i : Nat) : Prop :=
  ∀ j, j < d.M → ∀ k, k < d.K → wrap (i * d.K) + k < A.length ∧ wrap (j * d.K) + k < B.length

/-- The four lanes and the tail read each `k` once. -/
private theorem lanes_iff {K : Nat} {holds : Nat → Prop} :
    ((∀ quarter, quarter < K / 4 → holds (4 * quarter) ∧ holds (4 * quarter + 1) ∧ holds (4 * quarter + 2) ∧
        holds (4 * quarter + 3)) ∧ ∀ k, 4 * (K / 4) ≤ k → k < K → holds k) ↔ ∀ k, k < K → holds k := by
  constructor
  · rintro ⟨lanes, tail⟩ k below
    by_cases inside : k < 4 * (K / 4)
    · obtain ⟨zero, one, two, three⟩ := lanes (k / 4) (by omega)
      have cases : k = 4 * (k / 4) ∨ k = 4 * (k / 4) + 1 ∨ k = 4 * (k / 4) + 2 ∨ k = 4 * (k / 4) + 3 := by omega
      rcases cases with same | same | same | same
      all_goals rw [same]; assumption
    · exact tail k (by omega) below
  · intro every
    refine ⟨fun quarter below => ⟨?_, ?_, ?_, ?_⟩, fun k _ below => every k below⟩
    all_goals apply every; omega

theorem cellwise_dot (narrow : Narrow d shape) {lo hi : Nat} (rows : hi ≤ d.N) :
    Cellwise (outView F shape) (accumulateDotContiguous A B d lo hi) (∀ i, lo ≤ i → i < hi → DotReady A B d i)
      (OnRows d lo hi fun i j _ => dotEntry A B d i j) := by
  refine cellwise_rows (fun i j _ => dotEntry A B d i j) fun i _ below => ?_
  refine cellwise_row narrow (fun j _ => dotEntry A B d i j) fun j column => ?_
  have row : i < d.N := by omega
  let inside (k : Nat) : Prop := wrap (i * d.K) + k < A.length ∧ wrap (j * d.K) + k < B.length
  have step : ∀ k acc, Settles (dotStep A B (wrap (i * d.K)) (wrap (j * d.K)) k acc) (inside k) (dotTerm A B d i j acc k) :=
    fun k acc => settles_product _ _ acc
  have four : ∀ quarter acc, Settles (dotFourSteps A B (wrap (i * d.K)) (wrap (j * d.K)) quarter acc)
      (inside (4 * quarter) ∧ inside (4 * quarter + 1) ∧ inside (4 * quarter + 2) ∧ inside (4 * quarter + 3))
      (dotTerm A B d i j acc.1 (4 * quarter), dotTerm A B d i j acc.2.1 (4 * quarter + 1),
        dotTerm A B d i j acc.2.2.1 (4 * quarter + 2), dotTerm A B d i j acc.2.2.2 (4 * quarter + 3)) := by
    intro quarter acc
    exact @Settles.mono _ _ _
      (inside (4 * quarter) ∧ inside (4 * quarter + 1) ∧ inside (4 * quarter + 2) ∧ inside (4 * quarter + 3) ∧ True) _ _
      ((step _ _).bind ((step _ _).bind ((step _ _).bind ((step _ _).bind (Settles.pure _))))) (by simp)
  have lanes := Settles.upTo (fun quarter (_ : 0 ≤ quarter) (_ : quarter < d.K / 4) acc => four quarter acc)
    (Scalar.zero, Scalar.zero, Scalar.zero, Scalar.zero)
  rw [foldl_lanes] at lanes
  have tail := fun sum => Settles.upTo (fun k (_ : 4 * (d.K / 4) ≤ k) (_ : k < d.K) acc => step k acc) sum
  have place : wrap (i * d.M + j) = i * d.M + j := narrow.place row column
  refine (Cellwise.before lanes (Cellwise.before (tail _) (narrow.modify row column place _))).congr ?_ fun _ _ _ => rfl
  have all := @lanes_iff d.K inside
  simpa only [Nat.zero_le, true_imp_iff, and_true] using all

end Dot

section Sparse

/-- `if (a == 0.0f) continue;` -/
theorem cellwise_unlessZero {view : View (Tensor F) F} (a : F) {body : Tensor F → Except Fault (Tensor F)} {ready : Prop}
    {act : Nat → F → F} (adds : Cellwise view body ready act) :
    Cellwise view (fun C => if Scalar.isZero a then .ok C else body C) (Scalar.isZero a = false → ready)
      fun at_ value => if Scalar.isZero a then value else act at_ value :=
  (Cellwise.ite (fun _ => Cellwise.skip view) fun _ => adds).congr (by simp) fun _ _ _ => rfl

/-- What `addRow` reads. -/
def AddReady (A B : List F) (d : Dims) (p : GemmParams F) (i k j : Nat) : Prop :=
  Scalar.isZero (elementA A d p i k) = false → indexRowB d p k j < B.length

theorem cellwise_addRow (narrow : Narrow d shape) {i k jj jMax : Nat} (row : i < d.N) (within : jMax ≤ d.M) :
    Cellwise (outView F shape) (addRow A B d p i k jj jMax)
      (indexA d p i k < A.length ∧ ∀ j, jj ≤ j → j < jMax → AddReady A B d p i k j)
      fun at_ value => if at_ / d.M = i ∧ jj ≤ at_ % d.M ∧ at_ % d.M < jMax then
        accumulateNonzero A B d p i (indexRowB d p) (at_ % d.M) value k else value := by
  have adds : Cellwise (outView F shape) (upTo jj jMax fun j C => do
      let b ← fetch B (if p.transB then wrap (j * d.K + k) else wrap (k * d.M) + j)
      C.modify (wrap (i * d.M) + j) fun c => Scalar.add c (Scalar.mul (elementA A d p i k) b))
      (∀ j, jj ≤ j → j < jMax → indexRowB d p k j < B.length)
      fun at_ value => if at_ / d.M = i ∧ jj ≤ at_ % d.M ∧ at_ % d.M < jMax then
        accumulate A B d p i (indexRowB d p) (at_ % d.M) value k else value := by
    refine cellwise_columns (fun j value => accumulate A B d p i (indexRowB d p) j value k) fun j _ below => ?_
    have column : j < d.M := by omega
    have place : wrap (i * d.M) + j = i * d.M + j := by rw [narrow.row row]
    exact (Cellwise.before (settles_fetch B _) (narrow.modify row column place _)).congr (and_iff_left trivial)
      fun _ _ _ => rfl
  have chosen := cellwise_unlessZero (elementA A d p i k) adds
  refine (Cellwise.before (settles_fetch A (indexA d p i k)) chosen).congr ?_ fun at_ _ value => ?_
  · simp only [AddReady]
    tauto
  · simp only [accumulateNonzero]
    cases Scalar.isZero (elementA A d p i k) <;> simp

theorem cellwise_addRows (narrow : Narrow d shape) {i kk kMax jj jMax : Nat} (row : i < d.N) (within : jMax ≤ d.M) :
    Cellwise (outView F shape) (upTo kk kMax fun k => addRow A B d p i k jj jMax)
      (∀ k, kk ≤ k → k < kMax → indexA d p i k < A.length ∧ ∀ j, jj ≤ j → j < jMax → AddReady A B d p i k j)
      fun at_ value => if at_ / d.M = i ∧ jj ≤ at_ % d.M ∧ at_ % d.M < jMax then
        (List.range' kk (kMax - kk)).foldl (accumulateNonzero A B d p i (indexRowB d p) (at_ % d.M)) value else value := by
  refine (Cellwise.upTo fun k _ _ => cellwise_addRow narrow row within).congr Iff.rfl fun at_ _ value => ?_
  rw [Lib.foldl_guard]

def SparseReady (A B : List F) (d : Dims) (p : GemmParams F) (i : Nat) : Prop :=
  ∀ k, k < d.K → indexA d p i k < A.length ∧ ∀ j, j < d.M → AddReady A B d p i k j

theorem cellwise_sparse (narrow : Narrow d shape) {lo hi : Nat} (rows : hi ≤ d.N) :
    Cellwise (outView F shape) (upTo lo hi fun i C => do
      let C ← clearRow d i C
      upTo 0 d.K (fun k => addRow A B d p i k 0 d.M) C)
      (∀ i, lo ≤ i → i < hi → SparseReady A B d p i)
      (OnRows d lo hi fun i j _ => sparseEntry A B d p (indexRowB d p) i j) := by
  refine cellwise_rows (fun i j _ => sparseEntry A B d p (indexRowB d p) i j) fun i _ below => ?_
  have row : i < d.N := by omega
  refine ((cellwise_clearRow narrow row).seq (cellwise_addRows narrow row le_rfl)).congr ?_ fun at_ inside value => ?_
  · simp [SparseReady]
  · have column := column_lt narrow inside
    by_cases here : at_ / d.M = i
    · simp [here, column, sparseEntry]
    · simp [here]

end Sparse

end Kernels
end Gemm
end FromScratch.Inference
