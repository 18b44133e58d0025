import FromScratch.Proofs.GemmKernels

/-! The blocked kernels. A tile of rows, of `k` and of columns is walked inside
three loops over tiles, and packed tiles are read back from where they were
copied to, so every element again sees all of `k` in order. -/

namespace FromScratch.Inference
open Lib (upTo Settles Cellwise View tiles mem_tiles exists_tile)

namespace Gemm

/-- The largest bound whose loop over tiles of 64 ends wherever it starts. -/
def tileLimit : Nat := 2 ^ 64 - 64

theorem kTile_eq : kTile = 64 := rfl

theorem kPackTile_eq : kPackTile = 64 := rfl

section Loops
variable {σ F : Type} {tile lo hi : Nat} (is64 : tile = 64) {body : Nat → σ → Except Fault σ}

include is64

theorem forTiles_eq (room : hi ≤ tileLimit) : forTiles tile lo hi body =
    fun state => (tiles tile lo hi).foldlM (fun state x => body x state) state := by
  funext state
  subst is64
  simp only [tileLimit] at room
  exact Lib.stepping_eq (by decide) (by omega) (by omega) state

theorem forTiles_endless (far : tileLimit < hi) (state : σ) : ∃ e, forTiles tile 0 hi body state = .error e := by
  subst is64
  simp only [tileLimit] at far
  exact Lib.stepping_endless (by decide) (by omega) _ (Nat.dvd_zero _) (by decide) state

theorem tileEnd_eq (room : hi ≤ tileLimit) {x : Nat} (inside : x < hi) : tileEnd tile x hi = min (x + tile) hi := by
  subst is64
  simp only [tileLimit] at room
  rw [tileEnd, wrap_of_lt (by omega)]

variable {view : View σ F} {ready : Nat → Prop} {act : Nat → Nat → F → F}

theorem cellwise_forTiles (room : hi ≤ tileLimit)
    (each : ∀ x, lo ≤ x → x < hi → tileEnd tile x hi = min (x + tile) hi → Cellwise view (body x) (ready x) (act x)) :
    Cellwise view (forTiles tile lo hi body) (∀ x ∈ tiles tile lo hi, ready x)
      fun at_ value => (tiles tile lo hi).foldl (fun value x => act x at_ value) value := by
  rw [forTiles_eq is64 room]
  apply Cellwise.foldlM
  intro x member
  have bounds := mem_tiles member
  exact each x bounds.1 bounds.2 (tileEnd_eq is64 room bounds.2)

/-- A loop from the start either ends, tile by tile, or fails. -/
theorem cellwise_forTiles_zero
    (each : ∀ x, x < hi → tileEnd tile x hi = min (x + tile) hi → Cellwise view (body x) (ready x) (act x)) :
    Cellwise view (forTiles tile 0 hi body) (hi ≤ tileLimit ∧ ∀ x ∈ tiles tile 0 hi, ready x)
      fun at_ value => (tiles tile 0 hi).foldl (fun value x => act x at_ value) value := by
  by_cases room : hi ≤ tileLimit
  · exact (cellwise_forTiles is64 room fun x _ below => each x below).congr (and_iff_right room).symm fun _ _ _ => rfl
  · exact ⟨fun both => absurd both.1 room, fun _ state _ => forTiles_endless is64 (by omega) state⟩

end Loops

/-- What the loops over the tiles of `k` and of the columns do to the rows of one tile. -/
theorem foldl_tile {F : Type} {tile : Nat} (positive : 0 < tile) {ii iMax K M row column : Nat} (inside : column < M)
    (step : F → Nat → F) (value : F) :
    (tiles tile 0 K).foldl (fun value kk => (tiles tile 0 M).foldl (fun value jj =>
        if (ii ≤ row ∧ row < iMax) ∧ jj ≤ column ∧ column < min (jj + tile) M then
          (List.range' kk (min (kk + tile) K - kk)).foldl step value else value) value) value =
      if ii ≤ row ∧ row < iMax then (List.range' 0 K).foldl step value else value := by
  by_cases here : ii ≤ row ∧ row < iMax
  · simp only [here, and_self, true_and, if_true]
    have columns : ∀ value kk, (tiles tile 0 M).foldl (fun value jj =>
        if jj ≤ column ∧ column < min (jj + tile) M then
          (List.range' kk (min (kk + tile) K - kk)).foldl step value else value) value =
        (List.range' kk (min (kk + tile) K - kk)).foldl step value := by
      intro value kk
      rw [Lib.foldl_tiles_hit positive, if_pos ⟨Nat.zero_le _, inside⟩]
    simp only [columns]
    exact Lib.foldl_tiles_range positive step value
  · simp only [here, false_and, if_false, List.foldl_fixed]

section Tiled
variable {F : Type} [Scalar F] {A B : List F} {d : Dims} {p : GemmParams F} {shape : List UInt64}

/-- A row is ready if the tile loops over `k` and the columns end, the latter
where it is reached, and what they read is there. -/
def TiledReady (A B : List F) (d : Dims) (p : GemmParams F) (i : Nat) : Prop :=
  d.K ≤ tileLimit ∧ ∀ k, k < d.K → d.M ≤ tileLimit ∧
    ∀ j, j < d.M → indexA d p i k < A.length ∧ AddReady A B d p i k j

theorem cellwise_tile (narrow : Narrow d shape) {hi : Nat} (rows : hi ≤ d.N) {ii kk jj : Nat}
    (rowEnd : tileEnd kTile ii hi = min (ii + kTile) hi) (depthEnd : tileEnd kTile kk d.K = min (kk + kTile) d.K)
    (columnEnd : tileEnd kTile jj d.M = min (jj + kTile) d.M) :
    Cellwise (outView F shape) (upTo ii (tileEnd kTile ii hi) fun i => upTo kk (tileEnd kTile kk d.K) fun k =>
        addRow A B d p i k jj (tileEnd kTile jj d.M))
      (∀ i, ii ≤ i → i < min (ii + kTile) hi → ∀ k, kk ≤ k → k < min (kk + kTile) d.K →
        indexA d p i k < A.length ∧ ∀ j, jj ≤ j → j < min (jj + kTile) d.M → AddReady A B d p i k j)
      fun at_ value => if (ii ≤ at_ / d.M ∧ at_ / d.M < min (ii + kTile) hi) ∧
          jj ≤ at_ % d.M ∧ at_ % d.M < min (jj + kTile) d.M then
        (List.range' kk (min (kk + kTile) d.K - kk)).foldl
          (accumulateNonzero A B d p (at_ / d.M) (indexRowB d p) (at_ % d.M)) value
        else value := by
  rw [rowEnd, depthEnd, columnEnd]
  have within : min (jj + kTile) d.M ≤ d.M := Nat.min_le_right _ _
  refine (Cellwise.upTo fun i _ below => cellwise_addRows narrow (by omega) within).congr Iff.rfl fun at_ _ value => ?_
  have walked := Lib.foldl_range_cell (jj ≤ at_ % d.M ∧ at_ % d.M < min (jj + kTile) d.M) (fun i value =>
    (List.range' kk (min (kk + kTile) d.K - kk)).foldl (accumulateNonzero A B d p i (indexRowB d p) (at_ % d.M)) value)
    ii (min (ii + kTile) hi - ii) (at_ / d.M) value
  rw [walked]
  split <;> split <;> first | rfl | omega

theorem tiledReady_iff {lo hi : Nat} :
    (∀ ii ∈ tiles kTile lo hi, d.K ≤ tileLimit ∧ ∀ kk ∈ tiles kTile 0 d.K, d.M ≤ tileLimit ∧ ∀ jj ∈ tiles kTile 0 d.M,
      ∀ i, ii ≤ i → i < min (ii + kTile) hi → ∀ k, kk ≤ k → k < min (kk + kTile) d.K →
        indexA d p i k < A.length ∧ ∀ j, jj ≤ j → j < min (jj + kTile) d.M → AddReady A B d p i k j) ↔
      ∀ i, lo ≤ i → i < hi → TiledReady A B d p i := by
  have positive : 0 < kTile := by decide
  constructor
  · intro every i above below
    obtain ⟨ii, rowTile, firstRow, lastRow⟩ := exists_tile positive above below
    refine ⟨(every ii rowTile).1, fun k belowK => ?_⟩
    obtain ⟨kk, depthTile, firstK, lastK⟩ := exists_tile positive (Nat.zero_le k) belowK
    refine ⟨((every ii rowTile).2 kk depthTile).1, fun j belowM => ?_⟩
    obtain ⟨jj, columnTile, firstJ, lastJ⟩ := exists_tile positive (Nat.zero_le j) belowM
    have found := ((every ii rowTile).2 kk depthTile).2 jj columnTile i firstRow lastRow k firstK lastK
    exact ⟨found.1, found.2 j firstJ lastJ⟩
  · intro every ii rowTile
    have rows := mem_tiles rowTile
    refine ⟨(every ii rows.1 rows.2).1, fun kk depthTile => ?_⟩
    have depths := mem_tiles depthTile
    refine ⟨((every ii rows.1 rows.2).2 kk depths.2).1, fun jj columnTile i firstRow lastRow k firstK lastK => ?_⟩
    have columns := mem_tiles columnTile
    have row := ((every i (by omega) (by omega)).2 k (by omega)).2
    exact ⟨(row jj columns.2).1, fun j _ lastJ => (row j (by omega)).2⟩

theorem cellwise_tiled (narrow : Narrow d shape) {lo hi : Nat} (rows : hi ≤ d.N) (room : hi ≤ tileLimit) :
    Cellwise (outView F shape) (accumulateTiled A B d p lo hi) (∀ i, lo ≤ i → i < hi → TiledReady A B d p i)
      (OnRows d lo hi fun i j _ => sparseEntry A B d p (indexRowB d p) i j) := by
  have cleared : Cellwise (outView F shape) (upTo lo hi (clearRow d)) (∀ i, lo ≤ i → i < hi → True)
      (OnRows d lo hi fun _ _ _ => Scalar.zero) :=
    cellwise_rows (fun _ _ _ => Scalar.zero) fun i _ below => cellwise_clearRow narrow (by omega)
  refine (cleared.seq (cellwise_forTiles kTile_eq room fun ii _ _ rowEnd =>
    cellwise_forTiles_zero kTile_eq fun kk _ depthEnd =>
    cellwise_forTiles_zero kTile_eq fun jj _ columnEnd => cellwise_tile narrow rows rowEnd depthEnd columnEnd)).congr ?_
    fun at_ inside value => ?_
  · rw [tiledReady_iff]
    simp
  · have positive : 0 < kTile := by decide
    simp only [foldl_tile positive (column_lt narrow inside)]
    rw [Lib.foldl_tiles_hit positive]
    simp only [OnRows, sparseEntry]
    split <;> rfl

end Tiled

section Packs
variable {F : Type} [Scalar F]

def packSize : Nat := kPackTile * kPackTile

def packView (F : Type) : View (List F) F where
  cells pack := pack
  good pack := pack.length = packSize
  size := packSize
  length _ same := same

theorem resize_length (pack : List F) : (resize pack).length = packSize := by
  rw [resize, List.length_append, List.length_take, List.length_replicate]
  simp only [packSize]
  omega

omit [Scalar F] in
theorem cellwise_storePack (index : Nat) (value : F) :
    Cellwise (packView F) (fun pack => storePack pack index value) (index < packSize)
      fun at_ old => if at_ = index then value else old where
  ok inside pack long := by
    change pack.length = packSize at long
    have here : index < pack.length := by omega
    refine ⟨pack.set index value, if_pos here, (List.length_set ..).trans long, ?_⟩
    exact set_eq_mapIdx pack index (fun _ => value) here
  error outside pack long := by
    change pack.length = packSize at long
    exact ⟨.undefined, if_neg (by omega)⟩

variable {rows cols : Nat} {element : Nat → Nat → Except Fault F} {ready : Nat → Nat → Prop} {value : Nat → Nat → F}

omit [Scalar F] in
theorem cellwise_packBlock (fewRows : rows ≤ kPackTile) (fewCols : cols ≤ kPackTile)
    (settled : ∀ i j, i < rows → j < cols → Settles (element i j) (ready i j) (value i j)) :
    Cellwise (packView F) (packBlock rows cols element) (∀ i, i < rows → ∀ j, j < cols → ready i j)
      fun at_ old => if at_ / cols < rows ∧ at_ % cols < cols then value (at_ / cols) (at_ % cols) else old := by
  have row : ∀ i, 0 ≤ i → i < rows → Cellwise (packView F) (upTo 0 cols fun j pack => do
      let value ← element i j
      storePack pack (i * cols + j) value) (∀ j, j < cols → ready i j)
      fun at_ old => if at_ / cols = i ∧ at_ % cols < cols then value i (at_ % cols) else old := by
    intro i _ below
    have cell : ∀ j, 0 ≤ j → j < cols → Cellwise (packView F) (fun pack => do
        let value ← element i j
        storePack pack (i * cols + j) value) (ready i j)
        fun at_ old => if at_ % cols = j ∧ at_ / cols = i then value i j else old := by
      intro j _ within
      have small : i * cols + j < packSize :=
        lt_of_lt_of_le (place_lt below within) (Nat.mul_le_mul fewRows fewCols)
      refine (Cellwise.before (settled i j below within) (cellwise_storePack (i * cols + j) (value i j))).congr
        (and_iff_left small) fun at_ _ old => ?_
      simp only [place_iff within, and_comm]
    refine (Cellwise.upTo cell).congr (by simp) fun at_ _ old => ?_
    rw [Lib.foldl_range_cell (at_ / cols = i) (fun j _ => value i j) 0 (cols - 0) (at_ % cols) old]
    simp only [Nat.zero_le, true_and, Nat.zero_add, Nat.sub_zero, and_comm]
  refine (Cellwise.upTo row).congr (by simp) fun at_ _ old => ?_
  rw [Lib.foldl_range_cell (at_ % cols < cols) (fun i _ => value i (at_ % cols)) 0 (rows - 0) (at_ / cols) old]
  simp only [Nat.zero_le, true_and, Nat.zero_add, Nat.sub_zero]

/-- A packed block is read back element by element. -/
theorem packBlock_ready (fewRows : rows ≤ kPackTile) (fewCols : cols ≤ kPackTile)
    (settled : ∀ i j, i < rows → j < cols → Settles (element i j) (ready i j) (value i j))
    (here : ∀ i, i < rows → ∀ j, j < cols → ready i j) {pack : List F} (long : pack.length = packSize) :
    ∃ packed, packBlock rows cols element pack = .ok packed ∧ packed.length = packSize ∧
      ∀ i, i < rows → ∀ j, j < cols → i * cols + j < packSize ∧ packed.getD (i * cols + j) Scalar.zero = value i j := by
  obtain ⟨packed, run, length, filled⟩ := (cellwise_packBlock fewRows fewCols settled).ok here pack long
  refine ⟨packed, run, length, fun i below j within => ?_⟩
  have place : i * cols + j < packSize := lt_of_lt_of_le (place_lt below within) (Nat.mul_le_mul fewRows fewCols)
  refine ⟨place, ?_⟩
  obtain ⟨same, other⟩ := (place_iff within).mp (rfl : i * cols + j = i * cols + j)
  change packed = pack.mapIdx _ at filled
  have inside : i * cols + j < pack.length := by omega
  rw [filled, List.getD_eq_getElem?_getD, List.getElem?_mapIdx, List.getElem?_eq_getElem inside]
  simp [same, other, below, within]

end Packs

section MicroKernel
variable {F : Type} [Scalar F] {A B : List F} {d : Dims} {p : GemmParams F} {shape : List UInt64}

/-- The block of `op(A)` a pack buffer holds. -/
def HoldsA (A : List F) (d : Dims) (p : GemmParams F) (ii kk rows depth : Nat) (packA : List F) : Prop :=
  ∀ i, i < rows → ∀ k, k < depth → i * depth + k < packSize ∧
    packA.getD (i * depth + k) Scalar.zero = elementA A d p (ii + i) (kk + k)

def HoldsB (B : List F) (d : Dims) (p : GemmParams F) (kk jj depth cols : Nat) (packB : List F) : Prop :=
  ∀ k, k < depth → ∀ j, j < cols → k * cols + j < packSize ∧
    packB.getD (k * cols + j) Scalar.zero = B.getD (indexB d p (kk + k) (jj + j)) Scalar.zero

theorem cellwise_microKernel (narrow : Narrow d shape) {ii kk jj rows depth cols : Nat} {packA packB : List F}
    (longA : packA.length = packSize) (longB : packB.length = packSize) (holdsA : HoldsA A d p ii kk rows depth packA)
    (holdsB : HoldsB B d p kk jj depth cols packB) (inRows : ii + rows ≤ d.N) (inCols : jj + cols ≤ d.M) :
    Cellwise (outView F shape) (microKernel packA packB (wrap (ii * d.M) + jj) rows depth cols d.M) True
      fun at_ value => if (ii ≤ at_ / d.M ∧ at_ / d.M < ii + rows) ∧ jj ≤ at_ % d.M ∧ at_ % d.M < jj + cols then
        (List.range' kk depth).foldl (accumulateNonzero A B d p (at_ / d.M) (indexB d p) (at_ % d.M)) value
        else value := by
  have products : ∀ i, 0 ≤ i → i < rows → ∀ k, 0 ≤ k → k < depth → Cellwise (outView F shape)
      (fun C => do
        let a ← fetch packA (i * depth + k)
        if Scalar.isZero a then pure C
        else upTo 0 cols (fun j C => do
          let b ← fetch packB (k * cols + j)
          C.modify (wrap (ii * d.M) + jj + wrap (i * d.M) + j) fun c => Scalar.add c (Scalar.mul a b)) C) True
      fun at_ value => if at_ / d.M = ii + i ∧ jj ≤ at_ % d.M ∧ at_ % d.M < jj + cols then
        accumulateNonzero A B d p (at_ / d.M) (indexB d p) (at_ % d.M) value (kk + k) else value := by
    intro i _ belowI k _ belowK
    obtain ⟨insideA, readA⟩ := holdsA i belowI k belowK
    have adds : ∀ j, 0 ≤ j → j < cols → Cellwise (outView F shape) (fun C => do
        let b ← fetch packB (k * cols + j)
        C.modify (wrap (ii * d.M) + jj + wrap (i * d.M) + j) fun c =>
          Scalar.add c (Scalar.mul (elementA A d p (ii + i) (kk + k)) b)) True
        fun at_ value => if at_ % d.M = jj + j ∧ at_ / d.M = ii + i then
          accumulate A B d p (ii + i) (indexB d p) (jj + j) value (kk + k) else value := by
      intro j _ belowJ
      obtain ⟨insideB, readB⟩ := holdsB k belowK j belowJ
      have row : ii + i < d.N := by omega
      have place : wrap (ii * d.M) + jj + wrap (i * d.M) + j = (ii + i) * d.M + (jj + j) := by
        rw [narrow.row (by omega : ii < d.N), narrow.row (by omega : i < d.N)]
        ring
      refine (Cellwise.before (settles_fetch packB _) (narrow.modify row (by omega) place _)).congr ?_ fun at_ _ value => ?_
      · exact iff_of_true ⟨by omega, trivial⟩ trivial
      · rw [readB]
        rfl
    have row : Cellwise (outView F shape) (upTo 0 cols fun j C => do
        let b ← fetch packB (k * cols + j)
        C.modify (wrap (ii * d.M) + jj + wrap (i * d.M) + j) fun c =>
          Scalar.add c (Scalar.mul (elementA A d p (ii + i) (kk + k)) b)) True
        fun at_ value => if at_ / d.M = ii + i ∧ jj ≤ at_ % d.M ∧ at_ % d.M < jj + cols then
          accumulate A B d p (ii + i) (indexB d p) (at_ % d.M) value (kk + k) else value := by
      refine (Cellwise.upTo adds).congr (by simp) fun at_ _ value => ?_
      rw [Nat.sub_zero, Lib.foldl_range_shift (fun value column => if at_ % d.M = column ∧ at_ / d.M = ii + i then
        accumulate A B d p (ii + i) (indexB d p) column value (kk + k) else value) jj cols value]
      rw [Lib.foldl_range_cell (at_ / d.M = ii + i) (fun column value =>
        accumulate A B d p (ii + i) (indexB d p) column value (kk + k)) jj cols (at_ % d.M) value]
      simp only [and_comm]
    refine (Cellwise.before (settles_fetch packA _)
      (cellwise_unlessZero _ (readA.symm ▸ row))).congr ?_ fun at_ _ value => ?_
    · exact iff_of_true ⟨by omega, fun _ => trivial⟩ trivial
    · rw [readA]
      by_cases here : at_ / d.M = ii + i
      · simp only [here, accumulateNonzero, true_and]
        split <;> simp
      · simp [here]
  have depths : ∀ i, 0 ≤ i → i < rows → Cellwise (outView F shape) (upTo 0 depth fun k C => do
        let a ← fetch packA (i * depth + k)
        if Scalar.isZero a then pure C
        else upTo 0 cols (fun j C => do
          let b ← fetch packB (k * cols + j)
          C.modify (wrap (ii * d.M) + jj + wrap (i * d.M) + j) fun c => Scalar.add c (Scalar.mul a b)) C) True
      fun at_ value => if at_ / d.M = ii + i ∧ jj ≤ at_ % d.M ∧ at_ % d.M < jj + cols then
        (List.range' kk depth).foldl (accumulateNonzero A B d p (at_ / d.M) (indexB d p) (at_ % d.M)) value else value := by
    intro i _ belowI
    refine (Cellwise.upTo (products i (Nat.zero_le i) belowI)).congr (by simp) fun at_ _ value => ?_
    rw [Lib.foldl_guard, Nat.sub_zero, Lib.foldl_range_shift]
  refine (Cellwise.upTo depths).congr (by simp) fun at_ _ value => ?_
  rw [Nat.sub_zero, Lib.foldl_range_shift (fun value row => if at_ / d.M = row ∧ jj ≤ at_ % d.M ∧ at_ % d.M < jj + cols then
    (List.range' kk depth).foldl (accumulateNonzero A B d p (at_ / d.M) (indexB d p)
      (at_ % d.M)) value else value) ii rows value]
  rw [Lib.foldl_range_cell (jj ≤ at_ % d.M ∧ at_ % d.M < jj + cols) (fun _ value =>
    (List.range' kk depth).foldl (accumulateNonzero A B d p (at_ / d.M) (indexB d p) (at_ % d.M)) value)
    ii rows (at_ / d.M) value]

end MicroKernel

section Packed
variable {F : Type} [Scalar F] {A B : List F} {d : Dims} {p : GemmParams F} {shape : List UInt64}

/-- The pack buffers beside the output, and what is known of their contents. -/
def packedView (F : Type) (shape : List UInt64) (holds : Packs F → Prop) : View (Packs F × Tensor F) F where
  cells state := state.2.data
  good state := (state.1.packA.length = packSize ∧ state.1.packB.length = packSize ∧ holds state.1) ∧ state.2.shape = shape
  size := (computeSize shape).toNat
  length state good := by rw [state.2.sized, good.2]

/-- The block of columns `[jj, jj + cols)` for packed rows. -/
theorem cellwise_packedColumns (narrow : Narrow d shape) {ii kk jj rows depth cols : Nat} (inRows : ii + rows ≤ d.N)
    (inCols : jj + cols ≤ d.M) (shallow : depth ≤ kPackTile) (slim : cols ≤ kPackTile) :
    Cellwise (packedView F shape fun packs => HoldsA A d p ii kk rows depth packs.packA)
      (fun state => do
        let state ← packRowsOfB B d p kk jj depth cols state
        let C ← microKernel state.1.packA state.1.packB (wrap (ii * d.M) + jj) rows depth cols d.M state.2
        pure (state.1, C))
      (∀ k, k < depth → ∀ j, j < cols → indexB d p (kk + k) (jj + j) < B.length)
      fun at_ value => if (ii ≤ at_ / d.M ∧ at_ / d.M < ii + rows) ∧ jj ≤ at_ % d.M ∧ at_ % d.M < jj + cols then
        (List.range' kk depth).foldl (accumulateNonzero A B d p (at_ / d.M) (indexB d p) (at_ % d.M)) value
        else value := by
  have settled : ∀ k j, k < depth → j < cols → Settles (fetch B (indexB d p (kk + k) (jj + j))) _ _ :=
    fun k j _ _ => settles_fetch B _
  have tail : Cellwise (packedView F shape fun packs =>
        HoldsA A d p ii kk rows depth packs.packA ∧ HoldsB B d p kk jj depth cols packs.packB)
      (fun state => do
        let C ← microKernel state.1.packA state.1.packB (wrap (ii * d.M) + jj) rows depth cols d.M state.2
        pure (state.1, C)) True
      fun at_ value => if (ii ≤ at_ / d.M ∧ at_ / d.M < ii + rows) ∧ jj ≤ at_ % d.M ∧ at_ % d.M < jj + cols then
        (List.range' kk depth).foldl (accumulateNonzero A B d p (at_ / d.M) (indexB d p) (at_ % d.M)) value
        else value := by
    refine ⟨fun _ state good => ?_, fun never => absurd trivial never⟩
    obtain ⟨⟨longA, longB, holdsA, holdsB⟩, shaped⟩ := good
    obtain ⟨after, run, still, filled⟩ :=
      (cellwise_microKernel narrow longA longB holdsA holdsB inRows inCols).ok trivial state.2 shaped
    exact ⟨(state.1, after), by rw [run]; rfl, ⟨⟨longA, longB, holdsA, holdsB⟩, still⟩, filled⟩
  have weaker : ∀ state, (packedView F shape fun packs =>
        HoldsA A d p ii kk rows depth packs.packA ∧ HoldsB B d p kk jj depth cols packs.packB).good state →
      (packedView F shape fun packs => HoldsA A d p ii kk rows depth packs.packA).good state :=
    fun state good => ⟨⟨good.1.1, good.1.2.1, good.1.2.2.1⟩, good.2⟩
  refine (Cellwise.setup ?_ weaker ?_ ?_ tail).congr (and_iff_left trivial) fun _ _ _ => rfl
  · rfl
  · intro here state good
    obtain ⟨packed, run, long, holds⟩ := packBlock_ready shallow slim settled here good.1.2.1
    refine ⟨({ state.1 with packB := packed }, state.2), ?_, ⟨⟨good.1.1, long, good.1.2.2, holds⟩, good.2⟩, rfl⟩
    simp only [packRowsOfB]
    erw [run]
    rfl
  · intro missing state good
    obtain ⟨e, failed⟩ := (cellwise_packBlock shallow slim settled).error missing state.1.packB good.1.2.1
    refine ⟨e, ?_⟩
    simp only [packRowsOfB]
    erw [failed]
    rfl

/-- The block of rows `[ii, ii + kPackTile)` and the tile of `k` at `kk`. -/
theorem cellwise_packedBlock (narrow : Narrow d shape) {hi ii kk : Nat} (rows : hi ≤ d.N) (inRows : ii < hi)
    (inDepth : kk < d.K)
    (rowEnd : tileEnd kPackTile ii hi = min (ii + kPackTile) hi)
    (depthEnd : tileEnd kPackTile kk d.K = min (kk + kPackTile) d.K) :
    Cellwise (packedView F shape fun _ => True) (fun state => do
        let rows := tileEnd kPackTile ii hi - ii
        let depth := tileEnd kPackTile kk d.K - kk
        let state ← packRowsOfA A d p ii kk rows depth state
        forTiles kPackTile 0 d.M (fun jj state => do
          let cols := tileEnd kPackTile jj d.M - jj
          let state ← packRowsOfB B d p kk jj depth cols state
          let C ← microKernel state.1.packA state.1.packB (wrap (ii * d.M) + jj) rows depth cols d.M state.2
          pure (state.1, C)) state)
      ((∀ i, i < min (ii + kPackTile) hi - ii → ∀ k, k < min (kk + kPackTile) d.K - kk →
          indexA d p (ii + i) (kk + k) < A.length) ∧
        d.M ≤ tileLimit ∧ ∀ jj ∈ tiles kPackTile 0 d.M, ∀ k, k < min (kk + kPackTile) d.K - kk →
          ∀ j, j < min (jj + kPackTile) d.M - jj → indexB d p (kk + k) (jj + j) < B.length)
      fun at_ value => (tiles kPackTile 0 d.M).foldl (fun value jj =>
        if (ii ≤ at_ / d.M ∧ at_ / d.M < min (ii + kPackTile) hi) ∧
            jj ≤ at_ % d.M ∧ at_ % d.M < min (jj + kPackTile) d.M then
          (List.range' kk (min (kk + kPackTile) d.K - kk)).foldl
            (accumulateNonzero A B d p (at_ / d.M) (indexB d p) (at_ % d.M)) value
        else value) value := by
  simp only [rowEnd, depthEnd]
  have fewRows : min (ii + kPackTile) hi - ii ≤ kPackTile := by omega
  have shallow : min (kk + kPackTile) d.K - kk ≤ kPackTile := by omega
  have rowsSum : ii + (min (ii + kPackTile) hi - ii) = min (ii + kPackTile) hi := by omega
  have within : ii + (min (ii + kPackTile) hi - ii) ≤ d.N := by omega
  have each : ∀ jj, jj < d.M → tileEnd kPackTile jj d.M = min (jj + kPackTile) d.M →
      Cellwise (packedView F shape fun packs =>
          HoldsA A d p ii kk (min (ii + kPackTile) hi - ii) (min (kk + kPackTile) d.K - kk) packs.packA) (fun state => do
        let cols := tileEnd kPackTile jj d.M - jj
        let state ← packRowsOfB B d p kk jj (min (kk + kPackTile) d.K - kk) cols state
        let C ← microKernel state.1.packA state.1.packB (wrap (ii * d.M) + jj) (min (ii + kPackTile) hi - ii)
          (min (kk + kPackTile) d.K - kk) cols d.M state.2
        pure (state.1, C))
      (∀ k, k < min (kk + kPackTile) d.K - kk → ∀ j, j < min (jj + kPackTile) d.M - jj →
        indexB d p (kk + k) (jj + j) < B.length)
      fun at_ value => if (ii ≤ at_ / d.M ∧ at_ / d.M < min (ii + kPackTile) hi) ∧
          jj ≤ at_ % d.M ∧ at_ % d.M < min (jj + kPackTile) d.M then
        (List.range' kk (min (kk + kPackTile) d.K - kk)).foldl
          (accumulateNonzero A B d p (at_ / d.M) (indexB d p) (at_ % d.M)) value
        else value := by
    intro jj inColumns columnEnd
    have slim : min (jj + kPackTile) d.M - jj ≤ kPackTile := by omega
    have columnsSum : jj + (min (jj + kPackTile) d.M - jj) = min (jj + kPackTile) d.M := by omega
    simp only [columnEnd]
    refine (cellwise_packedColumns narrow within (by omega) shallow slim).congr Iff.rfl fun at_ _ value => ?_
    rw [rowsSum, columnsSum]
  have settled : ∀ i k, i < min (ii + kPackTile) hi - ii → k < min (kk + kPackTile) d.K - kk →
      Settles (fetch A (indexA d p (ii + i) (kk + k))) _ _ := fun i k _ _ => settles_fetch A _
  have weaker : ∀ state, (packedView F shape fun packs =>
        HoldsA A d p ii kk (min (ii + kPackTile) hi - ii) (min (kk + kPackTile) d.K - kk) packs.packA).good state →
      (packedView F shape fun _ => True).good state :=
    fun state good => ⟨⟨good.1.1, good.1.2.1, trivial⟩, good.2⟩
  refine Cellwise.setup ?_ weaker ?_ ?_ (cellwise_forTiles_zero kPackTile_eq each)
  · rfl
  · intro here state good
    obtain ⟨packed, run, long, holds⟩ := packBlock_ready fewRows shallow settled here good.1.1
    refine ⟨({ state.1 with packA := packed }, state.2), ?_, ⟨⟨long, good.1.2.1, holds⟩, good.2⟩, rfl⟩
    simp only [packRowsOfA]
    erw [run]
    rfl
  · intro missing state good
    obtain ⟨e, failed⟩ := (cellwise_packBlock fewRows shallow settled).error missing state.1.packA good.1.1
    refine ⟨e, ?_⟩
    simp only [packRowsOfA]
    erw [failed]
    rfl

/-- Packing reads whole tiles, whatever their elements are. -/
def PackedReady (A B : List F) (d : Dims) (p : GemmParams F) (i : Nat) : Prop :=
  d.K ≤ tileLimit ∧ ∀ k, k < d.K → indexA d p i k < A.length ∧ d.M ≤ tileLimit ∧ ∀ j, j < d.M → indexB d p k j < B.length

omit [Scalar F] in
theorem packedReady_iff {lo hi : Nat} :
    (∀ ii ∈ tiles kPackTile lo hi, d.K ≤ tileLimit ∧ ∀ kk ∈ tiles kPackTile 0 d.K,
      (∀ i, i < min (ii + kPackTile) hi - ii → ∀ k, k < min (kk + kPackTile) d.K - kk →
          indexA d p (ii + i) (kk + k) < A.length) ∧
        d.M ≤ tileLimit ∧ ∀ jj ∈ tiles kPackTile 0 d.M, ∀ k, k < min (kk + kPackTile) d.K - kk →
          ∀ j, j < min (jj + kPackTile) d.M - jj → indexB d p (kk + k) (jj + j) < B.length) ↔
      ∀ i, lo ≤ i → i < hi → PackedReady A B d p i := by
  have positive : 0 < kPackTile := by decide
  constructor
  · intro every i above below
    obtain ⟨ii, rowTile, firstRow, lastRow⟩ := exists_tile positive above below
    refine ⟨(every ii rowTile).1, fun k belowK => ?_⟩
    obtain ⟨kk, depthTile, firstK, lastK⟩ := exists_tile positive (Nat.zero_le k) belowK
    obtain ⟨left, limit, right⟩ := (every ii rowTile).2 kk depthTile
    have leftRead := left (i - ii) (by omega) (k - kk) (by omega)
    rw [Nat.add_sub_of_le firstRow, Nat.add_sub_of_le firstK] at leftRead
    refine ⟨leftRead, limit, fun j belowM => ?_⟩
    obtain ⟨jj, columnTile, firstJ, lastJ⟩ := exists_tile positive (Nat.zero_le j) belowM
    have rightRead := right jj columnTile (k - kk) (by omega) (j - jj) (by omega)
    rwa [Nat.add_sub_of_le firstK, Nat.add_sub_of_le firstJ] at rightRead
  · intro every ii rowTile
    have rows := mem_tiles rowTile
    refine ⟨(every ii rows.1 rows.2).1, fun kk depthTile => ?_⟩
    have depths := mem_tiles depthTile
    refine ⟨fun i belowI k belowK => ?_, ((every ii rows.1 rows.2).2 kk depths.2).2.1,
      fun jj columnTile k belowK j belowJ => ?_⟩
    · exact ((every (ii + i) (by omega) (by omega)).2 (kk + k) (by omega)).1
    · exact ((every ii rows.1 rows.2).2 (kk + k) (by omega)).2.2 (jj + j) (by omega)

theorem cellwise_packed (narrow : Narrow d shape) (packs : Packs F) {lo hi : Nat} (rows : hi ≤ d.N) (room : hi ≤ tileLimit) :
    Cellwise (outView F shape) (accumulatePacked A B d p packs lo hi) (∀ i, lo ≤ i → i < hi → PackedReady A B d p i)
      (OnRows d lo hi fun i j _ => sparseEntry A B d p (indexB d p) i j) := by
  have cleared : Cellwise (outView F shape) (upTo lo hi (clearRow d)) (∀ i, lo ≤ i → i < hi → True)
      (OnRows d lo hi fun _ _ _ => Scalar.zero) :=
    cellwise_rows (fun _ _ _ => Scalar.zero) fun i _ below => cellwise_clearRow narrow (by omega)
  have nest := cellwise_forTiles kPackTile_eq room fun ii (_ : lo ≤ ii) below rowEnd =>
    cellwise_forTiles_zero kPackTile_eq fun kk inDepth depthEnd =>
      @cellwise_packedBlock F _ A B d p shape narrow hi ii kk rows below inDepth rowEnd depthEnd
  let first (C : Tensor F) : Packs F × Tensor F := ({ packA := resize packs.packA, packB := resize packs.packB }, C)
  have enters : ∀ C, (outView F shape).good C → (packedView F shape fun _ => True).good (first C) ∧
      (packedView F shape fun _ => True).cells (first C) = (outView F shape).cells C :=
    fun C shaped => ⟨⟨⟨resize_length _, resize_length _, trivial⟩, shaped⟩, rfl⟩
  have leaves : ∀ state, (packedView F shape fun _ => True).good state → (outView F shape).good state.2 ∧
      (outView F shape).cells state.2 = (packedView F shape fun _ => True).cells state :=
    fun state good => ⟨good.2, rfl⟩
  refine (cleared.seq (nest.hide enters leaves)).congr ?_ fun at_ inside value => ?_
  · rw [packedReady_iff]
    simp
  · have positive : 0 < kPackTile := by decide
    simp only [foldl_tile positive (column_lt narrow inside)]
    rw [Lib.foldl_tiles_hit positive]
    simp only [OnRows, sparseEntry]
    split <;> rfl

end Packed
end Gemm
end FromScratch.Inference
