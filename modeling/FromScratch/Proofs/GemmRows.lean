import FromScratch.Proofs.GemmTiles

/-! One shard of a multiplication: the kernel of the strategy, then the shared
pass. It touches the rows of the shard only, and gives each element a value that
depends on the operands alone. -/

namespace FromScratch.Inference
open Lib (upTo Settles Cellwise View Keeps FailsWith)

namespace Gemm

section Finalize
variable {F : Type} [Scalar F] {d : Dims} {p : GemmParams F} {bias : List F} {shape : List UInt64}

/-- The value before the activation. -/
def biased (d : Dims) (p : GemmParams F) (bias : List F) (i j : Nat) (product : F) : F :=
  let value := Scalar.mul p.alpha product
  if bias.length = d.M then Scalar.add value (Scalar.mul p.beta (bias.getD j Scalar.zero))
  else if bias.length = wrap (d.N * d.M) then Scalar.add value
    (Scalar.mul p.beta (bias.getD (wrap (i * d.M + j)) Scalar.zero))
  else value

/-- What the shared pass makes of an accumulated product. -/
def finish (d : Dims) (p : GemmParams F) (bias : List F) (i j : Nat) (product : F) : F :=
  if p.fuseRelu then Scalar.max Scalar.zero (biased d p bias i j product) else biased d p bias i j product

theorem biased_ok (narrow : Narrow d shape) {i j : Nat} (row : i < d.N) (column : j < d.M) (product : F) :
    addBias d p bias i j (Scalar.mul p.alpha product) = .ok (biased d p bias i j product) := by
  simp only [addBias, biased]
  split
  next perColumn =>
    rw [(settles_fetch bias j).ok (by omega)]
    rfl
  split
  next full =>
    have inside : wrap (i * d.M + j) < bias.length := by
      rw [full, narrow.place row column, wrap_of_lt narrow.small]
      exact place_lt row column
    rw [(settles_fetch bias _).ok inside]
    rfl
  · rfl

theorem cellwise_finalize (narrow : Narrow d shape) {lo hi : Nat} (rows : hi ≤ d.N) :
    Cellwise (outView F shape) (finalize d p bias lo hi) True (OnRows d lo hi (finish d p bias)) := by
  refine (@cellwise_rows F d shape lo hi _ (fun _ => True) (finish d p bias) fun i _ below => ?_).congr (by simp)
    fun _ _ _ => rfl
  refine (@cellwise_row F d shape narrow i _ (fun _ => True) (finish d p bias i) fun j column => ?_).congr (by simp)
    fun _ _ _ => rfl
  have row : i < d.N := by omega
  have place : wrap (i * d.M) + j = i * d.M + j := by rw [narrow.row row]
  refine Cellwise.of_eq (fun C shaped => ?_) (narrow.modify row column place (finish d p bias i j))
  have inside : wrap (i * d.M) + j < C.data.length := by
    change C.shape = shape at shaped
    rw [C.sized, shaped, narrow.size, place]
    exact place_lt row column
  have here := List.getElem?_eq_getElem inside
  rw [← Tensor.modify_const here (finish d p bias i j)]
  have read : fetch C.data (wrap (i * d.M) + j) = .ok C.data[wrap (i * d.M) + j] := by
    rw [fetch, Lib.read, here]
  rw [read]
  change (addBias d p bias i j (Scalar.mul p.alpha C.data[wrap (i * d.M) + j]) >>= _) = _
  rw [biased_ok narrow row column]
  rfl

theorem finalize_inside {lo hi : Nat} {C after : Tensor F} (run : finalize d p bias lo hi C = .ok after) {i j : Nat}
    (above : lo ≤ i) (below : i < hi) (column : j < d.M) : wrap (i * d.M) + j < C.data.length := by
  let element (i j : Nat) (C : Tensor F) : Except Fault (Tensor F) := do
    let crow ← fetch C.data (wrap (i * d.M) + j)
    let value ← addBias d p bias i j (Scalar.mul p.alpha crow)
    store C (wrap (i * d.M) + j) (if p.fuseRelu then Scalar.max Scalar.zero value else value)
  have stores : ∀ i j before next, element i j before = .ok next →
      next.shape = before.shape ∧ wrap (i * d.M) + j < before.data.length := by
    intro i j before next ran
    obtain ⟨crow, _, ran⟩ := Lib.bind_ok ran
    obtain ⟨value, _, ran⟩ := Lib.bind_ok ran
    exact Tensor.modify_shape ran
  have keeps : ∀ i j, Keeps (fun C' : Tensor F => C'.shape = C.shape) (element i j) :=
    fun i j before next same ran => (stores i j before next ran).1.trans same
  obtain ⟨row, _, same, ran⟩ := Keeps.each_round (fun i => Keeps.upTo (keeps i)) rfl run above below
  obtain ⟨before, next, same, ran⟩ := Keeps.each_round (keeps i) same ran (Nat.zero_le j) column
  have inside := (stores i j before next ran).2
  rwa [before.sized, same, ← C.sized] at inside

theorem finalize_shape (lo hi : Nat) (shape : List UInt64) :
    Keeps (fun C : Tensor F => C.shape = shape) (finalize d p bias lo hi) := by
  refine Keeps.upTo fun i => Keeps.upTo fun j before next same ran => ?_
  obtain ⟨crow, _, ran⟩ := Lib.bind_ok ran
  obtain ⟨value, _, ran⟩ := Lib.bind_ok ran
  exact (Tensor.modify_shape ran).1.trans same

end Finalize

section Shapes
variable {F : Type} [Scalar F] {A B : List F} {d : Dims} {p : GemmParams F} {shape : List UInt64}

omit [Scalar F] in
theorem keeps_modify (index : Nat) (change : F → F) :
    Keeps (fun C : Tensor F => C.shape = shape) fun C => C.modify index change :=
  fun _ _ same ran => (Tensor.modify_shape ran).1.trans same

theorem keeps_clearRow (i : Nat) : Keeps (fun C : Tensor F => C.shape = shape) (clearRow d i) :=
  Keeps.upTo fun _ => keeps_modify _ _

theorem keeps_unlessZero (a : F) {body : Tensor F → Except Fault (Tensor F)}
    (keeps : Keeps (fun C : Tensor F => C.shape = shape) body) :
    Keeps (fun C : Tensor F => C.shape = shape) fun C => if Scalar.isZero a then .ok C else body C := by
  intro before after same ran
  simp only at ran
  split at ran
  · cases ran
    exact same
  · exact keeps before after same ran

theorem keeps_addRow (i k jj jMax : Nat) : Keeps (fun C : Tensor F => C.shape = shape) (addRow A B d p i k jj jMax) :=
  Keeps.before fun a => keeps_unlessZero a (Keeps.upTo fun _ => Keeps.before fun _ => keeps_modify _ _)

theorem keeps_naive (lo hi : Nat) : Keeps (fun C : Tensor F => C.shape = shape) (accumulateNaive A B d p lo hi) :=
  Keeps.upTo fun _ => Keeps.upTo fun _ => Keeps.before fun _ => keeps_modify _ _

theorem keeps_dot (lo hi : Nat) : Keeps (fun C : Tensor F => C.shape = shape) (accumulateDotContiguous A B d lo hi) :=
  Keeps.upTo fun _ => Keeps.upTo fun _ => Keeps.before fun _ => Keeps.before fun _ => keeps_modify _ _

theorem keeps_reordered (lo hi : Nat) : Keeps (fun C : Tensor F => C.shape = shape) (accumulateReordered A B d p lo hi) := by
  rw [accumulateReordered]
  split
  · exact keeps_dot lo hi
  · exact Keeps.upTo fun i => (keeps_clearRow i).seq (Keeps.upTo fun k => keeps_addRow i k 0 d.M)

theorem keeps_forTiles {σ : Type} {good : σ → Prop} {tile lo hi : Nat} {body : Nat → σ → Except Fault σ}
    (each : ∀ x, Keeps good (body x)) : Keeps good (forTiles tile lo hi body) := Keeps.stepping each _ _

theorem keeps_tiled (lo hi : Nat) : Keeps (fun C : Tensor F => C.shape = shape) (accumulateTiled A B d p lo hi) :=
  (Keeps.upTo fun i => keeps_clearRow i).seq (keeps_forTiles fun _ => keeps_forTiles fun _ => keeps_forTiles fun jj =>
    Keeps.upTo fun i => Keeps.upTo fun k => keeps_addRow i k jj _)

theorem keeps_microKernel (packA packB : List F) (start rows depth cols ldc : Nat) :
    Keeps (fun C : Tensor F => C.shape = shape) (microKernel packA packB start rows depth cols ldc) :=
  Keeps.upTo fun _ => Keeps.upTo fun _ => Keeps.before fun a => keeps_unlessZero a (Keeps.upTo fun _ =>
    Keeps.before fun _ => keeps_modify _ _)

theorem keeps_packed (packs : Packs F) (lo hi : Nat) :
    Keeps (fun C : Tensor F => C.shape = shape) (accumulatePacked A B d p packs lo hi) := by
  have packA : ∀ ii kk rows depth, Keeps (fun state : Packs F × Tensor F => state.2.shape = shape)
      (packRowsOfA A d p ii kk rows depth) := by
    intro ii kk rows depth before after same ran
    obtain ⟨_, _, ran⟩ := Lib.bind_ok ran
    cases ran
    exact same
  have packB : ∀ kk jj depth cols, Keeps (fun state : Packs F × Tensor F => state.2.shape = shape)
      (packRowsOfB B d p kk jj depth cols) := by
    intro kk jj depth cols before after same ran
    obtain ⟨_, _, ran⟩ := Lib.bind_ok ran
    cases ran
    exact same
  have multiply : ∀ start rows depth cols, Keeps (fun state : Packs F × Tensor F => state.2.shape = shape) (fun state => do
      let C ← microKernel state.1.packA state.1.packB start rows depth cols d.M state.2
      pure (state.1, C)) := by
    intro start rows depth cols before after same ran
    obtain ⟨C, multiplied, ran⟩ := Lib.bind_ok ran
    cases ran
    exact keeps_microKernel _ _ start rows depth cols d.M before.2 C same multiplied
  have block : ∀ ii kk, Keeps (fun state : Packs F × Tensor F => state.2.shape = shape) (fun state => do
      let rows := tileEnd kPackTile ii hi - ii
      let depth := tileEnd kPackTile kk d.K - kk
      let state ← packRowsOfA A d p ii kk rows depth state
      forTiles kPackTile 0 d.M (fun jj state => do
        let cols := tileEnd kPackTile jj d.M - jj
        let state ← packRowsOfB B d p kk jj depth cols state
        let C ← microKernel state.1.packA state.1.packB (wrap (ii * d.M) + jj) rows depth cols d.M state.2
        pure (state.1, C)) state) := by
    intro ii kk before after same ran
    obtain ⟨packed, first, ran⟩ := Lib.bind_ok ran
    have columns := @keeps_forTiles _ _ kPackTile 0 d.M _ fun jj =>
      (packB kk jj (tileEnd kPackTile kk d.K - kk) (tileEnd kPackTile jj d.M - jj)).seq
        (multiply (wrap (ii * d.M) + jj) (tileEnd kPackTile ii hi - ii) (tileEnd kPackTile kk d.K - kk)
          (tileEnd kPackTile jj d.M - jj))
    exact columns packed after (packA ii kk _ _ before packed same first) ran
  intro before after same ran
  obtain ⟨cleared, first, ran⟩ := Lib.bind_ok ran
  have still := Keeps.upTo (fun i => keeps_clearRow i) before cleared same first
  obtain ⟨state, walked, last⟩ := Lib.bind_ok ran
  cases last
  exact keeps_forTiles (fun ii => keeps_forTiles (block ii)) (_, cleared) state still walked

end Shapes

/-- A computation that throws no exception. -/
abbrev Silent {α : Type} (run : Except Fault α) : Prop := FailsWith (fun fault => ¬fault.Thrown) run

section Faults
variable {F : Type} [Scalar F] {A B : List F} {d : Dims} {p : GemmParams F}

omit [Scalar F] in
theorem silent_fetch (buffer : List F) (index : Nat) : Silent (fetch buffer index) := by
  rw [fetch, Lib.read]
  split
  · exact FailsWith.ok _
  · exact FailsWith.error id

omit [Scalar F] in
theorem silent_modify (C : Tensor F) (index : Nat) (change : F → F) : Silent (C.modify index change) := by
  rcases Nat.lt_or_ge index C.data.length with inside | outside
  · obtain ⟨after, changed, _⟩ := Tensor.modify_of_lt inside change
    rw [changed]
    exact FailsWith.ok after
  · rw [Tensor.modify_of_le outside]
    exact FailsWith.error id

theorem silent_forTiles {σ : Type} {tile lo hi : Nat} {body : Nat → σ → Except Fault σ}
    (each : ∀ x state, Silent (body x state)) (state : σ) : Silent (forTiles tile lo hi body state) :=
  FailsWith.stepping id each _ lo state

theorem silent_clearRow (i : Nat) (C : Tensor F) : Silent (clearRow d i C) :=
  FailsWith.upTo (fun _ C => silent_modify C _ _) C

theorem silent_unlessZero (a : F) {body : Tensor F → Except Fault (Tensor F)} (silent : ∀ C, Silent (body C))
    (C : Tensor F) :
    Silent (if Scalar.isZero a then .ok C else body C) := by
  split
  · exact FailsWith.ok C
  · exact silent C

theorem silent_addRow (i k jj jMax : Nat) (C : Tensor F) : Silent (addRow A B d p i k jj jMax C) :=
  (silent_fetch A _).bind fun a _ => silent_unlessZero a (FailsWith.upTo fun _ C =>
    (silent_fetch B _).bind fun _ _ => silent_modify C _ _) C

theorem silent_product (first second : Nat) (acc : F) : Silent (do
    let a ← fetch A first
    let b ← fetch B second
    pure (Scalar.add acc (Scalar.mul a b))) :=
  (silent_fetch A first).bind fun _ _ => (silent_fetch B second).bind fun _ _ => FailsWith.ok _

theorem silent_naive (lo hi : Nat) (C : Tensor F) : Silent (accumulateNaive A B d p lo hi C) :=
  FailsWith.upTo (fun _ C => FailsWith.upTo (fun _ C =>
    (FailsWith.upTo (fun _ acc => silent_product _ _ acc) _).bind fun _ _ => silent_modify C _ _) C) C

theorem silent_dot (lo hi : Nat) (C : Tensor F) : Silent (accumulateDotContiguous A B d lo hi C) := by
  have step : ∀ arow brow k acc, Silent (dotStep A B arow brow k acc) := fun arow brow k acc => silent_product _ _ acc
  refine FailsWith.upTo (fun _ C => FailsWith.upTo (fun _ C => ?_) C) C
  refine (FailsWith.upTo (fun quarter acc => ?_) _).bind fun lanes _ =>
    (FailsWith.upTo (fun k acc => step _ _ k acc) _).bind fun _ _ => silent_modify C _ _
  exact (step _ _ _ _).bind fun _ _ => (step _ _ _ _).bind fun _ _ => (step _ _ _ _).bind fun _ _ =>
    (step _ _ _ _).bind fun _ _ => FailsWith.ok _

theorem silent_reordered (lo hi : Nat) (C : Tensor F) : Silent (accumulateReordered A B d p lo hi C) := by
  rw [accumulateReordered]
  split
  · exact silent_dot lo hi C
  · exact FailsWith.upTo (fun i C => (silent_clearRow i C).bind fun C _ =>
      FailsWith.upTo (fun k C => silent_addRow i k 0 d.M C) C) C

theorem silent_tiled (lo hi : Nat) (C : Tensor F) : Silent (accumulateTiled A B d p lo hi C) := by
  have tile : ∀ ii kk jj C, Silent (upTo ii (tileEnd kTile ii hi) (fun i => upTo kk (tileEnd kTile kk d.K) fun k =>
      addRow A B d p i k jj (tileEnd kTile jj d.M)) C) :=
    fun ii kk jj C => FailsWith.upTo (fun i C => FailsWith.upTo (fun k C => silent_addRow i k jj _ C) C) C
  refine (FailsWith.upTo silent_clearRow C).bind fun C _ => ?_
  refine silent_forTiles ?_ C
  intro ii C
  refine silent_forTiles ?_ C
  intro kk C
  exact silent_forTiles (tile ii kk) C

omit [Scalar F] in
theorem silent_packBlock (rows cols : Nat) {element : Nat → Nat → Except Fault F} (silent : ∀ i j, Silent (element i j))
    (pack : List F) : Silent (packBlock rows cols element pack) := by
  refine FailsWith.upTo (fun i pack => FailsWith.upTo (fun j pack => (silent i j).bind fun value _ => ?_) pack) pack
  rw [storePack]
  split
  · exact FailsWith.ok _
  · exact FailsWith.error id

theorem silent_microKernel (packA packB : List F) (start rows depth cols ldc : Nat) (C : Tensor F) :
    Silent (microKernel packA packB start rows depth cols ldc C) :=
  FailsWith.upTo (fun _ C => FailsWith.upTo (fun _ C => (silent_fetch packA _).bind fun a _ =>
    silent_unlessZero a (FailsWith.upTo fun _ C => (silent_fetch packB _).bind fun _ _ => silent_modify C _ _) C) C) C

theorem silent_packed (packs : Packs F) (lo hi : Nat) (C : Tensor F) : Silent (accumulatePacked A B d p packs lo hi C) := by
  have packA : ∀ ii kk rows depth state, Silent (packRowsOfA A d p ii kk rows depth state) := fun ii kk rows depth state =>
    (silent_packBlock rows depth (fun _ _ => silent_fetch A _) _).bind fun _ _ => FailsWith.ok _
  have packB : ∀ kk jj depth cols state, Silent (packRowsOfB B d p kk jj depth cols state) := fun kk jj depth cols state =>
    (silent_packBlock depth cols (fun _ _ => silent_fetch B _) _).bind fun _ _ => FailsWith.ok _
  refine (FailsWith.upTo silent_clearRow C).bind fun C _ => ?_
  refine FailsWith.bind (silent_forTiles ?_ _) fun _ _ => FailsWith.ok _
  intro ii state
  refine silent_forTiles ?_ state
  intro kk state
  refine (packA _ _ _ _ _).bind fun state _ => ?_
  refine silent_forTiles ?_ state
  intro jj state
  exact (packB _ _ _ _ _).bind fun state _ => (silent_microKernel _ _ _ _ _ _ _ _).bind fun _ _ => FailsWith.ok _

theorem silent_finalize (bias : List F) (lo hi : Nat) (C : Tensor F) : Silent (finalize d p bias lo hi C) := by
  have adds : ∀ i j value, Silent (addBias d p bias i j value) := by
    intro i j value
    rw [addBias]
    split
    · exact (silent_fetch bias _).bind fun _ _ => FailsWith.ok _
    · split
      · exact (silent_fetch bias _).bind fun _ _ => FailsWith.ok _
      · exact FailsWith.ok _
  exact FailsWith.upTo (fun i C => FailsWith.upTo (fun j C => (silent_fetch C.data _).bind fun crow _ =>
    (adds i j _).bind fun value _ => silent_modify C _ _) C) C

end Faults

section Rows
variable {F : Type} [Scalar F]

/-- The kernels that walk tiles of rows. -/
def Blocked (strategy : GemmStrategy) : Prop := strategy = .tiled ∨ strategy = .packed

def RowReady (strategy : GemmStrategy) (A B : List F) (d : Dims) (p : GemmParams F) (i : Nat) : Prop :=
  match strategy with
  | .naive => NaiveReady A B d p i
  | .reordered => if p.transB && !p.transA then DotReady A B d i else SparseReady A B d p i
  | .tiled => TiledReady A B d p i
  | .packed => PackedReady A B d p i
  | .auto => True

/-- The product a strategy accumulates for one element. -/
def entry (strategy : GemmStrategy) (A B : List F) (d : Dims) (p : GemmParams F) (i j : Nat) : F :=
  match strategy with
  | .naive => naiveEntry A B d p i j
  | .reordered => if p.transB && !p.transA then dotEntry A B d i j else sparseEntry A B d p (indexRowB d p) i j
  | .tiled => sparseEntry A B d p (indexRowB d p) i j
  | .packed => sparseEntry A B d p (indexB d p) i j
  | .auto => Scalar.zero

variable {A B bias : List F} {d : Dims} {p : GemmParams F} {shape : List UInt64} {strategy : GemmStrategy}
  (packs : Shard → Packs F) {lo hi : Nat}

theorem cellwise_reordered (narrow : Narrow d shape) (rows : hi ≤ d.N) :
    Cellwise (outView F shape) (accumulateReordered A B d p lo hi)
      (∀ i, lo ≤ i → i < hi → RowReady .reordered A B d p i)
      (OnRows d lo hi fun i j _ => entry .reordered A B d p i j) := by
  by_cases contiguous : (p.transB && !p.transA) = true
  · simp only [accumulateReordered, RowReady, entry, contiguous, if_true]
    exact cellwise_dot narrow rows
  · simp only [accumulateReordered, RowReady, entry, contiguous, Bool.false_eq_true, if_false]
    exact cellwise_sparse narrow rows

/-- What a shard does before the shared pass. -/
def kernel (strategy : GemmStrategy) (A B : List F) (d : Dims) (p : GemmParams F) (packs : Packs F) (lo hi : Nat)
    (C : Tensor F) : Except Fault (Tensor F) :=
  match strategy with
  | .naive => accumulateNaive A B d p lo hi C
  | .reordered => accumulateReordered A B d p lo hi C
  | .tiled => accumulateTiled A B d p lo hi C
  | .packed => accumulatePacked A B d p packs lo hi C
  | .auto => .ok C

theorem runRows_eq : runRows A B bias d p strategy packs (lo, hi) =
    fun C => kernel strategy A B d p (packs (lo, hi)) lo hi C >>= finalize d p bias lo hi := by
  cases strategy <;> rfl

theorem cellwise_kernel (narrow : Narrow d shape) (chosen : strategy ≠ .auto) (rows : hi ≤ d.N)
    (room : Blocked strategy → hi ≤ tileLimit) (packs : Packs F) :
    Cellwise (outView F shape) (kernel strategy A B d p packs lo hi) (∀ i, lo ≤ i → i < hi → RowReady strategy A B d p i)
      (OnRows d lo hi fun i j _ => entry strategy A B d p i j) := by
  cases strategy with
  | naive => exact cellwise_naive narrow rows
  | reordered => exact cellwise_reordered narrow rows
  | tiled => exact cellwise_tiled narrow rows (room (Or.inl rfl))
  | packed => exact cellwise_packed narrow packs rows (room (Or.inr rfl))
  | auto => exact absurd rfl chosen

theorem cellwise_runRows (narrow : Narrow d shape) (chosen : strategy ≠ .auto) (rows : hi ≤ d.N)
    (room : Blocked strategy → hi ≤ tileLimit) :
    Cellwise (outView F shape) (runRows A B bias d p strategy packs (lo, hi))
      (∀ i, lo ≤ i → i < hi → RowReady strategy A B d p i)
      (OnRows d lo hi fun i j _ => finish d p bias i j (entry strategy A B d p i j)) := by
  rw [runRows_eq]
  refine ((cellwise_kernel narrow chosen rows room (packs (lo, hi))).seq (cellwise_finalize narrow rows)).congr
    (and_iff_left trivial) fun at_ _ value => ?_
  simp only [OnRows]
  split <;> rfl

theorem keeps_kernel (packs : Packs F) :
    Keeps (fun C : Tensor F => C.shape = shape) (kernel strategy A B d p packs lo hi) := by
  cases strategy with
  | naive => exact keeps_naive lo hi
  | reordered => exact keeps_reordered lo hi
  | tiled => exact keeps_tiled lo hi
  | packed => exact keeps_packed packs lo hi
  | auto => exact Keeps.skip

theorem runRows_shape : Keeps (fun C : Tensor F => C.shape = shape) (runRows A B bias d p strategy packs (lo, hi)) := by
  rw [runRows_eq]
  exact (keeps_kernel _).seq (finalize_shape lo hi shape)

/-- A shard that returns has found every element of its rows inside the buffer. -/
theorem runRows_inside {C after : Tensor F} (run : runRows A B bias d p strategy packs (lo, hi) C = .ok after)
    {i j : Nat} (above : lo ≤ i) (below : i < hi) (column : j < d.M) : wrap (i * d.M) + j < C.data.length := by
  rw [runRows_eq] at run
  obtain ⟨middle, accumulated, finalized⟩ := Lib.bind_ok run
  have same : middle.shape = C.shape := keeps_kernel _ C middle rfl accumulated
  have inside := finalize_inside finalized above below column
  rwa [middle.sized, same, ← C.sized] at inside

theorem silent_runRows (bias : List F) (packs : Shard → Packs F) (rows : Shard) (C : Tensor F) :
    Silent (runRows A B bias d p strategy packs rows C) := by
  obtain ⟨lo, hi⟩ := rows
  rw [runRows_eq]
  refine FailsWith.bind ?_ fun C _ => silent_finalize bias lo hi C
  cases strategy with
  | naive => exact silent_naive lo hi C
  | reordered => exact silent_reordered lo hi C
  | tiled => exact silent_tiled lo hi C
  | packed => exact silent_packed (packs (lo, hi)) lo hi C
  | auto => exact FailsWith.ok C

/-- Past the limit the loop over the tiles of rows does not end. -/
theorem runRows_endless (blocked : Blocked strategy) (far : tileLimit < hi) (C : Tensor F) :
    ∃ e, runRows A B bias d p strategy packs (0, hi) C = .error e := by
  cases run : runRows A B bias d p strategy packs (0, hi) C with
  | error e => exact ⟨e, rfl⟩
  | ok after =>
    rw [runRows_eq] at run
    obtain ⟨middle, accumulated, _⟩ := Lib.bind_ok run
    rcases blocked with rfl | rfl
    · obtain ⟨cleared, _, walked⟩ := Lib.bind_ok accumulated
      obtain ⟨e, never⟩ := forTiles_endless kTile_eq far cleared
      cases never.symm.trans walked
    · obtain ⟨cleared, _, rest⟩ := Lib.bind_ok accumulated
      obtain ⟨state, walked, _⟩ := Lib.bind_ok rest
      obtain ⟨e, never⟩ := forTiles_endless kPackTile_eq far (_, cleared)
      cases never.symm.trans walked

end Rows
end Gemm
end FromScratch.Inference
