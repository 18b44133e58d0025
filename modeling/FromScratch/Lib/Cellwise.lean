import FromScratch.Lib.Loop

/-! Computations whose failure and effect do not depend on what a buffer holds:
`Settles` gives the outcome of an expression, `Cellwise` what a statement does to
every cell of the buffer by itself. Loops compose cell by cell, so a loop nest
is understood by what one fixed cell goes through. -/

namespace FromScratch.Lib

variable {σ ε α β F : Type}

structure Settles (run : Except ε α) (ready : Prop) (value : α) : Prop where
  ok : ready → run = .ok value
  error : ¬ready → ∃ e, run = .error e

namespace Settles

theorem pure (value : α) : Settles (.ok value : Except ε α) True value := ⟨fun _ => rfl, fun never => absurd trivial never⟩

theorem bind {run : Except ε α} {next : α → Except ε β} {ready later : Prop} {value : α} {result : β}
    (head : Settles run ready value) (tail : Settles (next value) later result) :
    Settles (run >>= next) (ready ∧ later) result where
  ok both := by
    rw [head.ok both.1]
    exact tail.ok both.2
  error never := by
    by_cases first : ready
    · rw [head.ok first]
      exact tail.error fun second => never ⟨first, second⟩
    · obtain ⟨e, failed⟩ := head.error first
      exact ⟨e, by rw [failed]; rfl⟩

theorem mono {run : Except ε α} {ready same : Prop} {value : α} (settles : Settles run ready value) (iff : ready ↔ same) :
    Settles run same value :=
  ⟨fun holds => settles.ok (iff.mpr holds), fun fails => settles.error fun holds => fails (iff.mp holds)⟩

theorem foldlM {body : β → σ → Except ε σ} {ready : β → Prop} {next : β → σ → σ} {items : List β}
    (each : ∀ item ∈ items, ∀ state, Settles (body item state) (ready item) (next item state)) (state : σ) :
    Settles (items.foldlM (fun state item => body item state) state) (∀ item ∈ items, ready item)
      (items.foldl (fun state item => next item state) state) := by
  induction items generalizing state with
  | nil => exact (pure state).mono (iff_of_true trivial nofun)
  | cons item items ih =>
    rw [List.foldlM_cons, List.foldl_cons]
    refine ((each item List.mem_cons_self state).bind (ih ?_ _)).mono List.forall_mem_cons.symm
    exact fun other member => each other (List.mem_cons_of_mem _ member)

theorem upTo {lo hi : Nat} {body : Nat → σ → Except ε σ} {ready : Nat → Prop} {next : Nat → σ → σ}
    (each : ∀ x, lo ≤ x → x < hi → ∀ state, Settles (body x state) (ready x) (next x state)) (state : σ) :
    Settles (upTo lo hi body state) (∀ x, lo ≤ x → x < hi → ready x)
      ((List.range' lo (hi - lo)).foldl (fun state x => next x state) state) := by
  have bounds : ∀ x, x ∈ List.range' lo (hi - lo) ↔ lo ≤ x ∧ x < hi := by
    intro x
    rw [List.mem_range'_1]
    omega
  refine (foldlM (fun x member => each x ((bounds x).mp member).1 ((bounds x).mp member).2) state).mono ?_
  simp only [bounds, and_imp]

end Settles

/-- `buffer[index]`. -/
def read (fault : ε) (buffer : List F) (index : Nat) : Except ε F :=
  match buffer[index]? with
  | some value => .ok value
  | none => .error fault

theorem settles_read (fault : ε) (buffer : List F) (index : Nat) (default : F) :
    Settles (read fault buffer index) (index < buffer.length) (buffer.getD index default) where
  ok inside := by
    simp [read, inside]
  error outside := by
    rw [read, List.getElem?_eq_none (by omega)]
    exact ⟨fault, rfl⟩

/-- The buffer in a state, its size, and the states that are meant. -/
structure View (σ F : Type) where
  cells : σ → List F
  good : σ → Prop
  size : Nat
  length : ∀ state, good state → (cells state).length = size

structure Cellwise (view : View σ F) (body : σ → Except ε σ) (ready : Prop) (act : Nat → F → F) : Prop where
  ok : ready → ∀ state, view.good state →
    ∃ after, body state = .ok after ∧ view.good after ∧ view.cells after = (view.cells state).mapIdx act
  error : ¬ready → ∀ state, view.good state → ∃ e, body state = .error e

namespace Cellwise
variable {view : View σ F} {body first second : σ → Except ε σ} {ready same : Prop} {act : Nat → F → F}

private theorem mapIdx_id (cells : List F) : (cells.mapIdx fun _ value => value) = cells := by
  apply List.ext_getElem?
  intro index
  rw [List.getElem?_mapIdx, Option.map_id']

theorem skip (view : View σ F) : Cellwise view (.ok : σ → Except ε σ) True fun _ value => value where
  ok _ state good := ⟨state, rfl, good, (mapIdx_id _).symm⟩
  error never := absurd trivial never

theorem congr {other : Nat → F → F} (cellwise : Cellwise view body ready act) (iff : ready ↔ same)
    (acts : ∀ index < view.size, ∀ value, act index value = other index value) : Cellwise view body same other where
  ok holds state good := by
    obtain ⟨after, run, still, cells⟩ := cellwise.ok (iff.mpr holds) state good
    refine ⟨after, run, still, cells.trans ?_⟩
    apply List.mapIdx_eq_mapIdx_iff.mpr
    intro index inside
    rw [view.length state good] at inside
    exact acts index inside _
  error fails := cellwise.error fun holds => fails (iff.mp holds)

theorem of_eq (equal : ∀ state, view.good state → first state = second state) (cellwise : Cellwise view second ready act) :
    Cellwise view first ready act where
  ok holds state good := by
    rw [equal state good]
    exact cellwise.ok holds state good
  error fails state good := by
    rw [equal state good]
    exact cellwise.error fails state good

theorem seq {later : Prop} {then_ : Nat → F → F} (head : Cellwise view first ready act)
    (tail : Cellwise view second later then_) :
    Cellwise view (fun state => first state >>= second) (ready ∧ later) fun index value =>
      then_ index (act index value) where
  ok both state good := by
    obtain ⟨middle, run, still, cells⟩ := head.ok both.1 state good
    obtain ⟨after, ran, finally_, filled⟩ := tail.ok both.2 middle still
    refine ⟨after, by rw [run]; exact ran, finally_, ?_⟩
    rw [filled, cells, List.mapIdx_mapIdx]
    rfl
  error never state good := by
    by_cases started : ready
    · obtain ⟨middle, run, still, _⟩ := head.ok started state good
      rw [run]
      exact tail.error (fun ended => never ⟨started, ended⟩) middle still
    · obtain ⟨e, failed⟩ := head.error started state good
      exact ⟨e, by rw [failed]; rfl⟩

/-- An expression that does not look at the buffer is evaluated first. -/
theorem before {run : Except ε α} {next : α → σ → Except ε σ} {value : α} {later : Prop}
    (settles : Settles run ready value) (tail : Cellwise view (next value) later act) :
    Cellwise view (fun state => run >>= fun found => next found state) (ready ∧ later) act where
  ok both state good := by
    rw [settles.ok both.1]
    exact tail.ok both.2 state good
  error never state good := by
    by_cases started : ready
    · rw [settles.ok started]
      exact tail.error (fun ended => never ⟨started, ended⟩) state good
    · obtain ⟨e, failed⟩ := settles.error started
      exact ⟨e, by rw [failed]; rfl⟩

theorem ite {choice : Prop} [Decidable choice] {other : Prop} {acts : Nat → F → F}
    (yes : choice → Cellwise view first ready act) (no : ¬choice → Cellwise view second other acts) :
    Cellwise view (fun state => if choice then first state else second state) ((choice → ready) ∧ (¬choice → other))
      fun index value => if choice then act index value else acts index value := by
  by_cases chosen : choice
  · simp only [if_pos chosen]
    exact (yes chosen).congr (by simp [chosen]) fun _ _ _ => rfl
  · simp only [if_neg chosen]
    exact (no chosen).congr (by simp [chosen]) fun _ _ _ => rfl

theorem foldlM {body : β → σ → Except ε σ} {ready : β → Prop} {act : β → Nat → F → F} {items : List β}
    (each : ∀ item ∈ items, Cellwise view (body item) (ready item) (act item)) :
    Cellwise view (fun state => items.foldlM (fun state item => body item state) state) (∀ item ∈ items, ready item)
      fun index value => items.foldl (fun value item => act item index value) value := by
  induction items with
  | nil => exact (skip view).congr (iff_of_true trivial nofun) fun _ _ _ => rfl
  | cons item items ih =>
    simp only [List.foldlM_cons, List.foldl_cons]
    have rest := ih fun other member => each other (List.mem_cons_of_mem _ member)
    exact ((each item List.mem_cons_self).seq rest).congr List.forall_mem_cons.symm fun _ _ _ => rfl

theorem upTo {lo hi : Nat} {body : Nat → σ → Except ε σ} {ready : Nat → Prop} {act : Nat → Nat → F → F}
    (each : ∀ x, lo ≤ x → x < hi → Cellwise view (body x) (ready x) (act x)) :
    Cellwise view (upTo lo hi body) (∀ x, lo ≤ x → x < hi → ready x)
      fun index value => (List.range' lo (hi - lo)).foldl (fun value x => act x index value) value := by
  have bounds : ∀ x, x ∈ List.range' lo (hi - lo) ↔ lo ≤ x ∧ x < hi := by
    intro x
    rw [List.mem_range'_1]
    omega
  refine (foldlM fun x member => each x ((bounds x).mp member).1 ((bounds x).mp member).2).congr ?_ fun _ _ _ => rfl
  simp only [bounds, and_imp]

/-- A first step that leaves the buffer alone and establishes more about the rest
of the state. -/
theorem setup {inner : View σ F} (cells : inner.cells = view.cells) (weaker : ∀ state, inner.good state → view.good state)
    {later : Prop} (prepared : ready → ∀ state, view.good state →
      ∃ middle, first state = .ok middle ∧ inner.good middle ∧ inner.cells middle = inner.cells state)
    (refused : ¬ready → ∀ state, view.good state → ∃ e, first state = .error e)
    (tail : Cellwise inner second later act) :
    Cellwise view (fun state => first state >>= second) (ready ∧ later) act where
  ok both state good := by
    obtain ⟨middle, run, holds, same⟩ := prepared both.1 state good
    obtain ⟨after, ran, still, filled⟩ := tail.ok both.2 middle holds
    refine ⟨after, by rw [run]; exact ran, weaker after still, ?_⟩
    rw [← cells, filled, same]
  error never state good := by
    by_cases started : ready
    · obtain ⟨middle, run, holds, _⟩ := prepared started state good
      rw [run]
      exact tail.error (fun ended => never ⟨started, ended⟩) middle holds
    · obtain ⟨e, failed⟩ := refused started state good
      exact ⟨e, by rw [failed]; rfl⟩

/-- State that only the body sees. -/
theorem hide {τ : Type} {outer : View τ F} {inject : τ → σ} {project : σ → τ}
    (enters : ∀ state, outer.good state → view.good (inject state) ∧ view.cells (inject state) = outer.cells state)
    (leaves : ∀ state, view.good state → outer.good (project state) ∧ outer.cells (project state) = view.cells state)
    (cellwise : Cellwise view body ready act) :
    Cellwise outer (fun state => body (inject state) >>= fun after => .ok (project after)) ready act where
  ok holds state good := by
    obtain ⟨entered, same⟩ := enters state good
    obtain ⟨after, run, still, filled⟩ := cellwise.ok holds (inject state) entered
    obtain ⟨left, kept⟩ := leaves after still
    exact ⟨project after, by rw [run]; rfl, left, by rw [kept, filled, same]⟩
  error fails state good := by
    obtain ⟨e, failed⟩ := cellwise.error fails (inject state) (enters state good).1
    exact ⟨e, by rw [failed]; rfl⟩

end Cellwise

section Folds
variable {A : Type}

/-- An item that does nothing is as good as none. -/
theorem foldl_guard (applies : Prop) [Decidable applies] (step : A → β → A) (items : List β) (value : A) :
    items.foldl (fun value item => if applies then step value item else value) value =
      if applies then items.foldl step value else value := by
  by_cases holds : applies
  · simp only [if_pos holds]
  · simp only [if_neg holds]
    exact List.foldl_fixed items

/-- Of a range, the item that is the target applies, if it applies at all. -/
theorem foldl_range_cell (applies : Prop) [Decidable applies] (step : Nat → A → A) (lo count target : Nat) (value : A) :
    (List.range' lo count).foldl (fun value x => if target = x ∧ applies then step x value else value) value =
      if (lo ≤ target ∧ target < lo + count) ∧ applies then step target value else value := by
  induction count generalizing lo value with
  | zero =>
    rw [if_neg (by omega)]
    rfl
  | succ count ih =>
    rw [List.range'_succ, List.foldl_cons, ih]
    by_cases here : target = lo ∧ applies
    · obtain ⟨rfl, holds⟩ := here
      have past : ¬((target + 1 ≤ target ∧ target < target + 1 + count) ∧ applies) := by omega
      have first : target = target ∧ applies := ⟨rfl, holds⟩
      rw [if_neg past, if_pos first, if_pos ⟨by omega, holds⟩]
    · rw [if_neg here]
      have same : ((lo + 1 ≤ target ∧ target < lo + 1 + count) ∧ applies) ↔
          ((lo ≤ target ∧ target < lo + (count + 1)) ∧ applies) := by
        constructor
        · exact fun both => ⟨by omega, both.2⟩
        · exact fun both => ⟨by have other : target ≠ lo := fun same => here ⟨same, both.2⟩; omega, both.2⟩
      simp only [same]

theorem foldl_range_shift (step : A → Nat → A) (base count : Nat) (value : A) :
    (List.range' 0 count).foldl (fun value x => step value (base + x)) value =
    (List.range' base count).foldl step value := by
  have shifted : (List.range' 0 count).map (base + ·) = List.range' base count := by
    rw [List.map_add_range', Nat.add_zero]
  rw [← shifted, List.foldl_map]

/-- Of the tiles of a range, the one that holds the target applies. -/
theorem foldl_tiles_hit {step lo hi : Nat} (positive : 0 < step) (apply : A → A) (target : Nat) (value : A) :
    (tiles step lo hi).foldl (fun value x => if x ≤ target ∧ target < min (x + step) hi then apply value else value) value =
      if lo ≤ target ∧ target < hi then apply value else value := by
  induction lo using tiles.induct step hi generalizing value with
  | case1 lo inside ih =>
    rw [tiles_of_lt positive inside.1, List.foldl_cons, ih]
    by_cases here : lo ≤ target ∧ target < min (lo + step) hi
    · rw [if_pos here, if_neg (by omega), if_pos (by omega)]
    · rw [if_neg here]
      split <;> split <;> first | rfl | omega
  | case2 lo outside =>
    rw [tiles, if_neg outside, if_neg (by omega)]
    rfl

/-- Accumulating tile by tile is accumulating along the whole range. -/
theorem foldl_tiles_range {step lo hi : Nat} (positive : 0 < step) (apply : A → Nat → A) (value : A) :
    (tiles step lo hi).foldl (fun value x => (List.range' x (min (x + step) hi - x)).foldl apply value) value =
      (List.range' lo (hi - lo)).foldl apply value := by
  rw [← flatMap_tiles positive, List.foldl_flatMap]

end Folds
end FromScratch.Lib
