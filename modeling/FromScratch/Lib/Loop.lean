import Mathlib.Data.List.Basic
import Mathlib.Data.List.Range
import Mathlib.Tactic.Ring

/-! Counted loops over a state that may fail, and the tiles a blocked loop cuts
a range into. -/

namespace FromScratch.Lib

variable {σ ε α : Type}

/-- `for (x = lo; x < hi; ++x)`. -/
def upTo (lo hi : Nat) (body : Nat → σ → Except ε σ) (state : σ) : Except ε σ :=
  (List.range' lo (hi - lo)).foldlM (fun state x => body x state) state

/-- `for (x = lo; x < hi; x += step)` with an unsigned counter, which wraps. A
counter that has come round without reaching `hi` never will. -/
def stepping (step modulus hi : Nat) (endless : ε) (body : Nat → σ → Except ε σ) : Nat → Nat → σ → Except ε σ
  | 0, _, _ => .error endless
  | fuel + 1, x, state =>
    if x < hi then do
      let state ← body x state
      stepping step modulus hi endless body fuel ((x + step) % modulus) state
    else .ok state

/-- Where the tiles of a range begin. -/
def tiles (step lo hi : Nat) : List Nat :=
  if lo < hi ∧ 0 < step then lo :: tiles step (lo + step) hi else []
termination_by hi - lo

theorem bind_ok {β : Type} {run : Except ε α} {next : α → Except ε β} {result : β} (returned : run >>= next = .ok result) :
    ∃ value, run = .ok value ∧ next value = .ok result := by
  cases run with
  | error e => cases returned
  | ok value => exact ⟨value, rfl, returned⟩

theorem bind_error {β : Type} {run : Except ε α} {next : α → Except ε β} {e : ε} (failed : run >>= next = .error e) :
    run = .error e ∨ ∃ value, run = .ok value ∧ next value = .error e := by
  cases run with
  | error other =>
    cases failed
    exact .inl rfl
  | ok value => exact .inr ⟨value, rfl, failed⟩

/-- A fold that keeps the highest of what it meets is bounded below by each of them. -/
theorem le_foldl {β : Type} [LE β] {k : β} {step : β → α → β} {reaches : α → Prop}
    (one : ∀ current item, k ≤ step current item ↔ k ≤ current ∨ reaches item) (items : List α) (current : β) :
    k ≤ items.foldl step current ↔ k ≤ current ∨ ∃ item ∈ items, reaches item := by
  induction items generalizing current with
  | nil => simp
  | cons item items ih =>
    rw [List.foldl_cons, ih, one, or_assoc]
    simp only [List.mem_cons, exists_eq_or_imp]

theorem mapM_ok {β : Type} {f : α → Except ε β} {items : List α} {results : List β} (made : items.mapM f = .ok results) :
    List.Forall₂ (fun item result => f item = .ok result) items results := by
  induction items generalizing results with
  | nil =>
    cases made
    exact .nil
  | cons item items ih =>
    rw [List.mapM_cons] at made
    obtain ⟨result, first, made⟩ := bind_ok made
    obtain ⟨others, rest, made⟩ := bind_ok made
    cases made
    exact .cons first (ih rest)

theorem mapM_error {β : Type} {f : α → Except ε β} {items : List α} {e : ε} (failed : items.mapM f = .error e) :
    ∃ item ∈ items, f item = .error e := by
  induction items with
  | nil => cases failed
  | cons item items ih =>
    rw [List.mapM_cons] at failed
    rcases bind_error failed with first | ⟨result, _, others⟩
    · exact ⟨item, List.mem_cons_self, first⟩
    · rcases bind_error others with rest | ⟨_, _, done⟩
      · obtain ⟨other, member, here⟩ := ih rest
        exact ⟨other, List.mem_cons_of_mem _ member, here⟩
      · cases done

theorem mapM_forall₂ {β : Type} {f : α → Except ε β} {items : List α} {results : List β}
    (each : List.Forall₂ (fun item result => f item = .ok result) items results) : items.mapM f = .ok results := by
  induction each with
  | nil => rfl
  | cons first _ ih =>
    rw [List.mapM_cons, first, ih]
    rfl

theorem mapM_returns {β : Type} {f : α → Except ε β} {result : α → β} {items : List α}
    (each : ∀ item ∈ items, f item = .ok (result item)) :
    items.mapM f = .ok (items.map result) := by
  induction items with
  | nil => rfl
  | cons item items ih =>
    obtain ⟨first, others⟩ := List.forall_mem_cons.mp each
    rw [List.mapM_cons, first, ih others]
    rfl

/-- A loop whose body does not fail where the invariant holds, and takes it one
turn further. -/
theorem upTo_run {body : Nat → σ → Except ε σ} {holds : Nat → σ → Prop} {lo hi : Nat} (ordered : lo ≤ hi)
    (each : ∀ x, lo ≤ x → x < hi → ∀ state, holds x state → ∃ next, body x state = .ok next ∧ holds (x + 1) next)
    {state : σ} (start : holds lo state) : ∃ after, upTo lo hi body state = .ok after ∧ holds hi after := by
  obtain ⟨count, rfl⟩ := Nat.exists_eq_add_of_le ordered
  rw [upTo, Nat.add_sub_cancel_left]
  clear ordered
  induction count generalizing lo state with
  | zero => exact ⟨state, rfl, start⟩
  | succ count ih =>
    obtain ⟨next, first, kept⟩ := each lo le_rfl (by omega) state start
    obtain ⟨after, rest, last⟩ := ih kept fun x above below => each x (by omega) (by omega)
    refine ⟨after, ?_, by rwa [Nat.add_assoc, Nat.add_comm 1] at last⟩
    rw [List.range'_succ, List.foldlM_cons, first]
    exact rest

/-- The body may fail, but where it does not the invariant survives. -/
def Keeps (good : σ → Prop) (body : σ → Except ε σ) : Prop :=
  ∀ state after, good state → body state = .ok after → good after

namespace Keeps
variable {good : σ → Prop}

theorem skip : Keeps good (.ok : σ → Except ε σ) := by
  intro state after holds same
  cases same
  exact holds

theorem seq {first second : σ → Except ε σ} (head : Keeps good first) (tail : Keeps good second) :
    Keeps good fun state => first state >>= second := by
  intro state after holds run
  obtain ⟨reached, middle, rest⟩ := bind_ok run
  exact tail reached after (head state reached holds middle) rest

theorem before {run : Except ε α} {next : α → σ → Except ε σ} (each : ∀ value, Keeps good (next value)) :
    Keeps good fun state => run >>= fun value => next value state := by
  intro state after holds ran
  obtain ⟨value, _, rest⟩ := bind_ok ran
  exact each value state after holds rest

theorem foldlM {body : α → σ → Except ε σ} {items : List α} (each : ∀ item ∈ items, Keeps good (body item)) :
    Keeps good fun state => items.foldlM (fun state item => body item state) state := by
  induction items with
  | nil => exact skip
  | cons item items ih =>
    simp only [List.foldlM_cons]
    exact seq (each item List.mem_cons_self) (ih fun other member => each other (List.mem_cons_of_mem _ member))

theorem upTo {lo hi : Nat} {body : Nat → σ → Except ε σ} (each : ∀ x, Keeps good (body x)) : Keeps good (upTo lo hi body) :=
  foldlM fun x _ => each x

theorem stepping {step modulus hi : Nat} {endless : ε} {body : Nat → σ → Except ε σ} (each : ∀ x, Keeps good (body x))
    (fuel lo : Nat) : Keeps good (stepping step modulus hi endless body fuel lo) := by
  induction fuel generalizing lo with
  | zero => intro state after _ run; cases run
  | succ fuel ih =>
    intro state after holds run
    rw [Lib.stepping] at run
    split at run
    · exact seq (each lo) (ih _) state after holds run
    · cases run
      exact holds

/-- Every item of a loop that returned has returned. -/
theorem each_item {body : α → σ → Except ε σ} {items : List α} (each : ∀ item ∈ items, Keeps good (body item))
    {state after : σ} (holds : good state) (run : items.foldlM (fun state item => body item state) state = .ok after)
    {item : α} (member : item ∈ items) : ∃ before next, good before ∧ body item before = .ok next := by
  induction items generalizing state with
  | nil => cases member
  | cons first items ih =>
    rw [List.foldlM_cons] at run
    obtain ⟨next, ran, rest⟩ := bind_ok run
    rcases List.mem_cons.mp member with rfl | later
    · exact ⟨state, next, holds, ran⟩
    · exact ih (fun other member => each other (List.mem_cons_of_mem _ member))
        (each first List.mem_cons_self state next holds ran) rest later

/-- Every round of a loop that returned has returned. -/
theorem each_round {lo hi : Nat} {body : Nat → σ → Except ε σ} (each : ∀ x, Keeps good (body x)) {state after : σ}
    (holds : good state) (run : Lib.upTo lo hi body state = .ok after) {x : Nat} (above : lo ≤ x) (below : x < hi) :
    ∃ before next, good before ∧ body x before = .ok next :=
  each_item (fun x _ => each x) holds run (List.mem_range'_1.mpr (by omega))

end Keeps

/-- The only faults a body ends in. -/
def FailsWith (bad : ε → Prop) (run : Except ε α) : Prop := ∀ e, run = .error e → bad e

namespace FailsWith
variable {bad : ε → Prop} {β : Type}

theorem ok (value : α) : FailsWith bad (.ok value : Except ε α) := nofun

theorem error {e : ε} (fault : bad e) : FailsWith bad (.error e : Except ε α) := by
  intro other same
  cases same
  exact fault

theorem bind {run : Except ε α} {next : α → Except ε β} (head : FailsWith bad run)
    (tail : ∀ value, run = .ok value → FailsWith bad (next value)) : FailsWith bad (run >>= next) := by
  cases ran : run with
  | error e => exact error (head e ran)
  | ok value => exact tail value ran

theorem foldlM {body : α → σ → Except ε σ} {items : List α} (each : ∀ item state, FailsWith bad (body item state))
    (state : σ) :
    FailsWith bad (items.foldlM (fun state item => body item state) state) := by
  induction items generalizing state with
  | nil => exact ok state
  | cons item items ih =>
    rw [List.foldlM_cons]
    exact (each item state).bind fun next _ => ih next

theorem mapM {f : α → Except ε β} {items : List α} (each : ∀ item, FailsWith bad (f item)) :
    FailsWith bad (items.mapM f) := by
  induction items with
  | nil => exact ok []
  | cons item items ih =>
    rw [List.mapM_cons]
    exact bind (each item) fun first _ => bind ih fun rest _ => ok (first :: rest)

theorem upTo {lo hi : Nat} {body : Nat → σ → Except ε σ} (each : ∀ x state, FailsWith bad (body x state)) (state : σ) :
    FailsWith bad (upTo lo hi body state) := foldlM each state

theorem stepping {step modulus hi : Nat} {endless : ε} (never : bad endless) {body : Nat → σ → Except ε σ}
    (each : ∀ x state, FailsWith bad (body x state)) (fuel lo : Nat) (state : σ) :
    FailsWith bad (stepping step modulus hi endless body fuel lo state) := by
  induction fuel generalizing lo state with
  | zero => exact error never
  | succ fuel ih =>
    rw [Lib.stepping]
    split
    · exact (each lo state).bind fun next _ => ih _ next
    · exact ok state

end FailsWith

section Tiles
variable {step lo hi : Nat}

theorem tiles_of_lt (positive : 0 < step) (inside : lo < hi) : tiles step lo hi = lo :: tiles step (lo + step) hi := by
  rw [tiles, if_pos ⟨inside, positive⟩]

theorem tiles_of_le (outside : hi ≤ lo) : tiles step lo hi = [] := by
  rw [tiles, if_neg fun inside => absurd inside.1 (by omega)]

theorem mem_tiles {x : Nat} (member : x ∈ tiles step lo hi) : lo ≤ x ∧ x < hi := by
  induction lo using tiles.induct step hi with
  | case1 lo inside ih =>
    rw [tiles_of_lt inside.2 inside.1, List.mem_cons] at member
    rcases member with rfl | later
    · exact ⟨le_rfl, inside.1⟩
    · have bounds := ih later
      omega
  | case2 lo outside =>
    rw [tiles, if_neg outside] at member
    cases member

/-- The tiles do not overlap. -/
theorem tiles_apart : (tiles step lo hi).Pairwise fun first second => first + step ≤ second := by
  induction lo using tiles.induct step hi with
  | case1 lo inside ih =>
    rw [tiles_of_lt inside.2 inside.1, List.pairwise_cons]
    exact ⟨fun second later => (mem_tiles later).1, ih⟩
  | case2 lo outside =>
    rw [tiles, if_neg outside]
    exact List.Pairwise.nil

/-- Walking a range tile by tile is walking the range. -/
theorem flatMap_tiles (positive : 0 < step) :
    ((tiles step lo hi).flatMap fun x => List.range' x (min (x + step) hi - x)) = List.range' lo (hi - lo) := by
  induction lo using tiles.induct step hi with
  | case1 lo inside ih =>
    rw [tiles_of_lt positive inside.1, List.flatMap_cons, ih]
    have both : hi - lo = (min (lo + step) hi - lo) + (hi - (lo + step)) := by omega
    rw [both, ← List.range'_append_1]
    congr 1
    by_cases last : hi ≤ lo + step
    · have zero : hi - (lo + step) = 0 := by omega
      rw [zero]
      rfl
    · congr 1
      omega
  | case2 lo outside =>
    have zero : hi - lo = 0 := by omega
    rw [tiles, if_neg outside, zero]
    rfl

/-- Every position of a range lies in one tile. -/
theorem exists_tile (positive : 0 < step) {y : Nat} (above : lo ≤ y) (below : y < hi) :
    ∃ x ∈ tiles step lo hi, x ≤ y ∧ y < min (x + step) hi := by
  have member : y ∈ (tiles step lo hi).flatMap fun x => List.range' x (min (x + step) hi - x) := by
    rw [flatMap_tiles positive]
    exact List.mem_range'_1.mpr (by omega)
  obtain ⟨x, start, inside⟩ := List.mem_flatMap.mp member
  have bounds := List.mem_range'_1.mp inside
  exact ⟨x, start, by omega, by omega⟩

/-- While the counter cannot pass the modulus, the loop visits the tiles. -/
theorem stepping_eq {modulus : Nat} {endless : ε} {body : Nat → σ → Except ε σ} (positive : 0 < step)
    (room : hi + step ≤ modulus) {fuel : Nat} (enough : hi ≤ lo + fuel * step) (state : σ) :
    stepping step modulus hi endless body (fuel + 1) lo state =
      (tiles step lo hi).foldlM (fun state x => body x state) state := by
  induction fuel generalizing lo state with
  | zero =>
    rw [tiles_of_le (by omega), stepping, if_neg (by omega)]
    rfl
  | succ fuel ih =>
    by_cases inside : lo < hi
    · have next : (lo + step) % modulus = lo + step := Nat.mod_eq_of_lt (by omega)
      have left : hi ≤ lo + step + fuel * step := by
        rw [Nat.succ_mul] at enough
        omega
      rw [tiles_of_lt positive inside, stepping, if_pos inside, next, List.foldlM_cons]
      exact congrArg _ (funext fun state => ih left state)
    · rw [tiles_of_le (by omega), stepping, if_neg inside]
      rfl

/-- The same of a loop whose counter takes steps. -/
theorem stepping_run {modulus : Nat} {endless : ε} {body : Nat → σ → Except ε σ} {holds : Nat → σ → Prop}
    (positive : 0 < step)
    (room : hi + step ≤ modulus) {fuel : Nat} (enough : hi ≤ lo + fuel * step)
    (each : ∀ x, x < hi → ∀ state, holds x state → ∃ next, body x state = .ok next ∧ holds (min (x + step) hi) next)
    {state : σ} (ordered : lo ≤ hi) (start : holds lo state) :
    ∃ after, stepping step modulus hi endless body (fuel + 1) lo state = .ok after ∧ holds hi after := by
  rw [stepping_eq positive room enough]
  clear enough
  induction lo using tiles.induct step hi generalizing state with
  | case1 lo inside ih =>
    obtain ⟨next, first, kept⟩ := each lo inside.1 state start
    rw [tiles_of_lt positive inside.1, List.foldlM_cons, first]
    by_cases last : hi ≤ lo + step
    · rw [Nat.min_eq_right last] at kept
      rw [tiles_of_le last]
      exact ⟨next, rfl, kept⟩
    · rw [Nat.min_eq_left (by omega)] at kept
      exact ih (by omega) kept
  | case2 lo outside =>
    obtain rfl : lo = hi := by omega
    rw [tiles_of_le le_rfl]
    exact ⟨state, rfl, start⟩

/-- A counter that only visits multiples of the step cannot stop between the last
of them and the modulus. -/
theorem stepping_endless {modulus : Nat} {endless : ε} {body : Nat → σ → Except ε σ} (divides : step ∣ modulus)
    (far : modulus < hi + step) (fuel : Nat) (start : step ∣ lo) (inside : lo < modulus) (state : σ) :
    ∃ e, stepping step modulus hi endless body fuel lo state = .error e := by
  induction fuel generalizing lo state with
  | zero => exact ⟨endless, rfl⟩
  | succ fuel ih =>
    have entered : lo < hi := by
      have gap : lo + step ≤ modulus := by
        obtain ⟨q, rfl⟩ := start
        obtain ⟨r, rfl⟩ := divides
        have less : q < r := Nat.lt_of_mul_lt_mul_left inside
        calc step * q + step = step * (q + 1) := by ring
          _ ≤ step * r := Nat.mul_le_mul_left step less
      omega
    rw [stepping, if_pos entered]
    cases run : body lo state with
    | error e => exact ⟨e, rfl⟩
    | ok next =>
      exact ih ((Nat.dvd_mod_iff divides).mpr (Nat.dvd_add start (dvd_refl step)))
        (Nat.mod_lt _ (by omega)) next

end Tiles
end FromScratch.Lib
