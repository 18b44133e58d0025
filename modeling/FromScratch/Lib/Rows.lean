import Mathlib.Data.List.Basic
import Mathlib.Data.List.Flatten
import Mathlib.Algebra.Ring.Int.Defs
import Mathlib.Algebra.Ring.Nat

/-! Rows of one width, laid out one after the other. -/

namespace FromScratch.Lib.Rows

variable {α β γ : Type} {row other : Nat → List α} {n width : Nat}

def joined (n : Nat) (row : Nat → List α) : List α := (List.range n).flatMap row

theorem joined_succ (n : Nat) (row : Nat → List α) : joined (n + 1) row = joined n row ++ row n := by
  simp [joined, List.range_succ]

theorem joined_congr (same : ∀ i, i < n → row i = other i) : joined n row = joined n other :=
  List.flatMap_congr fun i member => same i (List.mem_range.mp member)

theorem length_joined (sized : ∀ i, i < n → (row i).length = width) : (joined n row).length = n * width := by
  induction n with
  | zero => rw [Nat.zero_mul]; rfl
  | succ n ih =>
    rw [joined_succ, List.length_append, ih fun i inside => sized i (Nat.lt_succ_of_lt inside), sized n (Nat.lt_succ_self n),
      Nat.succ_mul]

theorem map_joined (change : α → β) (n : Nat) (row : Nat → List α) :
    (joined n row).map change = joined n fun i => (row i).map change :=
  List.map_flatMap

theorem zipWith_joined (combine : α → β → γ) {first : Nat → List α} {second : Nat → List β}
    (same : ∀ i, i < n → (first i).length = (second i).length) :
    List.zipWith combine (joined n first) (joined n second) = joined n fun i =>
      List.zipWith combine (first i) (second i) := by
  induction n with
  | zero => rfl
  | succ n ih =>
    have lengths : (joined n first).length = (joined n second).length := by
      rw [joined, joined, List.length_flatMap, List.length_flatMap]
      exact congrArg List.sum (List.map_congr_left fun i member => same i (Nat.lt_succ_of_lt (List.mem_range.mp member)))
    rw [joined_succ, joined_succ, joined_succ, List.zipWith_append lengths,
      ih fun i inside => same i (Nat.lt_succ_of_lt inside)]

/-- Every row is found where it was put. -/
theorem row_joined (sized : ∀ i, i < n → (row i).length = width) {i : Nat} (inside : i < n) :
    ((joined n row).drop (i * width)).take width = row i := by
  induction n with
  | zero => exact absurd inside (Nat.not_lt_zero i)
  | succ n ih =>
    have earlier : ∀ i, i < n → (row i).length = width := fun i inside => sized i (Nat.lt_succ_of_lt inside)
    have length := length_joined earlier
    rw [joined_succ]
    rcases Nat.lt_succ_iff_lt_or_eq.mp inside with before | rfl
    · have room : i * width + width ≤ n * width := by
        rw [← Nat.succ_mul]
        exact Nat.mul_le_mul_right width before
      rw [List.drop_append_of_le_length (by omega), List.take_append_of_le_length (by rw [List.length_drop]; omega),
        ih earlier before]
    · rw [← length, List.drop_left]
      exact List.take_of_length_le (Nat.le_of_eq (sized i (Nat.lt_succ_self i)))

theorem joined_inj (sized : ∀ i, i < n → (row i).length = width) (others : ∀ i, i < n → (other i).length = width)
    (same : joined n row = joined n other) {i : Nat} (inside : i < n) : row i = other i := by
  rw [← row_joined sized inside, same, row_joined others inside]

theorem getD_joined (sized : ∀ i, i < n → (row i).length = width) {i j : Nat} (inside : i < n) (column : j < width)
    (default : α) :
    (joined n row).getD (i * width + j) default = (row i).getD j default := by
  rw [← row_joined sized inside, List.getD_eq_getElem?_getD, List.getD_eq_getElem?_getD,
    List.getElem?_take_of_lt column, List.getElem?_drop]

end FromScratch.Lib.Rows
