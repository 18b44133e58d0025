import Mathlib.Data.List.Basic
import Mathlib.Data.List.Infix

/-! The first occurrence of one list in another, as what is searched grows at its end. -/

namespace FromScratch.Lib

variable {α : Type} [DecidableEq α]

/-- Where the needle first occurs. -/
def find (needle : List α) : List α → Option Nat
  | [] => if needle = [] then some 0 else none
  | item :: rest => if needle <+: item :: rest then some 0 else (find needle rest).map (· + 1)

variable {needle text more : List α} {i : Nat}

theorem find_eq_some_iff : find needle text = some i ↔ i ≤ text.length ∧ needle <+: text.drop i ∧
    ∀ j < i, ¬needle <+: text.drop j := by
  induction text generalizing i with
  | nil =>
    rw [find]
    constructor
    · intro found
      split at found
      next empty =>
        cases found
        exact ⟨le_rfl, empty ▸ List.nil_prefix, nofun⟩
      next => cases found
    · rintro ⟨here, starts, _⟩
      rw [List.drop_nil, List.prefix_nil] at starts
      rw [if_pos starts, Nat.le_zero.mp here]
  | cons item rest ih =>
    rw [find]
    by_cases starts : needle <+: item :: rest
    · rw [if_pos starts]
      constructor
      · intro found
        cases found
        exact ⟨Nat.zero_le _, starts, nofun⟩
      · rintro ⟨_, _, first⟩
        rcases Nat.eq_zero_or_pos i with rfl | later
        · rfl
        · exact absurd starts (first 0 later)
    · rw [if_neg starts, Option.map_eq_some_iff]
      constructor
      · rintro ⟨j, found, rfl⟩
        obtain ⟨inside, occurs, first⟩ := ih.mp found
        refine ⟨Nat.succ_le_succ inside, occurs, fun k below => ?_⟩
        cases k with
        | zero => exact starts
        | succ k => exact first k (Nat.lt_of_succ_lt_succ below)
      · rintro ⟨inside, occurs, first⟩
        cases i with
        | zero => exact absurd occurs starts
        | succ i =>
          refine ⟨i, ih.mpr ⟨Nat.le_of_succ_le_succ inside, occurs, fun k below => ?_⟩, rfl⟩
          exact first (k + 1) (Nat.succ_lt_succ below)

theorem find_inside (found : find needle text = some i) : i + needle.length ≤ text.length := by
  obtain ⟨inside, occurs, _⟩ := find_eq_some_iff.mp found
  have fits := occurs.length_le
  rw [List.length_drop] at fits
  omega

omit [DecidableEq α] in
theorem occurs_append (fits : i + needle.length ≤ text.length) :
    needle <+: (text ++ more).drop i ↔ needle <+: text.drop i := by
  rw [List.drop_append_of_le_length (by omega)]
  constructor
  · intro starts
    exact List.prefix_of_prefix_length_le starts (List.prefix_append _ _) (by rw [List.length_drop]; omega)
  · exact fun starts => starts.trans (List.prefix_append _ _)

/-- What cannot begin the needle is passed over. -/
theorem find_skip {skipped : List α} (real : needle ≠ []) (other : ∀ item ∈ skipped, needle.head? ≠ some item) :
    find needle (skipped ++ text) = (find needle text).map (· + skipped.length) := by
  induction skipped with
  | nil => exact Option.map_id'.symm
  | cons item skipped ih =>
    obtain ⟨first, others⟩ := List.forall_mem_cons.mp other
    have apart : ¬needle <+: item :: (skipped ++ text) := by
      intro starts
      obtain ⟨head, rest, rfl⟩ := List.exists_cons_of_ne_nil real
      exact first (congrArg some (List.cons_prefix_cons.mp starts).1)
    rw [List.cons_append, find, if_neg apart, ih others, Option.map_map]
    rfl

/-- An occurrence stays the first. -/
theorem find_append (found : find needle text = some i) : find needle (text ++ more) = some i := by
  have fits := find_inside found
  obtain ⟨inside, occurs, first⟩ := find_eq_some_iff.mp found
  refine find_eq_some_iff.mpr ⟨by rw [List.length_append]; omega, (occurs_append fits).mpr occurs, fun j below starts => ?_⟩
  exact first j below ((occurs_append (by omega)).mp starts)

/-- What has come so far decides about what occurs in it. -/
theorem find_of_append (found : find needle (text ++ more) = some i) (fits : i + needle.length ≤ text.length) :
    find needle text = some i := by
  obtain ⟨_, occurs, first⟩ := find_eq_some_iff.mp found
  refine find_eq_some_iff.mpr ⟨by omega, (occurs_append fits).mp occurs, fun j below starts => ?_⟩
  exact first j below ((occurs_append (by omega)).mpr starts)

end FromScratch.Lib
