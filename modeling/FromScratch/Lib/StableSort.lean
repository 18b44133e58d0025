import Mathlib.Data.List.Sort

/-! The stable sort by a key, and when it can be begun with an item from the middle. -/

namespace FromScratch.Lib

variable {α κ : Type} [LinearOrder κ] (key : α → κ)

def stableSort (items : List α) : List α := items.insertionSort fun a b => key a ≤ key b

variable {key} {item : α} {before after items : List α}

theorem stableSort_cons (item : α) (items : List α) :
    stableSort key (item :: items) = (stableSort key items).orderedInsert (fun a b => key a ≤ key b) item := rfl

theorem stableSort_perm (items : List α) : (stableSort key items).Perm items := List.perm_insertionSort ..

theorem filter_orderedInsert (item : α) (items : List α) (k : κ) :
    (items.orderedInsert (fun a b => key a ≤ key b) item).filter (fun a => key a = k) =
      (item :: items).filter fun a => key a = k := by
  induction items with
  | nil => rfl
  | cons first rest ih =>
    rw [List.orderedInsert_cons]
    split
    · rfl
    next above =>
      rw [List.filter_cons, ih, List.filter_cons, List.filter_cons, List.filter_cons]
      by_cases same : key first = k
      · have other : ¬key item = k := fun equal => above (le_of_eq (equal.trans same.symm))
        simp [same, other]
      · simp [same]

/-- The items of one key stay in their order. -/
theorem stableSort_stable (items : List α) (k : κ) :
    (stableSort key items).filter (fun a => key a = k) = items.filter fun a => key a = k := by
  induction items with
  | nil => rfl
  | cons item items ih =>
    rw [stableSort_cons, filter_orderedInsert, List.filter_cons, List.filter_cons, ih]

/-- An item that is below all, and strictly below what stands before it, comes first. -/
theorem stableSort_least (lower : ∀ other ∈ before, key item < key other) (lowest : ∀ other ∈ after, key item ≤ key other) :
    stableSort key (before ++ item :: after) = item :: stableSort key (before ++ after) := by
  induction before with
  | nil =>
    have bound : ∀ other ∈ stableSort key after, key item ≤ key other :=
      fun other member => lowest other ((stableSort_perm after).subset member)
    rw [List.nil_append, List.nil_append, stableSort_cons]
    cases sorted : stableSort key after with
    | nil => rfl
    | cons first rest => exact List.orderedInsert_cons_of_le _ _ (bound first (sorted ▸ List.mem_cons_self))
  | cons first before ih =>
    obtain ⟨less, others⟩ := List.forall_mem_cons.mp lower
    rw [List.cons_append, List.cons_append, stableSort_cons, ih others, List.orderedInsert_cons, if_neg (not_le.mpr less)]
    rfl

end FromScratch.Lib
