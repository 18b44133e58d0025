import Mathlib.Data.Int.CardIntervalMod
import Mathlib.Data.List.Nodup

/-! Items dealt round to a number of hands, one after the other. -/

namespace FromScratch.Lib
variable {α β : Type*} {n : ℕ}

def deal (n : ℕ) (items : List α) : List (List α) :=
  items.zipIdx.foldl (fun hands entry => hands.modify (entry.2 % n) (· ++ [entry.1])) (List.replicate n [])

theorem deal_nil (n : ℕ) : deal n ([] : List α) = List.replicate n [] := rfl

theorem deal_concat (n : ℕ) (items : List α) (item : α) :
    deal n (items ++ [item]) = (deal n items).modify (items.length % n) (· ++ [item]) := by
  rw [deal, List.zipIdx_append, List.foldl_append, Nat.zero_add]
  rfl

@[simp] theorem length_deal (n : ℕ) (items : List α) : (deal n items).length = n := by
  induction items using List.reverseRecOn with
  | nil => rw [deal_nil, List.length_replicate]
  | append_singleton items item ih => rw [deal_concat, List.length_modify, ih]

/-- Dealing looks at the places only. -/
theorem deal_map (f : α → β) (n : ℕ) (items : List α) : deal n (items.map f) = (deal n items).map (List.map f) := by
  induction items using List.reverseRecOn with
  | nil => simp [deal_nil]
  | append_singleton items item ih =>
    rw [List.map_append, List.map_singleton, deal_concat, deal_concat, ih, List.length_map]
    apply List.ext_getElem? fun i => ?_
    rw [List.getElem?_modify, List.getElem?_map, List.getElem?_map, List.getElem?_modify]
    cases (deal n items)[i]? with
    | none => rfl
    | some hand =>
      simp only [Option.map_some]
      split <;> simp

/-- The places of a list of that length, dealt. -/
def places (n count : ℕ) : List (List ℕ) := (List.range n).map fun i => (List.range count).filter (· % n = i)

theorem deal_range (n count : ℕ) : deal n (List.range count) = places n count := by
  induction count with
  | zero => simp [places, deal_nil, List.map_const']
  | succ count ih =>
    rw [List.range_succ, deal_concat, ih, List.length_range]
    apply List.ext_getElem?
    intro i
    rw [List.getElem?_modify, places, places, List.getElem?_map, List.getElem?_map]
    by_cases inside : i < n
    · rw [List.getElem?_range inside]
      simp only [Option.map_some, List.range_succ, List.filter_append]
      split
      next same => simp [same]
      next other => simp [other]
    · rw [List.getElem?_eq_none (by simpa using inside)]
      rfl

/-- A list is its items, place by place. -/
theorem range_getD (items : List α) (default : α) :
    items = (List.range items.length).map fun i => items.getD i default := by
  apply List.ext_getElem
  · simp
  · intro i here there
    rw [List.getElem_map, List.getElem_range, List.getD_eq_getElem?_getD, List.getElem?_eq_getElem here, Option.getD_some]

theorem deal_eq (n : ℕ) (items : List α) (default : α) :
    deal n items = (places n items.length).map (List.map fun i => items.getD i default) := by
  conv_lhs => rw [range_getD items default]
  rw [deal_map, deal_range]

section Places
variable (n count : ℕ)

theorem places_ascending {hand : List ℕ} (member : hand ∈ places n count) : hand.Pairwise (· < ·) := by
  obtain ⟨i, _, rfl⟩ := List.mem_map.mp member
  exact List.pairwise_lt_range.filter _

theorem length_hand {hand : List ℕ} (member : hand ∈ places n count) :
    hand.length = count / n ∨ hand.length = count / n + 1 := by
  obtain ⟨i, inside, rfl⟩ := List.mem_map.mp member
  have below := List.mem_range.mp inside
  have counted := Nat.count_modEq_card count (show 0 < n by omega) i
  have size : ((List.range count).filter (· % n = i)).length = count.count (· ≡ i [MOD n]) := by
    rw [← List.countP_eq_length_filter, Nat.count]
    refine List.countP_congr fun x _ => ?_
    simp only [decide_eq_true_eq, Nat.ModEq, Nat.mod_eq_of_lt below]
  rw [size, counted]
  split
  · exact Or.inr rfl
  · exact Or.inl rfl

/-- Every place is in one hand. -/
theorem places_perm (positive : 0 < n) : (places n count).flatten.Perm (List.range count) := by
  have distinct : (places n count).flatten.Nodup := by
    rw [places, ← List.flatMap_def]
    refine List.nodup_flatMap.mpr ⟨fun i _ => List.nodup_range.filter _, List.nodup_range.imp fun apart x here there => ?_⟩
    have here := (List.mem_filter.mp here).2
    have there := (List.mem_filter.mp there).2
    exact apart ((of_decide_eq_true here).symm.trans (of_decide_eq_true there))
  refine (List.perm_ext_iff_of_nodup distinct List.nodup_range).mpr fun x => ?_
  simp only [places, List.mem_flatten, List.mem_map, List.mem_range]
  constructor
  · rintro ⟨_, ⟨i, _, rfl⟩, member⟩
    exact List.mem_range.mp (List.mem_filter.mp member).1
  · intro inside
    exact ⟨_, ⟨x % n, Nat.mod_lt _ positive, rfl⟩, List.mem_filter.mpr ⟨List.mem_range.mpr inside, decide_eq_true rfl⟩⟩

end Places

/-- Dealing loses and invents nothing. -/
theorem deal_flatten (positive : 0 < n) (items : List α) : (deal n items).flatten.Perm items := by
  cases items with
  | nil =>
    rw [deal_nil, List.flatten_replicate_nil]
  | cons default rest =>
    have picked := (places_perm n (default :: rest).length positive).map fun i => (default :: rest).getD i default
    rwa [List.map_flatten, ← deal_eq, ← range_getD] at picked

end FromScratch.Lib
