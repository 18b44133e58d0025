import FromScratch.Lib.Dealing
import FromScratch.MapReduce.Storage

/-! The input files are dealt round to the map tasks, of which there are never
more than files. -/

namespace FromScratch.Proofs.FileGroups
open FromScratch.MapReduce Storage Lib

/-- The number of groups after both clamps. -/
def groupCount (files : List GoString) (n : Int) : Nat := min (max n 1).toNat files.length

variable (files : List GoString) (n : Int)

theorem clamps : (let n := if n < 1 then 1 else n.toNat; if files.length < n then files.length else n) =
    groupCount files n := by
  simp only [groupCount]
  split <;> split <;> omega

theorem groupCount_nil : groupCount [] n = 0 := Nat.min_zero _

theorem groupCount_pos (filled : files ≠ []) : 0 < groupCount files n := by
  have long := List.length_pos_iff.mpr filled
  simp only [groupCount]
  omega

theorem splitFiles_eq : splitFiles files n = deal (groupCount files n) files := by
  rw [← clamps]
  rfl

/-- Dealing loses and invents no file. -/
theorem splitFiles_flatten : (splitFiles files n).flatten.Perm files := by
  rw [splitFiles_eq]
  rcases eq_or_ne files [] with rfl | filled
  · rw [deal_nil, List.flatten_replicate_nil]
  · exact deal_flatten (groupCount_pos files n filled) files

section Panics
variable {count : Nat} {groups : List (List GoString)}

theorem deals_of_pos (positive : 0 < count) (entries : List (GoString × Nat)) (size : groups.length = count) :
    (entries.foldlM (fun groups entry =>
      if count = 0 then none
      else if groups.length ≤ entry.2 % count then none
      else some (groups.modify (entry.2 % count) (· ++ [entry.1]))) groups) =
    some (entries.foldl (fun groups entry => groups.modify (entry.2 % count) (· ++ [entry.1])) groups) := by
  induction entries generalizing groups with
  | nil => rfl
  | cons entry entries ih =>
    have inside : entry.2 % count < groups.length := by
      rw [size]
      exact Nat.mod_lt _ positive
    rw [List.foldlM_cons, if_neg positive.ne', if_neg inside.not_ge]
    apply ih
    rw [List.length_modify, size]

/-- No remainder is taken by 0 and no group is out of range. -/
theorem splitFiles_ends : splitFilesOrPanic files n = some (splitFiles files n) := by
  rcases eq_or_ne files [] with rfl | filled
  · rfl
  · have positive := groupCount_pos files n filled
    rw [← clamps] at positive
    exact deals_of_pos positive _ List.length_replicate

end Panics

/-- Every place of the list is in one group, where the order is kept, and the groups are as even as they can be. -/
theorem splitFiles_deals : splitFilesOrPanic files n = some (splitFiles files n) ∧
    ((splitFiles files n).length : Int) = min (max n 1) files.length ∧
    ∃ positions : List (List Nat), splitFiles files n = positions.map (List.map fun i => files.getD i []) ∧
      positions.flatten.Perm (List.range files.length) ∧ (∀ group ∈ positions, group.Pairwise (· < ·)) ∧
      (∀ first ∈ positions, ∀ second ∈ positions, first.length ≤ second.length + 1) ∧ ∀ group ∈ positions, group ≠ [] := by
  refine ⟨splitFiles_ends files n, ?_, places (groupCount files n) files.length, ?_, ?_, ?_, ?_, ?_⟩
  · rw [splitFiles_eq, length_deal]
    simp only [groupCount]
    omega
  · rw [splitFiles_eq]
    exact deal_eq _ files []
  · rcases eq_or_ne files [] with rfl | filled
    · rw [groupCount_nil]
      rfl
    · exact places_perm _ _ (groupCount_pos files n filled)
  · intro group
    exact places_ascending _ _
  · intro first member second other
    have first := length_hand _ _ member
    have second := length_hand _ _ other
    omega
  · rintro group member rfl
    have size := length_hand _ _ member
    have filled : files ≠ [] := by
      rintro rfl
      rw [groupCount_nil] at member
      cases member
    have share : 0 < files.length / groupCount files n :=
      Nat.div_pos (Nat.min_le_right _ _) (groupCount_pos files n filled)
    rw [List.length_nil] at size
    omega

/-- Seven files among three mappers. -/
example : splitFiles [[97], [98], [99], [100], [101], [102], [103]] 3 =
    [[[97], [100], [103]], [[98], [101]], [[99], [102]]] := rfl

end FromScratch.Proofs.FileGroups
