import Mathlib.Data.List.Induction
import FromScratch.Proofs.MergeOrder
import FromScratch.Proofs.ReduceAttempt

/-! What a reduce task makes of its files: one call for each key, in order, with
all its values. -/

namespace FromScratch.Proofs.ReduceOutput
open FromScratch.MapReduce Reducer Codec MergeOrder ReduceAttempt

/-- The records the calls were made of. -/
def spread (calls : Calls) : List Record :=
  calls.flatMap fun call => call.2.map fun value => { key := call.1, value := value }

theorem mem_spread {calls : Calls} {r : Record} : r ∈ spread calls ↔ ∃ call ∈ calls, call.1 = r.key ∧ r.value ∈ call.2 := by
  unfold spread
  rw [List.mem_flatMap]
  refine ⟨fun ⟨call, inside, member⟩ => ?_, fun ⟨call, inside, key, member⟩ => ⟨call, inside, ?_⟩⟩
  · obtain ⟨value, listed, rfl⟩ := List.mem_map.mp member
    exact ⟨call, inside, rfl, listed⟩
  · exact List.mem_map.mpr ⟨r.value, member, by rw [key]⟩

/-- The loop has gathered the records into groups that ascend. -/
structure Gathered (records : List Record) (g : Groups) : Prop where
  all : spread (g.closed ++ g.group.toList) = records
  filled : ∀ call ∈ g.closed ++ g.group.toList, call.2 ≠ []
  ascending : Ordered records → (g.closed ++ g.group.toList).Pairwise fun a b => a.1 < b.1

theorem Gathered.key {records : List Record} {g : Groups} (gathered : Gathered records g) {call : GoString × List GoString}
    (member : call ∈ g.closed ++ g.group.toList) : ∃ r ∈ records, r.key = call.1 := by
  obtain ⟨value, inside⟩ := List.exists_mem_of_ne_nil _ (gathered.filled call member)
  refine ⟨{ key := call.1, value := value }, ?_, rfl⟩
  rw [← gathered.all]
  exact mem_spread.mpr ⟨call, member, rfl, inside⟩

theorem gather_gathered {records : List Record} {g : Groups} (gathered : Gathered records g)
    (first : g.group = none → g.closed = [])
    (record : Record) : Gathered (records ++ [record]) (gather g record) := by
  have fresh (calls : Calls) (same : spread calls = records) :
      spread (calls ++ [(record.key, [record.value])]) = records ++ [record] := by
    rw [← same]
    simp [spread]
  obtain ⟨closed, group⟩ := g
  unfold gather
  cases group with
  | none =>
    obtain rfl := first rfl
    have empty : [] = records := gathered.all
    subst empty
    exact ⟨by simp [spread], by simp, fun _ => List.pairwise_singleton ..⟩
  | some group =>
    obtain ⟨key, values⟩ := group
    simp only
    split
    next different =>
      refine ⟨fresh _ gathered.all, fun call member => ?_, fun ordered => ?_⟩
      · rcases List.mem_append.mp member with old | new
        · exact gathered.filled call old
        · cases List.mem_singleton.mp new
          simp
      · -- The open group's key is less than the record's, and the closed ones' are less than that.
        obtain ⟨before, _, last⟩ := List.pairwise_append.mp ordered
        have ascending := gathered.ascending before
        refine List.pairwise_append.mpr ⟨ascending, List.pairwise_singleton .., fun call member other new => ?_⟩
        cases List.mem_singleton.mp new
        have opened : key < record.key := by
          obtain ⟨r, inside, rfl⟩ := gathered.key (List.mem_append_right _ (List.mem_singleton.mpr rfl))
          exact lt_of_le_of_ne (last r inside record (by simp)) (Ne.symm different)
        rcases List.mem_append.mp member with earlier | same
        · have below := (List.pairwise_append.mp ascending).2.2 call earlier (key, values) (by simp)
          exact below.trans opened
        · cases List.mem_singleton.mp same
          exact opened
    next same =>
      rw [not_not] at same
      subst same
      refine ⟨?_, fun call member => ?_, fun ordered => ?_⟩
      · have all := gathered.all
        simp only [spread, Option.toList_some, List.flatMap_append] at all ⊢
        rw [← all]
        simp
      · rcases List.mem_append.mp member with old | new
        · exact gathered.filled call (List.mem_append_left _ old)
        · cases List.mem_singleton.mp new
          simp
      · obtain ⟨before, _, _⟩ := List.pairwise_append.mp ordered
        have ascending := gathered.ascending before
        obtain ⟨left, _, across⟩ := List.pairwise_append.mp ascending
        refine List.pairwise_append.mpr ⟨left, List.pairwise_singleton .., fun call member other new => ?_⟩
        cases List.mem_singleton.mp new
        exact across call member (record.key, values) (by simp)

theorem gather_opens (g : Groups) (record : Record) : (gather g record).group ≠ none := by
  unfold gather
  split
  · simp
  · split <;> simp

theorem groups_gathered (records : List Record) : Gathered records (records.foldl gather {}) := by
  suffices both : Gathered records (records.foldl gather {}) ∧
      ((records.foldl gather {}).group = none → (records.foldl gather {}).closed = []) from both.1
  induction records using List.reverseRec with
  | nil => exact ⟨⟨rfl, nofun, fun _ => List.Pairwise.nil⟩, fun _ => rfl⟩
  | append_singleton records record ih =>
    rw [List.foldl_append]
    exact ⟨gather_gathered ih.1 ih.2 record, fun empty => absurd empty (gather_opens _ record)⟩

theorem groups_ascending {records : List Record} (ordered : Ordered records) :
    (groups records).Pairwise fun a b => a.1 < b.1 :=
  (groups_gathered records).ascending ordered

theorem groups_keys (records : List Record) (key : GoString) :
    key ∈ (groups records).map Prod.fst ↔ ∃ r ∈ records, r.key = key := by
  have gathered := groups_gathered records
  refine ⟨fun member => ?_, fun ⟨r, member, same⟩ => ?_⟩
  · obtain ⟨call, listed, rfl⟩ := List.mem_map.mp member
    exact gathered.key listed
  · rw [← gathered.all] at member
    obtain ⟨call, inside, named, _⟩ := mem_spread.mp member
    exact List.mem_map.mpr ⟨call, inside, named.trans same⟩

theorem filter_spread {calls : Calls} (ascending : calls.Pairwise fun a b => a.1 < b.1) {call : GoString × List GoString}
    (member : call ∈ calls) : ((spread calls).filter fun r => r.key == call.1).map Record.value = call.2 := by
  have own (other : GoString × List GoString) (same : other.1 = call.1) :
      ((other.2.map fun value => ({ key := other.1, value := value } : Record)).filter fun r => r.key == call.1).map
        Record.value = other.2 := by
    simp [same, List.filter_map, Function.comp_def]
  have others (rest : Calls) (different : ∀ other ∈ rest, other.1 ≠ call.1) :
      (spread rest).filter (fun r => r.key == call.1) = [] := by
    refine List.filter_eq_nil_iff.mpr fun r inside => ?_
    obtain ⟨other, listed, named, _⟩ := mem_spread.mp inside
    rw [← named]
    simpa using different other listed
  induction calls with
  | nil => cases member
  | cons first calls ih =>
    obtain ⟨above, ascending⟩ := List.pairwise_cons.mp ascending
    have split : spread (first :: calls) = (first.2.map fun value => { key := first.1, value := value }) ++
      spread calls := rfl
    rw [split, List.filter_append, List.map_append]
    rcases List.mem_cons.mp member with rfl | later
    · rw [own _ rfl, others calls fun other listed => ne_of_gt (above other listed)]
      simp
    · have empty : ((first.2.map fun value => ({ key := first.1, value := value } : Record)).filter fun r =>
        r.key == call.1) = [] := by
        have below := ne_of_lt (above call later)
        simp [List.filter_eq_nil_iff, below]
      rw [empty, ih ascending later]
      rfl

/-- A call's values are those of all records with its key. -/
theorem groups_values {records : List Record} (ordered : Ordered records) {call : GoString × List GoString}
    (member : call ∈ groups records) : (records.filter fun r => r.key == call.1).map Record.value = call.2 := by
  have values := filter_spread (groups_ascending ordered) member
  rwa [groups, (groups_gathered records).all] at values

/-- Files in order merge into all their records in order. -/
theorem merged_files {opts : Options} {parts : Nat → GoString} {outs : Nat → List Record}
    (encoded : ∀ m < opts.numMappers, parts m = Record.encodeAll (outs m) ∧ Ordered (outs m) ∧
      ∀ r ∈ outs m, Short r ∧ restored r = r) :
    (merged opts parts).2 = none ∧ (merged opts parts).1.Perm ((List.range opts.numMappers).flatMap outs) ∧
      Ordered (merged opts parts).1 := by
  have sources : (List.range opts.numMappers).map (fun m => Source.ofStream { bytes := parts m }) =
      ((List.range opts.numMappers).map outs).map fun file => Source.ofStream { bytes := Record.encodeAll file } := by
    rw [List.map_map]
    refine List.map_congr_left fun m member => ?_
    rw [(encoded m (List.mem_range.mp member)).1]
    rfl
  have files {P : List Record → Prop} (each : ∀ m < opts.numMappers, P (outs m)) :
      ∀ file ∈ (List.range opts.numMappers).map outs, P file := by
    intro file listed
    obtain ⟨m, member, rfl⟩ := List.mem_map.mp listed
    exact each m (List.mem_range.mp member)
  have text : ∀ file ∈ (List.range opts.numMappers).map outs, file.map restored = file :=
    files fun m below => map_restored fun r inside => ((encoded m below).2.2 r inside).2
  have short : ∀ file ∈ (List.range opts.numMappers).map outs, ∀ r ∈ file, Short r :=
    files fun m below r inside => ((encoded m below).2.2 r inside).1
  unfold merged
  rw [sources]
  obtain ⟨out, drained, _, perm, ordered⟩ := (drain_files ((List.range opts.numMappers).map outs)).resolve_right
    fun ⟨_, _, _, long⟩ => long short
  rw [drained]
  refine ⟨rfl, ?_, ordered fun file listed => ?_⟩
  · rw [List.map_flatten, List.map_congr_left text, List.map_id'] at perm
    exact perm
  · rw [text file listed]
    exact files (fun m below => (encoded m below).2.1) file listed

end FromScratch.Proofs.ReduceOutput
