import FromScratch.Proofs.TaskCounters

/-! How many records go from one stage of a job to the next. -/

namespace FromScratch.Proofs.RecordFlow
open FromScratch.MapReduce Mapper MapPlan ReduceAttempt ReduceOutput JobRuns SpillOrder MergeOrder Codec MapOutput
open CombinerEquivalence PipelineCorrectness TaskCounters

theorem sum_swap {α β : Type} (rows : List α) (columns : List β) (f : α → β → Nat) :
    (rows.map fun row => (columns.map fun column => f row column).sum).sum =
      (columns.map fun column => (rows.map fun row => f row column).sum).sum := by
  induction rows with
  | nil => simp
  | cons row rows ih => simp only [List.map_cons, List.sum_cons, ih, List.sum_map_add]

/-- What is counted for each group of files is counted for all of them. -/
theorem sum_groups {α : Type} (groups : List (List GoString)) (f : GoString → List α) :
    ((List.range groups.length).map fun m => ((groups.getD m []).flatMap f).length).sum =
      (groups.flatten.flatMap f).length := by
  have listed : (List.range groups.length).map (fun m => ((groups.getD m []).flatMap f).length) =
      groups.map fun files => (files.flatMap f).length := by
    conv_rhs => rw [← range_groups groups, List.map_map]
    rfl
  rw [listed]
  simp [List.length_flatMap, Function.comp_def]

section Maps
variable {opts : Options} {contents : GoString → Option GoString}

/-- The lines of the files. -/
def linesOf (contents : GoString → Option GoString) (files : List GoString) : List GoString :=
  files.flatMap fun path => (scanned contents path).1

theorem emissions_length (opts : Options) (contents : GoString → Option GoString) :
    (emissions opts contents).length = (linesOf contents opts.inputFiles).length := by
  simp [emissions, emissionsOf, linesOf, List.length_flatMap]

/-- Without a combiner all that is emitted is written. -/
theorem written_plain (plain : opts.combiner = none) (reducers : 1 ≤ opts.numReducers) :
    ((List.range opts.numReducers).map fun p => (written opts contents p).length).sum =
      (emissions opts contents).flatten.length := by
  rw [← written_batches, ← routed_emitted reducers]
  simp [outputOf, applyCombiner, plain]

/-- A partition file holds as many records as were written for it. -/
theorem partContent_length {p : Nat} {content : GoString} (planned : partContent opts contents p = .ok content) :
    ∃ out, content = Record.encodeAll out ∧ out.length = (written opts contents p).length := by
  unfold partContent at planned
  split at planned
  next unspilled =>
    cases planned
    exact ⟨_, rfl, by simp [written, batches, unspilled]⟩
  next spilled =>
    rcases merge_outputs opts (runs opts contents) p with ⟨out, merged, _, perm, _⟩ | ⟨e, merged, _⟩
    · rw [merged] at planned
      cases planned
      refine ⟨out, rfl, ?_⟩
      rw [perm.length_eq, List.length_map, written, batches, if_neg spilled, List.flatMap_def]
    · rw [merged] at planned
      cases planned

end Maps

section Reduces
variable {job : Job} {contents : GoString → Option GoString}

/-- A merge that goes well delivers all records of all parts. -/
theorem merged_count {r : Nat}
    (parts : ∀ m < job.groups.length, ∃ content, partContent (mapPlan job m) contents r = .ok content)
    (clean : (merged (job.reduceOptions r) (partOf job contents r)).2 = none) :
    (merged (job.reduceOptions r) (partOf job contents r)).1.length =
      ((List.range job.groups.length).map fun m => (written (mapPlan job m) contents r).length).sum := by
  have part (m : Nat) : ∃ out, m < job.groups.length →
      partOf job contents r m = Record.encodeAll out ∧ out.length = (written (mapPlan job m) contents r).length := by
    by_cases below : m < job.groups.length
    · obtain ⟨content, planned⟩ := parts m below
      obtain ⟨out, encoded, length⟩ := partContent_length planned
      exact ⟨out, fun _ => ⟨(partOf_planned planned).symm.trans encoded, length⟩⟩
    · exact ⟨[], fun inside => absurd inside below⟩
  obtain ⟨outs, encoded⟩ := Classical.axiomOfChoice part
  have sources : (List.range job.groups.length).map (fun m => Source.ofStream { bytes := partOf job contents r m }) =
      ((List.range job.groups.length).map outs).map fun file => Source.ofStream { bytes := Record.encodeAll file } := by
    rw [List.map_map]
    refine List.map_congr_left fun m member => ?_
    rw [(encoded m (List.mem_range.mp member)).1]
    rfl
  have merge : merged (job.reduceOptions r) (partOf job contents r) = Merger.drain
      { sources := (List.range job.groups.length).map fun m => Source.ofStream { bytes := partOf job contents r m } } := rfl
  rw [merge, sources] at clean ⊢
  rcases drain_files ((List.range job.groups.length).map outs) with ⟨all, drained, _, perm, _⟩ | ⟨_, e, drained, _⟩
  · rw [drained, perm.length_eq, List.length_map, List.length_flatten, List.map_map]
    exact congrArg List.sum (List.map_congr_left fun m member => (encoded m (List.mem_range.mp member)).2)
  · rw [drained] at clean
    cases clean

/-- The calls of `Reduce` hand over every record. -/
theorem groups_values (records : List Record) : ((groups records).map fun call => call.2.length).sum = records.length := by
  have all : (spread (groups records)).length = records.length := congrArg List.length (groups_gathered records).all
  rw [← all, spread, List.length_flatMap]
  simp

end Reduces
end FromScratch.Proofs.RecordFlow
