import FromScratch.Proofs.MapPlan
import FromScratch.Proofs.MergeOrder

/-! An attempt of a map task follows the plan. Whatever others do meanwhile, it
ends in the planned partition files or in an error that has an excuse. -/

namespace FromScratch.Proofs.MapAttempt
open FromScratch.MapReduce Mapper Lib Program AttemptRules PublishRules MapPlan MergeOrder

theorem run_spilled {opts : Options} {contents : GoString → Option GoString} {consumed rest : List (List Record)}
    {emitted : List Record} (plan : emissions opts contents = consumed ++ emitted :: rest)
    (full : opts.spillBytes ≤ (emit (runnerAt opts consumed) emitted).bytes)
    (filled : (emit (runnerAt opts consumed) emitted).buffer ≠ []) :
    (runnerAt opts consumed).spills < (runs opts contents).length ∧
      (runs opts contents).getD (runnerAt opts consumed).spills [] = (emit (runnerAt opts consumed) emitted).buffer := by
  have early : (cut opts.spillBytes (consumed ++ [emitted])).runs <+: runs opts contents := by
    refine List.IsPrefix.trans ?_ (runs_initial opts contents)
    have whole : emissions opts contents = consumed ++ [emitted] ++ rest := by simpa using plan
    rw [planned, whole]
    exact cut_runs ..
  rw [emit_bytes] at full
  rw [cut_line, absorb, if_pos ⟨full, filled⟩] at early
  have inside : (cut opts.spillBytes consumed).runs.length <
      ((cut opts.spillBytes consumed).runs ++ [(cut opts.spillBytes consumed).buffer ++ emitted]).length := by simp
  refine ⟨inside.trans_le early.length_le, ?_⟩
  refine (runs_getD early inside).trans ?_
  simp [emit, runnerAt]

section Attempt
variable {terms : Terms} {opts : Options} {contents : GoString → Option GoString} {me : Nat} {excuse : Prop}
  (weak : terms.fallible → excuse)
  (goodRuns : ∀ n < (runs opts contents).length, ∀ p < opts.numReducers,
    terms.good (.spill opts.taskID n p) (spillContent opts contents n p))
include weak goodRuns

theorem consumeLine_meets {consumed rest : List (List Record)} {path line : GoString}
    (plan : emissions opts contents = consumed ++ opts.mapper path line :: rest) :
    Triple (rules terms me)
      (Knows terms contents (ownRun opts contents) me { spilled := RunsUpTo opts (runnerAt opts consumed).spills })
      (consumeLine opts path (runnerAt opts consumed) line)
      (Ends (fun _ => excuse) fun r w => r = runnerAt opts (consumed ++ [opts.mapper path line]) ∧
        Knows terms contents (ownRun opts contents) me { spilled := RunsUpTo opts r.spills } w) := by
  refine .bind (count_meets weak _ _) fun _ => .bind (count_meets weak _ _) fun _ => ?_
  have roomy (kept : ¬ (opts.spillBytes ≤ (emit (runnerAt opts consumed) (opts.mapper path line)).bytes ∧
      (emit (runnerAt opts consumed) (opts.mapper path line)).buffer ≠ [])) :
      Triple (rules terms me)
        (Knows terms contents (ownRun opts contents) me { spilled := RunsUpTo opts (runnerAt opts consumed).spills })
        (Pure.pure (emit (runnerAt opts consumed) (opts.mapper path line)) : Attempt Runner)
        (Ends (fun _ => excuse) fun r w => r = runnerAt opts (consumed ++ [opts.mapper path line]) ∧
          Knows terms contents (ownRun opts contents) me { spilled := RunsUpTo opts r.spills } w) :=
    .pure knows_stable fun _ knows => ⟨(runnerAt_roomy kept).symm, knows⟩
  simp only
  split
  next full =>
    by_cases empty : (emit (runnerAt opts consumed) (opts.mapper path line)).buffer = []
    · rw [spill, if_pos empty]
      exact roomy fun both => both.2 empty
    · obtain ⟨inside, run⟩ := run_spilled plan full empty
      refine .post_of (spill_meets weak _ empty (fun p below => ?_) fun p below => goodRuns _ inside p below) ?_
      · exact congrArg (fun run => Record.encodeAll (outputOf opts run p)) run
      · rintro r w ⟨rfl, knows⟩
        exact ⟨(runnerAt_full full empty).symm, knows⟩
  next short => exact roomy fun both => short both.1

theorem consumeLines_meets {consumed late : List (List Record)} {path : GoString} {lines : List GoString}
    (plan : emissions opts contents = consumed ++ (lines.map (opts.mapper path) ++ late)) :
    Triple (rules terms me)
      (Knows terms contents (ownRun opts contents) me { spilled := RunsUpTo opts (runnerAt opts consumed).spills })
      (Program.fold (consumeLine opts path) (runnerAt opts consumed) lines)
      (Ends (fun _ => excuse) fun r w => r = runnerAt opts (consumed ++ lines.map (opts.mapper path)) ∧
        Knows terms contents (ownRun opts contents) me { spilled := RunsUpTo opts r.spills } w) := by
  intro w knows
  refine Triple.fold (fun before r w => r = runnerAt opts (consumed ++ before.map (opts.mapper path)) ∧
      Knows terms contents (ownRun opts contents) me { spilled := RunsUpTo opts r.spills } w)
    (fun _ _ => knows_stable.and) (fun before line todo r cut => .given ?_) w ⟨by simp, knows⟩
  rintro rfl
  have here : emissions opts contents = (consumed ++ before.map (opts.mapper path)) ++
      opts.mapper path line :: (todo.map (opts.mapper path) ++ late) := by
    rw [plan, cut]
    simp
  refine .post_of (consumeLine_meets weak goodRuns here) fun r w ends => ⟨?_, ends.2⟩
  rw [ends.1]
  simp

/-- Consuming a file reads it to the end and leaves the runner where the plan says. -/
theorem consume_meets {early late : List GoString} {path : GoString} (files : opts.inputFiles = early ++ path :: late)
    (infeasible : ¬ Feasible opts contents → excuse) :
    Triple (rules terms me)
      (Knows terms contents (ownRun opts contents) me
        { spilled := RunsUpTo opts (runnerAt opts (early.flatMap (emissionsOf opts contents))).spills })
      (consume opts (runnerAt opts (early.flatMap (emissionsOf opts contents))) path)
      (Ends (fun _ => excuse) fun r w => Readable contents path ∧
        r = runnerAt opts ((early ++ [path]).flatMap (emissionsOf opts contents)) ∧
        Knows terms contents (ownRun opts contents) me { spilled := RunsUpTo opts r.spills } w) := by
  have readable (feasible : Feasible opts contents) : Readable contents path := feasible.readable path (by simp [files])
  cases found : contents path with
  | none =>
    have excused : excuse := infeasible fun feasible => by
      obtain ⟨bytes, present, _⟩ := readable feasible
      rw [found] at present
      cases present
    exact .bind (openMissing_meets weak found excused) fun _ _ impossible => impossible.elim
  | some bytes =>
  have scan : Scanner.scan { bytes := bytes } = scanned contents path := by simp [scanned, found]
  have whether : Readable contents path ↔ (scanned contents path).2 = none := by simp [Readable, found, scan]
  refine .bind (openInput_meets weak rfl rfl found) fun stream => .given fun answered => ?_
  obtain ⟨read, front⟩ := answered
  rw [scan] at front
  obtain ⟨rest, whole⟩ := front
  have complete (ended : (Scanner.scan stream).2 = none) : rest = [] ∧ Readable contents path := by
    rcases read with rfl | ⟨_, broken⟩
    · rw [scan] at whole ended
      exact ⟨List.append_right_eq_self.mp whole, whether.mpr ended⟩
    · exact absurd (tokens_readErr ended) broken
  have cutOff {e : Err} (failed : (Scanner.scan stream).2 = some e) : excuse := by
    rcases read with rfl | ⟨failing, _⟩
    · rw [scan] at failed
      exact infeasible fun feasible => by cases (whether.mp (readable feasible)).symm.trans failed
    · exact weak failing
  have emitted : emissionsOf opts contents path = (scanned contents path).1.map (opts.mapper path) := rfl
  rw [← whole, List.map_append] at emitted
  have planned : emissions opts contents = early.flatMap (emissionsOf opts contents) ++
      ((Scanner.scan stream).1.map (opts.mapper path) ++
        (rest.map (opts.mapper path) ++ late.flatMap (emissionsOf opts contents))) := by
    rw [emissions, files]
    simp [emitted]
  clear whole
  generalize Scanner.scan stream = pair at complete cutOff emitted planned
  obtain ⟨lines, err⟩ := pair
  refine .bind (consumeLines_meets weak goodRuns planned) fun r => .given ?_
  rintro rfl
  cases err with
  | some e => exact .fail fun _ _ => cutOff rfl
  | none =>
    obtain ⟨rfl, readable⟩ := complete rfl
    exact .pure knows_stable fun _ knows => ⟨readable, by simp [emitted], knows⟩

end Attempt

/-- The files of the partitions listed. -/
def Parts (opts : Options) (partitions : List Nat) (name : Name) : Prop := ∃ p ∈ partitions, name = .part opts.taskID p

theorem parts_concat (opts : Options) (before : List Nat) (p : Nat) (name : Name) :
    Parts opts (before ++ [p]) name ↔ Parts opts before name ∨ name = .part opts.taskID p := by
  simp [Parts, or_and_right, exists_or]

/-- The runs below `k`, but for the partitions already merged. -/
def Unmerged (opts : Options) (k : Nat) (merged : List Nat) (name : Name) : Prop :=
  ∃ n < k, ∃ p < opts.numReducers, p ∉ merged ∧ name = .spill opts.taskID n p

/-- The files `mergePartition` opens. -/
def runNames (opts : Options) (k p : Nat) : List Name := (List.range k).map fun n => .spill opts.taskID n p

theorem runNames_nodup (opts : Options) (k p : Nat) : (runNames opts k p).Nodup := by
  refine (List.nodup_range).map fun n n' same => ?_
  cases same
  rfl

section Finish
variable {terms : Terms} {opts : Options} {contents : GoString → Option GoString} {own : Name → GoString} {me : Nat}
  {excuse : Prop} (weak : terms.fallible → excuse)
include weak

theorem writeFinal_meets (r : Runner)
    (good : ∀ p < opts.numReducers, terms.good (.part opts.taskID p) (Record.encodeAll (outputOf opts r.buffer p))) :
    Triple (rules terms me) (Knows terms contents own me {}) (writeFinalFromBuffer opts r)
      (Ends (fun _ => excuse) fun _ => Knows terms contents own me
        { published := Parts opts (List.range opts.numReducers) }) := by
  intro w knows
  refine Triple.bind (Triple.each (fun _ => ())
    (fun before => Knows terms contents own me { published := Parts opts before })
    (fun before => knows_stable) fun before p todo cut => ?_) (fun _ => ?_) w (knows.fewer nofun (by simp [Parts]))
  · have inside : p < opts.numReducers := by
      rw [← List.mem_range, cut]
      simp
    have visible := isSpill_part opts.taskID p
    refine .bind (countCombined_meets weak _) fun _ => ?_
    refine .bind (writeRecords_meets weak rfl rfl (good p inside) fun spill => ?_) fun _ => ?_
    · rw [Storage.intermediatePath, visible] at spill
      cases spill
    · refine .post_of (count_meets weak _ _) fun _ w knows => ⟨rfl, ?_⟩
      rw [Holding.publish, Storage.intermediatePath, if_neg (by simp)] at knows
      exact knows.fewer nofun fun name => (parts_concat ..).mp
  · exact .given fun _ => .pure knows_stable fun _ knows => knows

/-- Opening all runs of a partition delivers what the attempt wrote to them. -/
theorem openRuns_meets {k p : Nat} {merged : List Nat} {published : Name → Prop} (below : p < opts.numReducers)
    (fresh : p ∉ merged) :
    Triple (rules terms me)
      (Knows terms contents own me { spilled := Unmerged opts k merged, published := published })
      (Program.each (fun path => call (.openFile (.file path))) (runNames opts k p))
      (Ends (fun _ => excuse) fun streams w =>
        List.Forall₂ (fun name => Partly terms.fallible (own name)) (runNames opts k p) streams ∧
        Knows terms contents own me { spilled := Unmerged opts k (merged ++ [p]), published := published } w) := by
  intro w knows
  refine Triple.post_of (Triple.collect
    (fun before (streams : List Stream) w => List.Forall₂ (fun name => Partly terms.fallible (own name)) before streams ∧
      Knows terms contents own me
        { spilled := fun name => Unmerged opts k merged name ∧ name ∉ before, published := published } w)
    (fun before _ => knows_stable.and) fun before name todo streams cut => .given fun read => ?_)
    (fun streams w ends => ?_) w ⟨.nil, knows.fewer (by simp) (by simp)⟩
  · have distinct := runNames_nodup opts k p
    have member : name ∈ runNames opts k p := by simp [cut]
    have new : name ∉ before := by
      rw [cut, List.nodup_append] at distinct
      exact fun old => distinct.2.2 name old name (by simp) rfl
    obtain ⟨n, inside, rfl⟩ := List.mem_map.mp member
    refine .post_of (openRun_meets weak rfl rfl ⟨⟨n, List.mem_range.mp inside, p, below, fresh, rfl⟩, new⟩)
      fun stream w ends => ⟨List.rel_append read (.cons ends.1 .nil), ends.2.fewer (fun other member => ?_) fun _ => id⟩
    obtain ⟨left, unopened⟩ := member
    rw [List.mem_append, List.mem_singleton, not_or] at unopened
    exact ⟨⟨left, unopened.1⟩, unopened.2⟩
  · refine ⟨ends.1, ends.2.fewer (fun name member => ?_) fun _ => id⟩
    obtain ⟨n, inside, q, bound, unmerged, rfl⟩ := member
    rw [List.mem_append, List.mem_singleton, not_or] at unmerged
    refine ⟨⟨n, inside, q, bound, unmerged.1, rfl⟩, fun opened => ?_⟩
    obtain ⟨_, _, same⟩ := List.mem_map.mp opened
    cases same
    exact unmerged.2 rfl

theorem mergePartition_meets {k p : Nat} {merged : List Nat} {spilled : List (List Name)} (below : p < opts.numReducers)
    (fresh : p ∉ merged) (paths : (spilled.filterMap fun paths => paths[p]?) = runNames opts k p)
    (good : ∀ content, mergeContents ((runNames opts k p).map own) = .ok content → terms.good (.part opts.taskID p) content)
    (unmergeable : ∀ e, mergeContents ((runNames opts k p).map own) = .error e → excuse) :
    Triple (rules terms me)
      (Knows terms contents own me { spilled := Unmerged opts k merged, published := Parts opts merged })
      (mergePartition opts spilled p)
      (Ends (fun _ => excuse) fun _ w => (∃ content, mergeContents ((runNames opts k p).map own) = .ok content) ∧
        Knows terms contents own me
          { spilled := Unmerged opts k (merged ++ [p]), published := Parts opts (merged ++ [p]) } w) := by
  unfold mergePartition
  rw [paths]
  refine .bind (openRuns_meets weak below fresh) fun streams => .given fun read => ?_
  generalize drained : Merger.drain { sources := streams.map Source.ofStream } = merging
  obtain ⟨records, err⟩ := merging
  -- Runs that have been read whole merge as planned.
  have whole (same : streams = (runNames opts k p).map fun name => { bytes := own name }) :
      Merger.drain { sources := ((runNames opts k p).map own).map fun bytes => Source.ofStream { bytes := bytes } } =
        (records, err) := by
    rw [← drained, same, List.map_map, List.map_map]
    rfl
  unfold mergeContents at good unmergeable ⊢
  cases err with
  | some e =>
    have excused : excuse := by
      rcases partly_all read with same | ⟨failing, _⟩
      · exact unmergeable e (by rw [whole same])
      · exact weak failing
    have failing : Triple (rules terms me)
        (Knows terms contents own me { spilled := Unmerged opts k (merged ++ [p]), published := Parts opts merged })
        (Storage.writeAtomic (Storage.intermediatePath opts.taskID p) fun file => do
          let _ ← Program.fold Writer.writeOrFail { file := file } records
          Program.fail e)
        (Ends (fun _ => excuse) fun (_ : Unit) _ => False) := by
      refine .post_of (writeAtomic_meets weak (fun _ _ => False) rfl rfl (fun serial w knows => ?_) nofun nofun)
        fun _ _ ends => ends.1.elim fun _ => id
      refine Triple.bind (writeAll_meets weak rfl _ records) (fun writer => ?_) w ⟨rfl, Or.inl ⟨rfl, [], rfl, knows⟩⟩
      exact .fail fun _ _ => excused
    exact .bind failing fun _ w impossible => impossible.elim
  | none =>
    have planned : Merger.drain
        { sources := ((runNames opts k p).map own).map fun bytes => Source.ofStream { bytes := bytes } } =
          (records, none) := by
      rcases partly_all read with same | ⟨_, stream, member, broken⟩
      · exact whole same
      · exact absurd (drain_readErr (congrArg Prod.snd drained) member) broken
    have visible := isSpill_part opts.taskID p
    rw [planned] at good ⊢
    refine .bind (writeRecords_meets weak rfl rfl (good _ rfl) fun spill => ?_) fun _ => ?_
    · rw [Storage.intermediatePath, visible] at spill
      cases spill
    · refine .post_of (count_meets weak _ _) fun _ w knows => ⟨⟨_, rfl⟩, ?_⟩
      rw [Holding.publish, Storage.intermediatePath, if_neg (by simp)] at knows
      exact knows.fewer (fun _ => id) fun name => (parts_concat ..).mp

/-- After the merge the runs are removed, whether or not they are still there. -/
theorem mergeSpills_meets {k : Nat} {r : Runner} (spilled : r.spilled =
      (List.range k).map fun n => (List.range opts.numReducers).map fun p => .spill opts.taskID n p)
    (good : ∀ p < opts.numReducers, ∀ content,
      mergeContents ((runNames opts k p).map own) = .ok content → terms.good (.part opts.taskID p) content)
    (unmergeable : ∀ p < opts.numReducers, ∀ e, mergeContents ((runNames opts k p).map own) = .error e → excuse) :
    Triple (rules terms me) (Knows terms contents own me { spilled := RunsUpTo opts k }) (mergeSpills opts r)
      (Ends (fun _ => excuse) fun _ w =>
        (∀ p < opts.numReducers, ∃ content, mergeContents ((runNames opts k p).map own) = .ok content) ∧
        Knows terms contents own me { published := Parts opts (List.range opts.numReducers) } w) := by
  have paths {p : Nat} (below : p < opts.numReducers) :
      (r.spilled.filterMap fun paths => paths[p]?) = runNames opts k p := by
    simp [spilled, runNames, List.filterMap_map, List.getElem?_range below]
  have merges : Triple (rules terms me) (Knows terms contents own me { spilled := RunsUpTo opts k })
      (Program.each (mergePartition opts r.spilled) (List.range opts.numReducers))
      (Ends (fun _ => excuse) fun _ w =>
        (∀ p < opts.numReducers, ∃ content, mergeContents ((runNames opts k p).map own) = .ok content) ∧
        Knows terms contents own me { published := Parts opts (List.range opts.numReducers) } w) := by
    intro w knows
    refine Triple.post_of (Triple.each (fun _ => ())
      (fun before w => (∀ p ∈ before, ∃ content, mergeContents ((runNames opts k p).map own) = .ok content) ∧
        Knows terms contents own me { spilled := Unmerged opts k before, published := Parts opts before } w)
      (fun before => knows_stable.and) fun before p todo cut => .given fun merged => ?_) (fun _ w ends => ?_) w ⟨nofun, ?_⟩
    · have inside : p < opts.numReducers := by
        rw [← List.mem_range, cut]
        simp
      have fresh : p ∉ before := by
        have distinct := List.nodup_range (n := opts.numReducers)
        rw [cut, List.nodup_append] at distinct
        exact fun old => distinct.2.2 p old p (by simp) rfl
      refine .post_of (mergePartition_meets weak inside fresh (paths inside) (good p inside) (unmergeable p inside))
        fun _ w ends => ⟨rfl, fun q member => ?_, ends.2⟩
      rcases List.mem_append.mp member with old | new
      · exact merged q old
      · cases List.mem_singleton.mp new
        exact ends.1
    · exact ⟨fun p below => ends.2.1 p (List.mem_range.mpr below), ends.2.2.fewer nofun fun _ => id⟩
    · refine knows.fewer (fun name member => ?_) (by simp [Parts])
      obtain ⟨n, inside, p, below, _, rfl⟩ := member
      exact ⟨n, inside, p, below, rfl⟩
  refine .bind merges fun _ => .given fun merged => ?_
  intro w knows
  refine Triple.bind (Triple.each (fun _ => ())
    (fun _ => Knows terms contents own me { published := Parts opts (List.range opts.numReducers) })
    (fun _ => knows_stable) fun before name todo cut => ?_) (fun _ => .given fun _ => ?_) w knows
  · have member : name ∈ r.spilled.flatten := by simp [cut]
    have spill : (Path.file name).isSpill = true := by
      simp only [spilled, List.mem_flatten, List.mem_map] at member
      obtain ⟨_, ⟨n, _, rfl⟩, member⟩ := member
      obtain ⟨p, _, rfl⟩ := List.mem_map.mp member
      exact isSpill_spill ..
    refine .bind (tryRemove_meets spill) fun _ => ?_
    exact .pure knows_stable fun _ knows => ⟨rfl, knows⟩
  · exact .pure knows_stable fun _ knows => ⟨merged, knows⟩

theorem removeStaleSpills_meets :
    Triple (rules terms me) (Knows terms contents own me {}) (removeStaleSpills opts)
      (Ends (fun _ => excuse) fun _ => Knows terms contents own me {}) := by
  refine .bind (readDir_meets weak _) fun entries => ?_
  intro w knows
  refine Triple.bind (Triple.each (fun _ => ())
    (fun before => Knows terms contents own me { listed := (entries.filter Path.isSpill).drop before.length })
    (fun _ => knows_stable) fun before path todo cut => ?_) (fun _ => .given fun _ => ?_) w knows
  · have here : (entries.filter Path.isSpill).drop before.length = path :: todo := by simp [cut]
    have next : (entries.filter Path.isSpill).drop (before ++ [path]).length = todo := by simp [cut]
    rw [here, next]
    exact .post_of (remove_meets weak path todo) fun _ _ knows => ⟨rfl, knows⟩
  · rw [List.drop_length]
    exact .pure knows_stable fun _ knows => knows

end Finish

section Whole
variable {terms : Terms} {opts : Options} {contents : GoString → Option GoString} {me : Nat} {excuse : Prop}

theorem own_runNames (p : Nat) : (runNames opts (runs opts contents).length p).map (ownRun opts contents) =
    (runs opts contents).map fun run => Record.encodeAll (outputOf opts run p) := by
  refine List.ext_getElem (by simp [runNames]) fun n inside _ => ?_
  simp only [runNames, List.map_map, List.length_map, List.length_range] at inside
  simp [runNames, ownRun, spillContent, List.getElem?_eq_getElem inside]

variable (weak : terms.fallible → excuse)
  (goodRuns : ∀ n < (runs opts contents).length, ∀ p < opts.numReducers,
    terms.good (.spill opts.taskID n p) (spillContent opts contents n p))
  (goodParts : ∀ p < opts.numReducers, ∀ content, partContent opts contents p = .ok content →
    terms.good (.part opts.taskID p) content)
  (infeasible : ¬ Feasible opts contents → excuse)
include weak goodRuns infeasible

theorem consumeAll_meets :
    Triple (rules terms me) (Knows terms contents (ownRun opts contents) me {})
      (Program.fold (consume opts) {} opts.inputFiles)
      (Ends (fun _ => excuse) fun r w => (∀ path ∈ opts.inputFiles, Readable contents path) ∧
        r = runnerAt opts (emissions opts contents) ∧
        Knows terms contents (ownRun opts contents) me { spilled := RunsUpTo opts r.spills } w) := by
  intro w knows
  refine Triple.fold (fun before r w => (∀ path ∈ before, Readable contents path) ∧
      r = runnerAt opts (before.flatMap (emissionsOf opts contents)) ∧
      Knows terms contents (ownRun opts contents) me { spilled := RunsUpTo opts r.spills } w)
    (fun _ _ => knows_stable.and.and) (fun before path todo r cut => .given fun read => .given ?_) w
    ⟨nofun, rfl, knows.fewer (by simp [RunsUpTo]) nofun⟩
  rintro rfl
  refine .post_of (consume_meets weak goodRuns cut infeasible) fun r w ends => ?_
  refine ⟨fun other member => ?_, ends.2⟩
  rcases List.mem_append.mp member with old | new
  · exact read other old
  · cases List.mem_singleton.mp new
    exact ends.1

include goodParts

theorem runFrom_meets :
    Triple (rules terms me) (Knows terms contents (ownRun opts contents) me {}) (runFrom opts)
      (Ends (fun _ => excuse) fun _ w => Feasible opts contents ∧
        Knows terms contents (ownRun opts contents) me { published := Parts opts (List.range opts.numReducers) } w) := by
  refine .bind (mkdirAll_meets weak _) fun _ => ?_
  refine .bind (removeStaleSpills_meets weak) fun _ => ?_
  refine .bind (consumeAll_meets weak goodRuns infeasible) fun r => .given fun readable => .given ?_
  rintro rfl
  have spills : (runnerAt opts (emissions opts contents)).spills = (planned opts contents).runs.length := rfl
  have merge (r : Runner) (spilled : r.spilled = (List.range (runs opts contents).length).map fun n =>
        (List.range opts.numReducers).map fun p => .spill opts.taskID n p) (nonempty : runs opts contents ≠ []) :
      Triple (rules terms me)
        (Knows terms contents (ownRun opts contents) me { spilled := RunsUpTo opts (runs opts contents).length })
        (mergeSpills opts r)
        (Ends (fun _ => excuse) fun _ w => Feasible opts contents ∧
          Knows terms contents (ownRun opts contents) me { published := Parts opts (List.range opts.numReducers) } w) := by
    have content (p : Nat) : partContent opts contents p =
        mergeContents ((runNames opts (runs opts contents).length p).map (ownRun opts contents)) := by
      rw [partContent, if_neg nonempty, own_runNames]
    refine .post_of (mergeSpills_meets weak spilled (fun p below c merged => ?_) fun p below e failed => ?_)
      fun _ w ends => ⟨⟨readable, fun p below => ?_⟩, ends.2⟩
    · exact goodParts p below c ((content p).trans merged)
    · refine infeasible fun feasible => ?_
      obtain ⟨c, merged⟩ := feasible.mergeable p below
      rw [content, failed] at merged
      cases merged
    · obtain ⟨c, merged⟩ := ends.1 p below
      exact ⟨c, (content p).trans merged⟩
  split
  next unspilled =>
    have nothing : runs opts contents = [] := by
      have empty : (planned opts contents).runs = [] := by simpa [runnerAt, planned] using unspilled
      simp [runs, empty]
    have content (p : Nat) : partContent opts contents p =
        .ok (Record.encodeAll (outputOf opts (planned opts contents).buffer p)) := by
      rw [partContent, if_pos nothing]
    intro w knows
    refine Triple.post_of (writeFinal_meets weak _ fun p below => goodParts p below _ (content p))
      (fun _ w knows => ⟨⟨readable, fun p _ => ⟨_, content p⟩⟩, knows⟩) w (knows.fewer ?_ ?_)
    · intro name absent
      cases absent
    · intro name absent
      cases absent
  next spilled =>
    have nonempty : (planned opts contents).runs ≠ [] := by
      intro empty
      exact spilled (by simpa [runnerAt, planned] using empty)
    by_cases left : (runnerAt opts (emissions opts contents)).buffer = []
    · have same : runs opts contents = (planned opts contents).runs := by
        have empty : (planned opts contents).buffer = [] := left
        simp [runs, empty]
      rw [if_neg (not_not.mpr left)]
      rw [spills, ← same]
      exact merge _ (by rw [same]; rfl) (same ▸ nonempty)
    · have same : runs opts contents = (planned opts contents).runs ++ [(planned opts contents).buffer] := by
        have filled : (planned opts contents).buffer ≠ [] := left
        simp [runs, nonempty, filled]
      have count : (runs opts contents).length = (planned opts contents).runs.length + 1 := by simp [same]
      rw [if_pos left]
      have last : (runs opts contents).getD (planned opts contents).runs.length [] = (planned opts contents).buffer := by
        simp [same]
      refine .bind (spill_meets weak _ left (fun p _ => ?_) fun p below => ?_) fun r => .given ?_
      · exact congrArg (fun run => Record.encodeAll (outputOf opts run p)) last
      · exact goodRuns _ (by rw [spills, count]; exact Nat.lt_succ_self _) p below
      · rintro rfl
        rw [spills, ← count]
        refine merge _ ?_ (by simp [same])
        simp [count, List.range_succ, runnerAt, planned]

end Whole

/-- An attempt publishes the planned parts or has an excuse. -/
theorem run_meets {terms : Terms} {opts : Options} {contents : GoString → Option GoString} {me : Nat} {excuse : Prop}
    (weak : terms.fallible → excuse) (few : opts.numReducers < 1 → excuse)
    (goodRuns : ∀ n < (runs (effective opts) contents).length, ∀ p < opts.numReducers,
      terms.good (.spill opts.taskID n p) (spillContent (effective opts) contents n p))
    (goodParts : ∀ p < opts.numReducers, ∀ content, partContent (effective opts) contents p = .ok content →
      terms.good (.part opts.taskID p) content)
    (infeasible : ¬ Feasible (effective opts) contents → excuse) :
    Triple (rules terms me) (Knows terms contents (ownRun (effective opts) contents) me {}) (Mapper.run opts)
      (Ends (fun _ => excuse) fun _ w => Feasible (effective opts) contents ∧
        Knows terms contents (ownRun (effective opts) contents) me
          { published := Parts opts (List.range opts.numReducers) } w) := by
  unfold Mapper.run
  split
  next unreduced => exact .fail fun _ _ => few unreduced
  next =>
    refine .post_of (runFrom_meets weak (by simpa using goodRuns) (by simpa using goodParts) infeasible)
      fun _ w ends => ⟨ends.1, ends.2.fewer (fun _ => id) fun name member => ?_⟩
    simpa [Parts] using member

end FromScratch.Proofs.MapAttempt
