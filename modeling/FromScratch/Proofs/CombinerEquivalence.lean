import FromScratch.Proofs.ScheduleIndependence
import FromScratch.Proofs.SpillOrder

/-! A combiner that respects the reducer is not seen in the output. It is handed
the values of a key batch by batch, so the reducer gets the same values in groups
that have been combined. -/

namespace FromScratch.Proofs.CombinerEquivalence
open FromScratch.MapReduce Mapper Cluster Lib Program AttemptRules MapPlan MapAttempt MapOutput Codec MergeOrder SpillOrder
open ReduceAttempt ReduceOutput JobRuns PipelineCorrectness ScheduleIndependence

section Combining
variable {combine : Combiner} {records : List Record}

def combined (combine : Combiner) (call : GoString × List GoString) : GoString × List GoString :=
  (call.1, combine call.1 call.2)

theorem flush_spread (call : GoString × List GoString) : flush combine call.1 call.2 = spread [combined combine call] := by
  simp [flush, spread, combined]

/-- The loops of `applyCombiner` and of the reduce task make the same groups. -/
theorem combineFrom_gather (closed : Reducer.Calls) (key : GoString) (values : List GoString) :
    spread (closed.map (combined combine)) ++ combineFrom combine key values records =
      spread (((records.foldl gather ⟨closed, some (key, values)⟩).closed ++
        (records.foldl gather ⟨closed, some (key, values)⟩).group.toList).map (combined combine)) := by
  induction records generalizing closed key values with
  | nil =>
    rw [combineFrom, flush_spread (key, values)]
    simp [spread]
  | cons record records ih =>
    rw [combineFrom, List.foldl_cons, gather]
    simp only
    split
    next =>
      rw [← ih, flush_spread (key, values)]
      simp [spread]
    next => rw [← ih]

theorem applyCombiner_groups : applyCombiner (some combine) records = spread ((groups records).map (combined combine)) := by
  cases records with
  | nil => rfl
  | cons record records =>
    have loop := @combineFrom_gather combine records [] record.key [record.value]
    rw [applyCombiner, combineFrom, if_neg (not_not.mpr rfl)]
    exact loop

theorem combined_ascending (ordered : Ordered records) : ((groups records).map (combined combine)).Pairwise fun a b =>
    a.1 < b.1 :=
  List.pairwise_map.mpr (groups_ascending ordered)

theorem spread_ordered {calls : Reducer.Calls} (ascending : calls.Pairwise fun a b => a.1 < b.1) :
    Ordered (spread calls) := by
  refine List.pairwise_flatMap.mpr ⟨fun call _ => ?_, ascending.imp fun below => ?_⟩
  · exact List.pairwise_map.mpr (List.pairwise_of_forall fun _ _ => le_refl call.1)
  · intro first inside second later
    obtain ⟨_, _, rfl⟩ := List.mem_map.mp inside
    obtain ⟨_, _, rfl⟩ := List.mem_map.mp later
    exact le_of_lt below

/-- The values a combiner leaves of those of a key. -/
def combinedValues (combiner : Option Combiner) (key : GoString) (values : List GoString) : List GoString :=
  match combiner with
  | none => values
  | some combine => if values = [] then [] else combine key values

def valuesOf (key : GoString) (records : List Record) : List GoString :=
  (records.filter fun r => r.key == key).map Record.value

theorem applyCombiner_values (ordered : Ordered records) (combiner : Option Combiner) (key : GoString) :
    valuesOf key (applyCombiner combiner records) = combinedValues combiner key (valuesOf key records) := by
  cases combiner with
  | none => rfl
  | some combine =>
    rw [applyCombiner_groups, combinedValues]
    have named (found : ∃ r ∈ spread ((groups records).map (combined combine)),
      r.key = key) : ∃ call ∈ groups records, call.1 = key := by
      obtain ⟨r, member, rfl⟩ := found
      obtain ⟨_, listed, same, _⟩ := mem_spread.mp member
      obtain ⟨call, inside, rfl⟩ := List.mem_map.mp listed
      exact ⟨call, inside, same⟩
    split
    next empty =>
      have absent := List.map_eq_nil_iff.mp empty
      refine List.map_eq_nil_iff.mpr (List.filter_eq_nil_iff.mpr fun r member same => ?_)
      obtain ⟨call, inside, rfl⟩ := named ⟨r, member, beq_iff_eq.mp same⟩
      obtain ⟨record, listed, same⟩ := (groups_keys records call.1).mp (List.mem_map_of_mem inside)
      exact List.filter_eq_nil_iff.mp absent record listed (beq_iff_eq.mpr same)
    next filled =>
      obtain ⟨r, member⟩ := List.exists_mem_of_ne_nil _ fun absent => filled (List.map_eq_nil_iff.mpr absent)
      obtain ⟨inside, same⟩ := List.mem_filter.mp member
      obtain ⟨call, listed, rfl⟩ := List.mem_map.mp ((groups_keys records key).mpr ⟨r, inside, beq_iff_eq.mp same⟩)
      have all : valuesOf call.1 records = call.2 := groups_values ordered listed
      rw [all]
      exact filter_spread (combined_ascending ordered) (List.mem_map_of_mem listed)

theorem applyCombiner_ordered (ordered : Ordered records) (combiner : Option Combiner) :
    Ordered (applyCombiner combiner records) := by
  cases combiner with
  | none => exact ordered
  | some combine =>
    rw [applyCombiner_groups]
    exact spread_ordered (combined_ascending ordered)

end Combining

section Tasks
variable {opts : Options} {contents : GoString → Option GoString}

theorem outputOf_ordered (opts : Options) (buffer : List Record) (p : Nat) : Ordered (outputOf opts buffer p) :=
  applyCombiner_ordered ((sortBuffer_ordered buffer).filter _) opts.combiner

/-- Of each batch a partition file gets what the combiner leaves of a key's values. -/
theorem outputOf_values (opts : Options) (buffer : List Record) (p : Nat) (key : GoString) :
    valuesOf key (outputOf opts buffer p) =
    if Storage.partition key opts.numReducers =
      p then combinedValues opts.combiner key (valuesOf key (sortBuffer buffer)) else [] := by
  have sorted : Ordered (partitionBuffer opts.numReducers (sortBuffer buffer) p) := (sortBuffer_ordered buffer).filter _
  rw [outputOf, applyCombiner_values sorted, valuesOf, partitionBuffer, List.filter_filter]
  split
  next here =>
    refine congrArg (combinedValues opts.combiner key) (congrArg (List.map Record.value) (List.filter_congr fun r _ => ?_))
    by_cases same : r.key = key
    · simp [same, here]
    · simp [same]
  next elsewhere =>
    have empty : (sortBuffer buffer).filter
      (fun r => (r.key == key) && (Storage.partition r.key opts.numReducers == p)) = [] := by
      refine List.filter_eq_nil_iff.mpr fun r _ chosen => elsewhere ?_
      simp only [Bool.and_eq_true, beq_iff_eq] at chosen
      rw [← chosen.1, chosen.2]
    rw [empty]
    cases opts.combiner with
    | none => rfl
    | some combine => rfl

/-- All records that a task writes for a partition, batch by batch. -/
def written (opts : Options) (contents : GoString → Option GoString) (p : Nat) : List Record :=
  (batches opts contents).flatMap fun batch => outputOf opts batch p

/-- With or without a combiner a partition file lists what was written for it. -/
theorem partContent_written {p : Nat} (text : ∀ r ∈ written opts contents p, restored r = r)
    (short : ∀ r ∈ written opts contents p, Short r) :
    ∃ out, partContent opts contents p = .ok (Record.encodeAll out) ∧ out.Perm (written opts contents p) ∧ Ordered out := by
  unfold partContent written batches at *
  split
  next unspilled =>
    refine ⟨_, rfl, ?_, outputOf_ordered opts _ p⟩
    simp
  next spilled =>
    rw [if_neg spilled] at text short
    rcases merge_outputs opts (runs opts contents) p with ⟨out, merged, _, perm, ordered⟩ | ⟨e, _, long⟩
    · rw [← List.flatMap_def, map_restored text] at perm
      refine ⟨out, merged, perm, ordered fun run listed => ?_⟩
      rw [map_restored fun r inside => text r (List.mem_flatMap.mpr ⟨run, listed, inside⟩)]
      exact outputOf_ordered opts run p
    · exact absurd (fun run listed r inside => short r (List.mem_flatMap.mpr ⟨run, listed, inside⟩)) long

end Tasks

section Jobs
variable {job : Job} {contents : GoString → Option GoString}

/-- The values of a key in each batch of each map task, sorted. -/
def shares (job : Job) (contents : GoString → Option GoString) (key : GoString) : List (List GoString) :=
  ((List.range job.groups.length).flatMap fun m => batches (mapPlan job m) contents).map fun batch =>
    valuesOf key (sortBuffer batch)

theorem valuesOf_perm {records others : List Record} (perm : records.Perm others) (key : GoString) :
    (valuesOf key records).Perm (valuesOf key others) := (perm.filter _).map Record.value

theorem valuesOf_flatMap {α : Type} (items : List α) (f : α → List Record) (key : GoString) :
    valuesOf key (items.flatMap f) = items.flatMap fun item => valuesOf key (f item) := by
  rw [valuesOf, List.filter_flatMap, List.map_flatMap]
  rfl

/-- What the job writes for a partition can be read back. -/
def Written (job : Job) (contents : GoString → Option GoString) : Prop :=
  ∀ m < job.groups.length, ∀ p < job.numReducers, Legible (written (mapPlan job m) contents p)

theorem Written.merges (legible : Written job contents) {r : Nat} (below : r < job.numReducers) :
    (merged (job.reduceOptions r) (partOf job contents r)).2 = none ∧
      Ordered (merged (job.reduceOptions r) (partOf job contents r)).1 ∧
      (merged (job.reduceOptions r) (partOf job contents r)).1.Perm
        ((List.range job.groups.length).flatMap fun m => written (mapPlan job m) contents r) := by
  have part (m : Nat) : ∃ out, m < job.groups.length → partContent (mapPlan job m) contents r = .ok (Record.encodeAll out) ∧
      out.Perm (written (mapPlan job m) contents r) ∧ Ordered out := by
    by_cases inside : m < job.groups.length
    · have each := legible m inside r below
      obtain ⟨out, all⟩ := partContent_written (fun r member => restored_valid (each r member).1 (each r member).2.1)
        fun r member => (each r member).2.2
      exact ⟨out, fun _ => all⟩
    · exact ⟨[], fun within => absurd within inside⟩
  choose outs content using part
  have encoded : ∀ m < (job.reduceOptions r).numMappers, partOf job contents r m = Record.encodeAll (outs m) ∧
    Ordered (outs m) ∧
      ∀ record ∈ outs m, Short record ∧ restored record = record := by
    intro m inside
    obtain ⟨planned, perm, ordered⟩ := content m inside
    refine ⟨(partOf_planned planned).symm, ordered, fun record member => ?_⟩
    obtain ⟨key, value, short⟩ := legible m inside r below record (perm.subset member)
    exact ⟨short, restored_valid key value⟩
  obtain ⟨clean, all, ordered⟩ := merged_files encoded
  refine ⟨clean, ordered, all.trans (List.Perm.flatMap_left _ fun m member => ?_)⟩
  exact (content m (List.mem_range.mp member)).2.1

theorem Written.doable (legible : Written job contents)
    (readable : ∀ group ∈ job.groups, ∀ path ∈ group, Readable contents path) :
    Doable job contents := by
  refine ⟨fun m inside => ⟨fun path member => ?_, fun p below => ?_⟩, fun r below => (legible.merges below).1⟩
  · rw [mapPlan, effective_inputFiles] at member
    refine readable (job.groups.getD m []) ?_ path member
    rw [List.getD_eq_getElem _ _ inside]
    exact List.getElem_mem inside
  · rw [mapPlan, effective_numReducers] at below
    have each := legible m inside p below
    obtain ⟨out, planned, _⟩ := partContent_written (fun r member => restored_valid (each r member).1 (each r member).2.1)
      fun r member => (each r member).2.2
    exact ⟨_, planned⟩

theorem Written.values (legible : Written job contents) {r : Nat} (below : r < job.numReducers) (key : GoString) :
    (valuesOf key (merged (job.reduceOptions r) (partOf job contents r)).1).Perm
      (if Storage.partition key job.numReducers =
      r then (shares job contents key).flatMap (combinedValues job.combiner key) else []) := by
  refine (valuesOf_perm (legible.merges below).2.2 key).trans (.of_eq ?_)
  rw [valuesOf_flatMap]
  have each (m : Nat) : valuesOf key (written (mapPlan job m) contents r) =
      if Storage.partition key job.numReducers = r then
        (batches (mapPlan job m) contents).flatMap fun batch =>
          combinedValues job.combiner key (valuesOf key (sortBuffer batch))
      else [] := by
    have reducers : (mapPlan job m).numReducers = job.numReducers := effective_numReducers _
    have combiner : (mapPlan job m).combiner = job.combiner := effective_combiner _
    rw [written, valuesOf_flatMap]
    simp only [outputOf_values, reducers, combiner]
    split
    · rfl
    · simp
  simp only [each]
  split
  · rw [shares, List.flatMap_map, List.flatMap_assoc]
  · simp

end Jobs

section Reducers

/-- `Reduce` sees the multiset of its values only, and does not mind if groups of them
have been combined. -/
structure Combines (reducer : Reducer) (combine : Combiner) : Prop where
  filled : ∀ key values, values ≠ [] → combine key values ≠ []
  unordered : ∀ key {values others : List GoString}, values.Perm others → reducer key values = reducer key others
  grouped : ∀ key (groups : List (List GoString)), (∀ group ∈ groups, group ≠ []) →
    reducer key (groups.flatMap (combine key)) = reducer key groups.flatten

variable {reducer : Reducer} {combine : Combiner}

theorem combinedValues_groups (combine : Combiner) (key : GoString) (shares : List (List GoString)) :
    shares.flatMap (combinedValues (some combine) key) = (shares.filter (· ≠ [])).flatMap (combine key) := by
  induction shares with
  | nil => rfl
  | cons values shares ih =>
    rw [List.flatMap_cons, ih, List.filter_cons, combinedValues]
    split
    next empty => simp [empty]
    next filled => simp [filled]

theorem Combines.shares (combines : Combines reducer combine) (key : GoString) (shares : List (List GoString)) :
    reducer key (shares.flatMap (combinedValues (some combine) key)) = reducer key shares.flatten := by
  rw [combinedValues_groups, combines.grouped key _ fun group member => of_decide_eq_true (List.mem_filter.mp member).2,
    List.flatten_filter_ne_nil]

theorem Combines.empty_iff (combines : Combines reducer combine) (key : GoString) (shares : List (List GoString)) :
    shares.flatMap (combinedValues (some combine) key) = [] ↔ shares.flatten = [] := by
  rw [List.flatMap_eq_nil_iff, List.flatten_eq_nil_iff]
  refine forall₂_congr fun values _ => ?_
  rw [combinedValues]
  split
  next empty => simp [empty]
  next filled => exact iff_of_false (combines.filled key values filled) filled

/-- Records in order are answered by what each key's values are reduced to. -/
theorem answers_congr {found others : List Record} (ordered : Ordered found) (ordered' : Ordered others)
    (keys : ∀ key, valuesOf key found = [] ↔ valuesOf key others = [])
    (values : ∀ key, reducer key (valuesOf key found) = reducer key (valuesOf key others)) :
    answers reducer (groups found) = answers reducer (groups others) := by
  have each {records : List Record} (ordered : Ordered records) : answers reducer (groups records) =
      ((groups records).map Prod.fst).flatMap fun key => (reducer key (valuesOf key records)).map fun value =>
        ⟨key, value⟩ := by
    rw [answers, List.flatMap_map]
    refine List.flatMap_congr fun call member => ?_
    rw [answer, valuesOf, groups_values ordered member]
  have listed (records : List Record) (key : GoString) : key ∈ (groups records).map Prod.fst ↔
    valuesOf key records ≠ [] := by
    rw [groups_keys, valuesOf, ne_eq, List.map_eq_nil_iff, List.filter_eq_nil_iff]
    simp
  have ascending {records : List Record} (ordered : Ordered records) : ((groups records).map Prod.fst).Pairwise (· < ·) :=
    List.pairwise_map.mpr (groups_ascending ordered)
  have perm : ((groups found).map Prod.fst).Perm ((groups others).map Prod.fst) := by
    refine (List.perm_ext_iff_of_nodup ((ascending ordered).imp ne_of_lt)
      ((ascending ordered').imp ne_of_lt)).mpr fun key => ?_
    rw [listed, listed, ne_eq, ne_eq, keys]
  have same := perm.eq_of_pairwise (fun _ _ _ _ below above => absurd above (lt_asymm below)) (ascending ordered)
    (ascending ordered')
  rw [each ordered, each ordered', same]
  exact List.flatMap_congr fun key _ => by rw [values]

end Reducers

section Answer
variable {job : Job} {contents : GoString → Option GoString} {combine : Combiner}

/-- The job without its combiner. -/
def uncombined (job : Job) : Job := { job with combiner := none }

theorem batches_uncombined (m : Nat) : batches (mapPlan (uncombined job) m) contents = batches (mapPlan job m) contents := by
  by_cases small : (job.mapOptions m).spillBytes < 1024
  · have small' : ((uncombined job).mapOptions m).spillBytes < 1024 := small
    rw [mapPlan, mapPlan, effective, effective, if_pos small, if_pos small']
    rfl
  · have large : ¬((uncombined job).mapOptions m).spillBytes < 1024 := small
    rw [mapPlan, mapPlan, effective, effective, if_neg small, if_neg large]
    rfl

theorem shares_uncombined (key : GoString) : shares (uncombined job) contents key = shares job contents key := by
  rw [shares, shares, List.flatMap_congr fun m _ => batches_uncombined m]
  rfl

/-- What a job writes without a combiner is what its mapper emits. -/
theorem written_uncombined {files : List GoString} (legible : Legible (emitted job.mapper contents files))
    (dealt : ∀ group ∈ job.groups, ∀ path ∈ group, path ∈ files) : Written (uncombined job) contents := by
  intro m inside p below r member
  have plain : (mapPlan (uncombined job) m).combiner = none := effective_combiner _
  obtain ⟨batch, listed, output⟩ := List.mem_flatMap.mp member
  have buffered := List.mem_of_mem_filter ((outputOf_routed plain batch p).subset output)
  have all := List.mem_flatten_of_mem listed buffered
  rw [batches_flatten, emissions_flatten, mapPlan, effective_mapper, effective_inputFiles] at all
  obtain ⟨path, from', emits⟩ := List.mem_flatMap.mp all
  have group : job.groups.getD m [] ∈ job.groups := by
    have inside : m < job.groups.length := inside
    rw [List.getD_eq_getElem _ _ inside]
    exact List.getElem_mem inside
  exact legible r (List.mem_flatMap.mpr ⟨path, dealt _ group path from', emits⟩)

theorem reduceContent_uncombined (combiner : job.combiner = some combine) (combines : Combines job.reducer combine)
    (legible : Written job contents) (plain : Written (uncombined job) contents) {r : Nat} (below : r < job.numReducers) :
    reduceContent (job.reduceOptions r) (partOf job contents r) =
      reduceContent ((uncombined job).reduceOptions r) (partOf (uncombined job) contents r) := by
  have values (key : GoString) := legible.values below key
  rw [combiner] at values
  have others (key : GoString) : (valuesOf key
    (merged ((uncombined job).reduceOptions r) (partOf (uncombined job) contents r)).1).Perm
      (if Storage.partition key job.numReducers = r then (shares job contents key).flatten else []) := by
    have perm := plain.values below key
    have identity : combinedValues (uncombined job).combiner key = id := rfl
    rw [shares_uncombined, identity, List.flatMap_id] at perm
    exact perm
  obtain ⟨clean, ordered, _⟩ := legible.merges below
  obtain ⟨clean', ordered', _⟩ := plain.merges below
  have same : answers job.reducer (groups (merged (job.reduceOptions r) (partOf job contents r)).1) =
      answers job.reducer (groups (merged ((uncombined job).reduceOptions r) (partOf (uncombined job) contents r)).1) := by
    refine answers_congr ordered ordered' (fun key => ?_) fun key => ?_
    · rw [← List.perm_nil, ← List.perm_nil, (values key).congr_left, (others key).congr_left]
      by_cases here : Storage.partition key job.numReducers = r
      · rw [if_pos here, if_pos here, List.perm_nil, List.perm_nil]
        exact combines.empty_iff key _
      · rw [if_neg here, if_neg here]
    · rw [combines.unordered key (values key), combines.unordered key (others key)]
      by_cases here : Storage.partition key job.numReducers = r
      · rw [if_pos here, if_pos here]
        exact combines.shares key _
      · rw [if_neg here, if_neg here]
  unfold reduceContent
  generalize merged (job.reduceOptions r) (partOf job contents r) = pair at clean same
  generalize merged ((uncombined job).reduceOptions r) (partOf (uncombined job) contents r) = pair' at clean' same
  obtain ⟨records, err⟩ := pair
  obtain ⟨records', err'⟩ := pair'
  cases clean
  cases clean'
  exact congrArg (fun records => Except.ok (Record.encodeAll records)) same

/-- A combiner that respects the reducer leaves the outputs as they are, for a single
process and for every cluster that brings both jobs to an end. -/
theorem combiner_unobservable (disk : FiniteMap Path GoString) (files : List GoString) (numMappers : Int) (job : Job)
    (combine : Combiner) (groups : job.groups = Storage.splitFiles files numMappers) (combiner : job.combiner = some combine)
    (mappers : 1 ≤ numMappers) (reducers : 1 ≤ job.numReducers) (combines : Combines job.reducer combine)
    (emits : Legible (emitted job.mapper (inputs disk) files)) (writes : Written job (inputs disk)) :
    ((∀ path ∈ files, Readable (inputs disk) path) → ∃ results results' w w',
      job.alone { files := disk } = (.ok results, w) ∧ (uncombined job).alone { files := disk } = (.ok results', w') ∧
        ∀ r < job.numReducers, w.files.lookup (.file (.out r)) = w'.files.lookup (.file (.out r)) ∧
          (files ≠ [] → (w.files.lookup (.file (.out r))).isSome)) ∧
    ∀ cfg now s cfg' now' s', ReachesLineWise job (Cluster.start job cfg now disk) s → s.coordinator.doneClosed →
      s.coordinator.err = none →
      ReachesLineWise (uncombined job) (Cluster.start (uncombined job) cfg' now' disk) s' → s'.coordinator.doneClosed →
      s'.coordinator.err = none → ∀ r < job.numReducers, ∃ content,
        s.world.files.lookup (.file (.out r)) = some content ∧ s'.world.files.lookup (.file (.out r)) = some content := by
  have dealt := FileGroups.splitFiles_flatten files numMappers
  rw [← groups] at dealt
  have listed : ∀ group ∈ job.groups, ∀ path ∈ group, path ∈ files :=
    fun group member path inside => dealt.subset (List.mem_flatten_of_mem member inside)
  have plain := written_uncombined emits listed
  refine ⟨fun readable => ?_, fun cfg now s cfg' now' s' reached closed fine reached' closed' fine' r below => ?_⟩
  · have each : ∀ group ∈ job.groups, ∀ path ∈ group, Readable (inputs disk) path :=
      fun group member path inside => readable path (listed group member path inside)
    by_cases empty : job.groups = []
    · have nothing : files = [] := List.perm_nil.mp (by rw [empty] at dealt; exact dealt.symm)
      have empty' : (uncombined job).groups = [] := empty
      exact ⟨_, _, _, _, alone_empty empty _, alone_empty empty' _, fun r _ => ⟨rfl, fun filled => absurd nothing filled⟩⟩
    · obtain ⟨w, done, outputs⟩ := alone_done disk (writes.doable each) empty reducers
      have plainDoable : Doable (uncombined job) (inputs disk) := plain.doable each
      obtain ⟨w', done', outputs'⟩ := alone_done disk plainDoable empty reducers
      refine ⟨_, _, w, w', done, done', fun r below => ?_⟩
      obtain ⟨content, planned, present⟩ := outputs r below
      obtain ⟨content', planned', present'⟩ := outputs' r below
      rw [reduceContent_uncombined combiner combines writes plain below] at planned
      cases planned.symm.trans planned'
      rw [present, present']
      exact ⟨rfl, fun _ => rfl⟩
  · obtain ⟨content, planned, present⟩ := outputs_kept reached closed fine .refl below
    have below' : r < (uncombined job).numReducers := below
    obtain ⟨content', planned', present'⟩ := outputs_kept reached' closed' fine' .refl below'
    rw [reduceContent_uncombined combiner combines writes plain below] at planned
    cases planned.symm.trans planned'
    exact ⟨content, present, present'⟩

end Answer

section Counting

/-- The marks of all values together. -/
def addMarks (_ : GoString) (values : List GoString) : List GoString := [List.replicate values.flatten.length 49]

theorem addMarks_combines : Combines addMarks addMarks := by
  refine ⟨fun _ _ _ => List.cons_ne_nil _ _, fun _ values others perm => ?_, fun key groups _ => ?_⟩
  · rw [addMarks, addMarks, perm.flatten.length_eq]
  · have lengths : ((groups.flatMap (addMarks key)).flatten).length = groups.flatten.flatten.length := by
      induction groups with
      | nil => rfl
      | cons group groups ih => simp_all [addMarks]
    rw [addMarks, addMarks, lengths]

/-- One map task reads both files, so that a word of both is combined. -/
def countJob : Job :=
  { wordJob with groups := Storage.splitFiles [[97], [98]] 1, combiner := some addMarks, reducer := addMarks }

theorem countJob_written : Written countJob (inputs wordDisk) := by
  have first : written (mapPlan countJob 0) (inputs wordDisk) 0 = [⟨[121], [49]⟩] := by decide +kernel
  have second : written (mapPlan countJob 0) (inputs wordDisk) 1 = [⟨[120], [49, 49]⟩] := by decide +kernel
  intro m inside p below
  obtain rfl : m = 0 := Nat.lt_one_iff.mp inside
  have either : p = 0 ∨ p = 1 := by
    have below : p < 2 := below
    omega
  rcases either with rfl | rfl
  · rw [first]
    intro record member
    cases List.mem_singleton.mp member
    exact ⟨⟨['y'], by decide⟩, ⟨['1'], by decide⟩, by simp [Short]; decide⟩
  · rw [second]
    intro record member
    cases List.mem_singleton.mp member
    exact ⟨⟨['x'], by decide⟩, ⟨['1', '1'], by decide⟩, by simp [Short]; decide⟩

theorem combiner_unobservable_count : ∃ results results' w w',
    countJob.alone { files := wordDisk } = (.ok results, w) ∧ (uncombined countJob).alone { files := wordDisk } =
      (.ok results', w') ∧
      ∀ r < countJob.numReducers, w.files.lookup (.file (.out r)) = w'.files.lookup (.file (.out r)) ∧
        (([[97], [98]] : List GoString) ≠ [] → (w.files.lookup (.file (.out r))).isSome) :=
  (combiner_unobservable wordDisk [[97], [98]] 1 countJob addMarks rfl rfl
    (by decide) (by decide) addMarks_combines wordJob_legible
    countJob_written).1 wordDisk_readable

end Counting
end FromScratch.Proofs.CombinerEquivalence
