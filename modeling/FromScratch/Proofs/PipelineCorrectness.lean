import Mathlib.Data.List.Perm.Basic
import FromScratch.Proofs.FileGroups
import FromScratch.Proofs.JobRuns
import FromScratch.Proofs.MapOutput
import FromScratch.Proofs.ReduceOutput

/-! A job run by one process without faults: every key is reduced once, in the
task its hash names, with all its values. -/

namespace FromScratch.Proofs.PipelineCorrectness
open FromScratch.MapReduce Lib Program AttemptRules MapPlan MapAttempt MapOutput ReduceAttempt ReduceOutput Codec
  MergeOrder JobRuns

section Alone
variable {job : Job} {contents : GoString → Option GoString}

/-- The only process there is meets no fault and disturbs nobody. -/
theorem run_alone {α : Type} {terms : Terms} {program : Attempt α} {post : Except Err α → World → Prop}
    (allows : ∀ w request, (∀ other, other ≠ 0 → (w.notes other).needs = []) → terms.allowed w 0 request) {w : World}
    (alone : ∀ other, other ≠ 0 → (w.notes other).needs = []) (safe : program.Safe (rules terms 0) post w) :
    post (program.run (fun w request => w.perform 0 request) w).1
      (program.run (fun w request => w.perform 0 request) w).2 := by
  have follows (w : World) (request : Request) (alone : ∀ other, other ≠ 0 → (w.notes other).needs = []) :
      (rules terms 0).exec w request (w.perform 0 request).1 (w.perform 0 request).2 ∧
        ∀ other, other ≠ 0 → ((w.perform 0 request).2.notes other).needs = [] := by
    refine ⟨⟨allows w request alone, Or.inl rfl⟩, fun other different => ?_⟩
    rw [perform_notes_of_ne w 0 different request]
    exact alone other different
  exact (safe.run follows alone).1

theorem alone_meets {value : List (Except Err Unit) × List (Except Err Reducer.Calls) → World → Prop} {pre : World → Prop}
    (triple : Triple (rules (jobTerms job contents False) 0) pre job.sequence (Ends (fun _ => False) value)) {w : World}
    (alone : ∀ other, other ≠ 0 → (w.notes other).needs = []) (holds : pre w) :
    ∃ results w', job.alone w = (.ok results, w') ∧ value results w' := by
  have ends := run_alone (fun _ _ => Or.inr) alone (triple w holds)
  unfold Job.alone
  generalize job.sequence.run (fun w request => w.perform 0 request) w = final at ends
  obtain ⟨result, w'⟩ := final
  cases result with
  | error e => exact ends.elim
  | ok results => exact ⟨results, w', rfl, ends⟩

/-- Alone, a job whose tasks can be done is done. -/
theorem alone_done (disk : FiniteMap Path GoString) (doable : Doable job (inputs disk)) (filled : job.groups ≠ [])
    (reducers : 1 ≤ job.numReducers) :
    ∃ w', job.alone { files := disk } = (.ok ((List.range job.groups.length).map (fun _ => .ok ()),
        (List.range job.numReducers).map fun r => .ok (callsOf job (inputs disk) r)), w') ∧
      ∀ r < job.numReducers, ∃ content, reduceContent (job.reduceOptions r) (partOf job (inputs disk) r) = .ok content ∧
        w'.files.lookup (.file (.out r)) = some content := by
  obtain ⟨results, w', same, ⟨maps, reduces⟩, disk⟩ := alone_meets (sequence_meets doable filled reducers)
    (w := { files := disk }) (fun _ _ => rfl) ⟨fun _ => rfl, nofun⟩
  refine ⟨w', ?_, fun r below => ?_⟩
  · rw [same, ← maps, ← reduces]
  · obtain ⟨_, content, found, good⟩ := disk.published (.out r) ⟨r, below, rfl⟩
    exact ⟨content, good, found⟩

end Alone

section Keys
variable {job : Job} {contents : GoString → Option GoString}

theorem partition_lt (key : GoString) {numReducers : Nat} (reducers : 1 ≤ numReducers) :
    Storage.partition key numReducers < numReducers := by
  unfold Storage.partition
  split
  next => omega
  next =>
    rw [UInt32.toNat_mod, UInt32.toNat_ofNat']
    by_cases wraps : numReducers % 2 ^ 32 = 0
    · have bound := (Storage.fnv32a key).toNat_lt
      rw [wraps, Nat.mod_zero]
      omega
    · exact (Nat.mod_lt _ (Nat.pos_of_ne_zero wraps)).trans_le (Nat.mod_le _ _)

/-- Every record a job emits is text and short enough to be read back. -/
def Legible (records : List Record) : Prop :=
  ∀ r ∈ records, GoString.ValidUtf8 r.key ∧ GoString.ValidUtf8 r.value ∧ Short r

theorem Legible.parts {files : List GoString} (legible : Legible (emitted job.mapper contents files))
    (plain : job.combiner = none)
    {m : Nat} (from' : ∀ path ∈ job.groups.getD m [], path ∈ files) (p : Nat) :
    ∃ out, partContent (mapPlan job m) contents p = .ok (Record.encodeAll out) ∧ Ordered out ∧
      out.Perm ((emitted job.mapper contents (job.groups.getD m [])).filter fun r =>
        Storage.partition r.key job.numReducers == p) := by
  have each : ∀ r ∈ emitted job.mapper contents (job.groups.getD m []),
      GoString.ValidUtf8 r.key ∧ GoString.ValidUtf8 r.value ∧ Short r := by
    intro r member
    obtain ⟨path, listed, inside⟩ := List.mem_flatMap.mp member
    exact legible r (List.mem_flatMap.mpr ⟨path, from' path listed, inside⟩)
  have all := emissions_flatten (mapPlan job m) contents
  rw [mapPlan, effective_mapper, effective_inputFiles] at all
  obtain ⟨content, planned⟩ := partContent_ok ((effective_combiner _).trans plain)
    (fun r member => (each r (all ▸ member)).2.2) p
  obtain ⟨out, rfl, perm, ordered⟩ :=
    published_routed (job.mapOptions m) plain (fun r member => restored_valid (each r member).1 (each r member).2.1) planned
  exact ⟨out, planned, ordered, perm⟩

end Keys

section Reduced

/-- The calls made of one partition's records, in order. -/
theorem calls_correct {found all : List Record} {numReducers r : Nat} (ordered : Ordered found)
    (perm : found.Perm (all.filter fun record => Storage.partition record.key numReducers == r)) :
    ((groups found).map Prod.fst).Pairwise (· < ·) ∧
      (∀ key, key ∈ (groups found).map Prod.fst ↔ key ∈ all.map Record.key ∧ Storage.partition key numReducers = r) ∧
      ∀ call ∈ groups found, call.2.Perm ((all.filter fun record => record.key == call.1).map Record.value) := by
  have keys (key : GoString) : key ∈ (groups found).map Prod.fst ↔ key ∈ all.map Record.key ∧
    Storage.partition key numReducers = r := by
    rw [groups_keys, List.mem_map]
    refine ⟨fun ⟨record, member, named⟩ => ?_, fun ⟨⟨record, member, named⟩, routed⟩ => ⟨record, ?_, named⟩⟩
    · obtain ⟨inside, routed⟩ := List.mem_filter.mp (perm.subset member)
      exact ⟨⟨record, inside, named⟩, by rw [← named]; exact beq_iff_eq.mp routed⟩
    · exact perm.symm.subset (List.mem_filter.mpr ⟨member, by rw [named]; exact beq_iff_eq.mpr routed⟩)
  refine ⟨List.pairwise_map.mpr (groups_ascending ordered), keys, fun call member => ?_⟩
  have routed := ((keys call.1).mp (List.mem_map_of_mem member)).2
  have values := (perm.filter fun record => record.key == call.1).map Record.value
  rw [groups_values ordered member, List.filter_filter] at values
  refine values.trans (.of_eq (congrArg (List.map Record.value) (List.filter_congr fun record _ => ?_)))
  by_cases same : record.key = call.1
  · simp [same, routed]
  · simp [same]

variable {job : Job} {contents : GoString → Option GoString} {files : List GoString}

theorem range_groups (groups : List (List GoString)) : (List.range groups.length).map (fun m => groups.getD m []) =
    groups := by
  refine List.ext_getElem (by simp) fun m inside _ => ?_
  simp only [List.length_map, List.length_range] at inside
  simp [List.getElem?_eq_getElem inside]

/-- The merge of reduce task `r` delivers exactly the records routed to it. -/
theorem merged_routed (legible : Legible (emitted job.mapper contents files)) (plain : job.combiner = none)
    (dealt : job.groups.flatten.Perm files) (r : Nat) :
    (merged (job.reduceOptions r) (partOf job contents r)).2 = none ∧
      Ordered (merged (job.reduceOptions r) (partOf job contents r)).1 ∧
      (merged (job.reduceOptions r) (partOf job contents r)).1.Perm
        ((emitted job.mapper contents files).filter fun record => Storage.partition record.key job.numReducers == r) := by
  have from' (m : Nat) : ∀ path ∈ job.groups.getD m [], path ∈ files := by
    intro path member
    refine dealt.subset (List.mem_flatten_of_mem ?_ member)
    rw [List.getD_eq_getElem?_getD] at member ⊢
    cases found : job.groups[m]? with
    | none => simp [found] at member
    | some group => exact List.mem_of_getElem? found
  choose outs content ordered perm using fun m => legible.parts plain (from' m) r
  have encoded : ∀ m < (job.reduceOptions r).numMappers, partOf job contents r m = Record.encodeAll (outs m) ∧
    Ordered (outs m) ∧
      ∀ record ∈ outs m, Short record ∧ restored record = record := by
    refine fun m _ => ⟨(partOf_planned (content m)).symm, ordered m, fun record member => ?_⟩
    have inside := List.mem_of_mem_filter ((perm m).subset member)
    obtain ⟨path, listed, inside⟩ := List.mem_flatMap.mp inside
    obtain ⟨key, value, short⟩ := legible record (List.mem_flatMap.mpr ⟨path, from' m path listed, inside⟩)
    exact ⟨short, restored_valid key value⟩
  obtain ⟨clean, all, ordered⟩ := merged_files encoded
  refine ⟨clean, ordered, all.trans ((List.Perm.flatMap_left _ fun m _ => perm m).trans ?_)⟩
  rw [← List.filter_flatMap]
  refine List.Perm.filter _ ?_
  have grouped : (List.range (job.reduceOptions r).numMappers).flatMap
    (fun m => emitted job.mapper contents (job.groups.getD m [])) =
      emitted job.mapper contents job.groups.flatten := by
    have listed := range_groups job.groups
    simp only [emitted]
    conv_rhs => rw [← listed]
    rw [← List.flatMap_def, List.flatMap_assoc]
    rfl
  rw [grouped]
  exact dealt.flatMap_right _

theorem doable_of_legible (disk : FiniteMap Path GoString)
    (legible : Legible (emitted job.mapper (inputs disk) files)) (plain : job.combiner = none)
    (dealt : job.groups.flatten.Perm files) (readable : ∀ path ∈ files, Readable (inputs disk) path) :
    Doable job (inputs disk) := by
  have from' : ∀ m < job.groups.length, ∀ path ∈ job.groups.getD m [], path ∈ files := by
    intro m below path member
    rw [List.getD_eq_getElem _ _ below] at member
    exact dealt.subset (List.mem_flatten_of_mem (List.getElem_mem below) member)
  refine ⟨fun m below => ⟨fun path member => ?_, fun p _ => ?_⟩, fun r _ => (merged_routed legible plain dealt r).1⟩
  · rw [mapPlan, effective_inputFiles] at member
    exact readable path (from' m below path member)
  · obtain ⟨out, content, _⟩ := legible.parts plain (from' m below) p
    exact ⟨_, content⟩

end Reduced

section Empty
variable {job : Job}

theorem each_pure {Q : Type} {A : Q → Type} {ε α β : Type} (f : β → α) (items : List β) :
    Program.each (fun item => (Pure.pure (f item) : Program Q A ε α)) items = Pure.pure (items.map f) := by
  induction items with
  | nil => rfl
  | cons item items ih =>
    rw [Program.each, ih]
    rfl

/-- Without map tasks no reduce task gets as far as a call. -/
theorem alone_empty (empty : job.groups = []) (w : World) :
    job.alone w = (.ok ([], (List.range job.numReducers).map fun _ => .error .numMappers), w) := by
  have reduce (r : Nat) : (Reducer.run (job.reduceOptions r)).outcome = Pure.pure (.error .numMappers) := by
    unfold Reducer.run
    rw [if_pos (by simp [Job.reduceOptions, empty])]
    rfl
  unfold Job.alone Job.sequence
  simp only [reduce, empty, each_pure]
  rfl

end Empty

/-- Each emitted key is reduced once, in the task its hash names, in ascending
order there, and with all the values emitted for it in any file. -/
theorem one_call_per_key (disk : FiniteMap Path GoString) (files : List GoString) (numMappers : Int) (job : Job)
    (groups : job.groups = Storage.splitFiles files numMappers) (plain : job.combiner = none) (mappers : 1 ≤ numMappers)
    (reducers : 1 ≤ job.numReducers)
    (readable : ∀ path ∈ files, Readable (inputs disk) path)
    (legible : Legible (emitted job.mapper (inputs disk) files)) :
    ∃ maps reduces w', job.alone { files := disk } = (.ok (maps, reduces), w') ∧
      maps = job.groups.map (fun _ => .ok ()) ∧
      (∀ key, Storage.partition key job.numReducers < job.numReducers) ∧
      ∀ r < job.numReducers, ∃ calls,
        (reduces[r]? = some (.ok calls) ∨ files = [] ∧ calls = [] ∧ reduces[r]? = some (.error .numMappers)) ∧
        (calls.map Prod.fst).Pairwise (· < ·) ∧
        (∀ key, key ∈ calls.map Prod.fst ↔
          key ∈ (emitted job.mapper (inputs disk) files).map Record.key ∧
            Storage.partition key job.numReducers = r) ∧
        ∀ call ∈ calls, call.2.Perm (((emitted job.mapper (inputs disk) files).filter
          fun record => record.key == call.1).map Record.value) := by
  have dealt := FileGroups.splitFiles_flatten files numMappers
  rw [← groups] at dealt
  have routed (key : GoString) := partition_lt key reducers
  by_cases empty : job.groups = []
  · have nothing : files = [] := by
      rw [empty] at dealt
      exact List.perm_nil.mp dealt.symm
    subst nothing
    refine ⟨_, _, _, alone_empty empty _, by simp [empty], routed, fun r below => ⟨[], Or.inr ⟨rfl, rfl, ?_⟩, ?_, ?_, nofun⟩⟩
    · simp [below]
    · exact List.Pairwise.nil
    · simp [emitted]
  · obtain ⟨w', done, _⟩ := alone_done disk
      (doable_of_legible disk legible plain dealt readable) empty reducers
    refine ⟨_, _, w', done, ?_, routed, fun r below => ?_⟩
    · simp
    · obtain ⟨_, ordered, perm⟩ := merged_routed legible plain dealt r
      exact ⟨_, Or.inl (by simp [below]; rfl), calls_correct ordered perm⟩

/-- Two files whose lines are the words `x` and `y`. -/
def wordDisk : FiniteMap Path GoString :=
  AList.insert (Path.input [97]) [120, 10, 121, 10] (AList.insert (Path.input [98]) [120, 10] ∅)

/-- Each word is emitted with a mark, and reduced to all of its marks. -/
def wordJob : Job where
  groups := Storage.splitFiles [[97], [98]] 2
  numReducers := 2
  spillBytes := 1024
  mapper _ line := [{ key := line, value := [49] }]
  reducer _ values := [values.flatten]

theorem wordDisk_readable : ∀ path ∈ ([[97], [98]] : List GoString), Readable (inputs wordDisk) path := by
  intro path member
  simp only [List.mem_cons, List.not_mem_nil, or_false] at member
  rcases member with rfl | rfl
  · exact ⟨[120, 10, 121, 10], by decide, by decide⟩
  · exact ⟨[120, 10], by decide, by decide⟩

theorem wordJob_legible : Legible (emitted wordJob.mapper (inputs wordDisk) [[97], [98]]) := by
  have found : emitted wordJob.mapper (inputs wordDisk) [[97], [98]] =
      [⟨[120], [49]⟩, ⟨[121], [49]⟩, ⟨[120], [49]⟩] := by decide
  rw [found]
  intro record member
  simp only [List.mem_cons, List.not_mem_nil, or_false] at member
  rcases member with rfl | rfl | rfl
  · exact ⟨⟨['x'], by decide⟩, ⟨['1'], by decide⟩, by simp [Short]; decide⟩
  · exact ⟨⟨['y'], by decide⟩, ⟨['1'], by decide⟩, by simp [Short]; decide⟩
  · exact ⟨⟨['x'], by decide⟩, ⟨['1'], by decide⟩, by simp [Short]; decide⟩

theorem one_call_per_key_words : ∃ maps reduces w', wordJob.alone { files := wordDisk } = (.ok (maps, reduces), w') ∧
    maps = wordJob.groups.map (fun _ => .ok ()) ∧
    (∀ key, Storage.partition key wordJob.numReducers < wordJob.numReducers) ∧
    ∀ r < wordJob.numReducers, ∃ calls,
      (reduces[r]? = some (.ok calls) ∨ [[97], [98]] = ([] : List GoString) ∧ calls = [] ∧ reduces[r]? =
        some (.error .numMappers)) ∧
      (calls.map Prod.fst).Pairwise (· < ·) ∧
      (∀ key, key ∈ calls.map Prod.fst ↔
        key ∈ (emitted wordJob.mapper (inputs wordDisk) [[97], [98]]).map Record.key ∧
          Storage.partition key wordJob.numReducers = r) ∧
      ∀ call ∈ calls, call.2.Perm (((emitted wordJob.mapper (inputs wordDisk) [[97], [98]]).filter
        fun record => record.key == call.1).map Record.value) := by
  exact one_call_per_key wordDisk [[97], [98]] 2 wordJob rfl rfl (by decide) (by decide) wordDisk_readable wordJob_legible

end FromScratch.Proofs.PipelineCorrectness
