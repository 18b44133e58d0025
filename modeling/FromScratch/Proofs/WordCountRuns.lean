import FromScratch.Proofs.ScheduleIndependence
import FromScratch.Proofs.VerifiedCounts

/-! The word count of a corpus, however the job was run, is verified, unless a
worker died while it was writing and its temporary file, which is named like an
output, was left with a line in it. -/

namespace FromScratch.Proofs.WordCountRuns
open FromScratch.MapReduce WordCount Lib Cluster Codec MapPlan MapOutput MergeOrder ReduceAttempt ReduceOutput JobRuns
open AttemptRules PipelineCorrectness CombinerEquivalence ScheduleIndependence WordSplitting WordTotals VerifiedCounts

section Published
variable {job : Job} {cfg : Config} {now : Time} {disk : FiniteMap Path GoString} {s s' : Cluster}

/-- In a job directory that was new nothing is ever published but good content. -/
theorem published_good (fresh : ∀ name, disk.lookup (.file name) = none)
    (reached : ReachesLineWise job (Cluster.start job cfg now disk) s) {name : Name} {bytes : GoString}
    (found : s.world.files.lookup (.file name) = some bytes) : jobContent job (inputs disk) name = .ok bytes := by
  induction reached generalizing name bytes with
  | refl =>
    have missing := fresh name
    cases missing.symm.trans found
  | tail before step ih =>
    cases step with
    | work executing served =>
      obtain ⟨kept, _⟩ := ((Sound.reached before).safe _ _ _ _ executing).step (jobTerms_serves served)
      rcases (kept (_ + 1) (Nat.succ_ne_self _)).files (.file name) nofun with same | ⟨_, _, named, present, good⟩ | gone
      · exact ih (same.symm.trans found)
      · cases named
        cases found.symm.trans present
        exact good
      · cases found.symm.trans gone.2.1
    | register | registerLost | heartbeat | reclaim | request | requestLost | report | reportLost | die => exact ih found

theorem mem_outputFiles {w : World} {path : Path} {content : GoString} : (path, content) ∈ outputFiles w ↔
    path.dir = some .out ∧ w.files.lookup path = some content := by
  have listed (path : Path) : path ∈ w.listing .out ↔ path ∈ w.files ∧ path.dir = some .out := by
    rw [World.listing, List.mem_insertionSort, List.mem_filter, AList.mem_keys, beq_iff_eq]
  simp only [outputFiles, List.mem_filterMap, listed, Option.map_eq_some_iff, Prod.mk.injEq]
  constructor
  · rintro ⟨path, ⟨_, place⟩, content, found, rfl, rfl⟩
    exact ⟨place, found⟩
  · rintro ⟨place, found⟩
    exact ⟨path, ⟨AList.lookup_isSome.mp (by rw [found]; rfl), place⟩, content, found, rfl, rfl⟩

/-- What would be reduced of a partition that no key belongs to. -/
theorem reduced_beyond {contents : GoString → Option GoString} (reducers : 1 ≤ job.numReducers) {r : Nat}
    (beyond : job.numReducers ≤ r) : reduceContent (job.reduceOptions r) (partOf job contents r) = .ok [] := by
  have nothing (m : Nat) : written (mapPlan job m) contents r = [] := by
    refine List.flatMap_eq_nil_iff.mpr fun batch _ => List.eq_nil_iff_forall_not_mem.mpr fun record output => ?_
    have value : record.value ∈ valuesOf record.key (Mapper.outputOf (mapPlan job m) batch r) :=
      List.mem_map_of_mem (List.mem_filter.mpr ⟨output, beq_self_eq_true record.key⟩)
    have numReducers : (mapPlan job m).numReducers = job.numReducers := effective_numReducers _
    have elsewhere := (partition_lt record.key reducers).trans_le beyond
    rw [outputOf_values, numReducers, if_neg elsewhere.ne] at value
    cases value
  have encoded : ∀ m < (job.reduceOptions r).numMappers, partOf job contents r m = Record.encodeAll [] ∧
      Ordered [] ∧ ∀ record ∈ ([] : List Record), Short record ∧ restored record = record := by
    intro m _
    have empty := nothing m
    obtain ⟨out, planned, perm, _⟩ := @partContent_written (mapPlan job m) contents r
      (by rw [empty]; nofun) (by rw [empty]; nofun)
    rw [empty] at perm
    obtain rfl := List.perm_nil.mp perm
    exact ⟨(partOf_planned planned).symm, .nil, nofun⟩
  obtain ⟨clean, perm, _⟩ := merged_files encoded
  have vacant : (List.range (job.reduceOptions r).numMappers).flatMap (fun _ => ([] : List Record)) = [] := by simp
  rw [vacant] at perm
  unfold reduceContent
  generalize merged (job.reduceOptions r) (partOf job contents r) = pair at clean perm
  obtain ⟨records, err⟩ := pair
  cases clean
  obtain rfl := List.perm_nil.mp perm
  rfl

end Published

section Verified
variable {job : Job} {cfg : Config} {now : Time} {disk : FiniteMap Path GoString} {s s' : Cluster} {corpus : Corpus}

/-- A job that is over without an error has read its whole corpus. -/
theorem corpus_counts {numMappers : Int} (mapper : job.mapper = map) (reducer : job.reducer = reduce)
    (combiner : job.combiner = none ∨ job.combiner = some combine)
    (groups : job.groups = Storage.splitFiles (corpus.map Prod.fst) numMappers) (reducers : 1 ≤ job.numReducers)
    (vocabulary : ∀ word ∈ corpus.words, word ∈ VOCAB)
    (held : ∀ file ∈ corpus, disk.lookup (.input file.1) = some (document file.2))
    (reached : ReachesLineWise job (Cluster.start job cfg now disk) s) (closed : s.coordinator.doneClosed)
    (fine : s.coordinator.err = none) : Counts job (inputs disk) (corpus.map Prod.fst) corpus.words := by
  have dealt := FileGroups.splitFiles_flatten (corpus.map Prod.fst) numMappers
  rw [← groups] at dealt
  have sound := Sound.reached reached
  obtain ⟨maps, _⟩ := sound.delivered reducers closed fine
  have readable : ∀ file ∈ corpus, Readable (inputs disk) file.1 := by
    intro file listed
    obtain ⟨group, member, inside⟩ := List.mem_flatten.mp (dealt.mem_iff.mpr (List.mem_map_of_mem listed))
    obtain ⟨m, below, rfl⟩ := List.getElem_of_mem member
    refine (sound.done .map m (maps m below)).parts.1.readable file.1 ?_
    rwa [mapPlan, effective_inputFiles, Job.mapOptions, List.getD_eq_getElem _ _ below]
  have plain : ∀ word ∈ corpus.words, Plain word := fun word read => vocab_plain word (vocabulary word read)
  refine ⟨reducer, combiner, dealt, ?_, plain⟩
  rw [mapper]
  refine emitted_corpus held (fun file listed words line word inside => plain word ?_) readable
  exact List.mem_flatMap.mpr ⟨file, listed, List.mem_flatten.mpr ⟨words, line, inside⟩⟩

/-- The line a word is on when its reduce task is done. -/
theorem line_listed (words : List GoString) {keys : List GoString} {word : GoString} (member : word ∈ keys) :
    line ⟨word, itoa (Int64.ofNat (words.count word))⟩ ∈
      lines (Record.encodeAll (keys.map fun key => ⟨key, itoa (Int64.ofNat (words.count key))⟩)) := by
  rw [lines_encodeAll, List.map_map]
  exact List.mem_map_of_mem member

/-- Every word is on the line of its reduce task, and the files that were published
have no other lines. -/
theorem published_tallied (task : Counts job (inputs disk) (corpus.map Prod.fst) corpus.words)
    (few : corpus.words.length < 2 ^ 63) (fresh : ∀ name, disk.lookup (.file name) = none) (reducers : 1 ≤ job.numReducers)
    (reached : ReachesLineWise job (Cluster.start job cfg now disk) s) (closed : s.coordinator.doneClosed)
    (fine : s.coordinator.err = none) (onward : ReachesLineWise job s s') :
    Tallied (fun path => ∃ name, path = .file name) (fun key => .file (.out (Storage.partition key job.numReducers)))
      corpus.words (outputFiles s'.world) := by
  have small (word : GoString) : corpus.words.count word < 2 ^ 63 := List.count_le_length.trans_lt few
  have outputs {r : Nat} (below : r < job.numReducers) := outputs_kept reached closed fine onward below
  refine ⟨?_, fun key _ => ⟨_, rfl⟩, ?_, fun key word => ?_⟩
  · obtain ⟨content, _, present⟩ := outputs (r := 0) reducers
    exact List.ne_nil_of_mem (mem_outputFiles.mpr ⟨rfl, present⟩)
  · rintro ⟨path, content⟩ member ⟨name, rfl⟩ text inside filled
    obtain ⟨place, found⟩ := mem_outputFiles.mp member
    have good := published_good fresh (reached.trans onward) found
    cases name with
    | part | spill => cases place
    | out r =>
      rcases lt_or_ge r job.numReducers with below | beyond
      · obtain ⟨keys, _, mem, reduced⟩ := task.reduced below
        cases good.symm.trans reduced
        rw [lines_encodeAll, List.map_map] at inside
        obtain ⟨key, listed, rfl⟩ := List.mem_map.mp inside
        obtain ⟨word, routed⟩ := (mem key).mp listed
        exact ⟨key, word, by rw [routed], parse_count (task.plain key word) (small key)⟩
      · cases good.symm.trans (reduced_beyond reducers beyond)
        cases inside
  · have below := partition_lt key reducers
    obtain ⟨content, good, present⟩ := outputs below
    obtain ⟨keys, _, mem, reduced⟩ := task.reduced below
    cases good.symm.trans reduced
    have text := line_listed corpus.words ((mem key).mpr ⟨word, rfl⟩)
    exact ⟨_, mem_outputFiles.mpr ⟨rfl, present⟩, rfl, _, text, line_ne_nil _,
      parse_count (task.plain key word) (small key)⟩

/-- However a word count was run, its output is verified exactly when no temporary
file of a worker that died has been left with a line in it. -/
theorem word_count_verified {numMappers : Int} (mapper : job.mapper = map) (reducer : job.reducer = reduce)
    (combiner : job.combiner = none ∨ job.combiner = some combine)
    (groups : job.groups = Storage.splitFiles (corpus.map Prod.fst) numMappers) (reducers : 1 ≤ job.numReducers)
    (vocabulary : ∀ word ∈ corpus.words, word ∈ VOCAB) (few : corpus.words.length < 2 ^ 63)
    (held : ∀ file ∈ corpus, disk.lookup (.input file.1) = some (document file.2))
    (fresh : ∀ name, disk.lookup (.file name) = none)
    (reached : ReachesLineWise job (Cluster.start job cfg now disk) s) (closed : s.coordinator.doneClosed)
    (fine : s.coordinator.err = none) (onward : ReachesLineWise job s s') (total : Int) :
    verify (outputFiles s'.world) (counts corpus.words) = .verified total ↔
      total = corpus.words.length ∧ ∀ target creator serial content,
        (Path.temp target creator serial, content) ∈ outputFiles s'.world → ∀ line ∈ lines content, line = [] := by
  have task := corpus_counts mapper reducer combiner groups reducers vocabulary held reached closed fine
  have tallied := published_tallied task few fresh reducers reached closed fine onward
  rw [tallied.verified]
  refine and_congr_right fun _ => ⟨fun blank target creator serial content member => ?_, fun blank file member stray => ?_⟩
  · exact blank _ member nofun
  · obtain ⟨path, content⟩ := file
    cases path with
    | input => cases (mem_outputFiles.mp member).1
    | file name => exact absurd ⟨name, rfl⟩ stray
    | temp target creator serial => exact blank target creator serial content member

/-- Two files, and three lines of the words `a` and `is`. -/
def smallCorpus : Corpus := [([97], [[[97], [105, 115]], [[97]]]), ([98], [[[97]]])]

def smallDisk : FiniteMap Path GoString :=
  AList.insert (Path.input [97]) [97, 32, 105, 115, 10, 97, 10] (AList.insert (Path.input [98]) [97, 10] ∅)

def smallJob : Job where
  groups := Storage.splitFiles [[97], [98]] 2
  numReducers := 2
  spillBytes := 1024
  mapper := map
  combiner := some combine
  reducer := reduce

/-- A single worker counts the words of the small corpus. -/
theorem word_count_verified_small :
    verify (outputFiles ((solo smallJob)^[120] (Cluster.start smallJob soloConfig 0 smallDisk)).world)
      (counts smallCorpus.words) = .verified 4 := by
  have held : ∀ file ∈ smallCorpus, smallDisk.lookup (.input file.1) = some (document file.2) := by decide +kernel
  have vocabulary : ∀ word ∈ smallCorpus.words, word ∈ VOCAB := by decide +kernel
  have listed : (outputFiles ((solo smallJob)^[120] (Cluster.start smallJob soloConfig 0 smallDisk)).world).map Prod.fst =
      [.file (.out 0), .file (.out 1)] := by decide +kernel
  have verified := @word_count_verified smallJob soloConfig 0 smallDisk _ _ smallCorpus 2 rfl rfl (Or.inr rfl) rfl
    (by decide)
    vocabulary (by decide) held (fun _ => rfl) (solo_reaches smallJob _ 120) (by decide +kernel) (by decide +kernel) .refl 4
  refine verified.mpr ⟨by decide, ?_⟩
  intro target creator serial content member
  have path := List.mem_map_of_mem (f := Prod.fst) member
  rw [listed] at path
  simp at path

end Verified

end FromScratch.Proofs.WordCountRuns
