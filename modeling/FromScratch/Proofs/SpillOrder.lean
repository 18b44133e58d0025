import FromScratch.Proofs.DuplicateAttempts
import FromScratch.Proofs.MergeSorted
import FromScratch.Proofs.PipelineCorrectness

/-! What the size of the buffer does to the order of the intermediate files.
Within one buffer records are sorted by key and value, across buffers the merge
goes by key alone; two sizes agree exactly when the values of a key ascend
across every cut that only one of them makes. -/

namespace FromScratch.Proofs.SpillOrder
open FromScratch.MapReduce Mapper Lib Program AttemptRules MapPlan MapAttempt MapOutput Codec MergeOrder MergeSorted
open PipelineCorrectness DuplicateAttempts

section Batches

/-- The records of one key, each batch sorted for itself. -/
def kept (batches : List (List Record)) (key : GoString) : List Record :=
  batches.flatMap fun batch => (sortBuffer batch).filter fun r => r.key == key

/-- Where one division cuts a batch of the other, the values of a key ascend
across the cut. -/
def Tied (cuts batches : List (List Record)) : Prop :=
  ∀ early late before x y after, cuts = early ++ late → batches = before ++ (x ++ y) :: after →
    early.flatten = before.flatten ++ x → ∀ a ∈ x, ∀ b ∈ y, a.key = b.key → a.value ≤ b.value

theorem recordLE_antisymm {a b : Record} (first : recordLE a b = true) (second : recordLE b a = true) : a = b := by
  have key := le_antisymm (recordLE_key first) (recordLE_key second)
  have value := le_antisymm (recordLE_value first key) (recordLE_value second key.symm)
  cases a
  cases b
  simp_all

theorem recordLE_of_value {a b : Record} (key : a.key = b.key) (value : a.value ≤ b.value) : recordLE a b = true := by
  unfold recordLE
  rw [if_neg (not_not.mpr key)]
  exact decide_eq_true value

theorem kept_perm (batches : List (List Record)) (key : GoString) :
    (kept batches key).Perm (batches.flatten.filter fun r => r.key == key) := by
  induction batches with
  | nil => exact List.Perm.refl _
  | cons batch batches ih =>
    rw [List.flatten_cons, List.filter_append]
    exact ((sortBuffer_perm batch).filter _).append ih

theorem kept_append (first second : List (List Record)) (key : GoString) :
    kept (first ++ second) key = kept first key ++ kept second key := List.flatMap_append

theorem kept_cons (batch : List Record) (batches : List (List Record)) (key : GoString) :
    kept (batch :: batches) key = (sortBuffer batch).filter (fun r => r.key == key) ++ kept batches key := rfl

/-- A batch that ascends across a point is sorted by sorting its two parts. -/
theorem sorted_parts {x y : List Record} {key : GoString}
    (ascends : ∀ a ∈ x, ∀ b ∈ y, a.key = b.key → a.value ≤ b.value) :
    (sortBuffer (x ++ y)).filter (fun r => r.key == key) =
      (sortBuffer x).filter (fun r => r.key == key) ++ (sortBuffer y).filter fun r => r.key == key := by
  refine List.Perm.eq_of_pairwise (fun a b _ _ => recordLE_antisymm) ((sortBuffer_sorted _).filter _) ?_ ?_
  · refine List.pairwise_append.mpr ⟨(sortBuffer_sorted x).filter _, (sortBuffer_sorted y).filter _,
      fun a early b late => ?_⟩
    obtain ⟨inX, keyA⟩ := List.mem_filter.mp early
    obtain ⟨inY, keyB⟩ := List.mem_filter.mp late
    have key := (beq_iff_eq.mp keyA).trans (beq_iff_eq.mp keyB).symm
    exact recordLE_of_value key (ascends a ((sortBuffer_perm x).subset inX) b ((sortBuffer_perm y).subset inY) key)
  · rw [← List.filter_append]
    exact ((sortBuffer_perm _).trans ((sortBuffer_perm x).append (sortBuffer_perm y)).symm).filter _

/-- Where the sorted batches agree, what a cut separates is in order. -/
theorem tied_of_kept {cuts batches : List (List Record)} (agree : ∀ key, kept cuts key = kept batches key) :
    Tied cuts batches := by
  rintro early late before x y after rfl rfl cut a inX b inY key
  have same := agree a.key
  rw [kept_append, kept_append, kept_cons] at same
  have front := kept_perm early a.key
  have behind := kept_perm before a.key
  rw [cut, List.filter_append] at front
  have whole := (sortBuffer_perm (x ++ y)).filter fun r => r.key == a.key
  rw [List.filter_append] at whole
  have sorted := (sortBuffer_sorted (x ++ y)).filter fun r => r.key == a.key
  generalize (sortBuffer (x ++ y)).filter (fun r => r.key == a.key) = batch at same whole sorted
  -- The sorted batch divides where the cut falls.
  have room : (x.filter fun r => r.key == a.key).length ≤ batch.length := by
    rw [whole.length_eq, List.length_append]
    exact Nat.le_add_right _ _
  have length : (kept early a.key).length = (kept before a.key).length + (x.filter fun r => r.key == a.key).length := by
    rw [front.length_eq, behind.length_eq, List.length_append]
  have divided : kept early a.key = kept before a.key ++ batch.take (x.filter fun r => r.key == a.key).length := by
    have cut := congrArg (List.take (kept early a.key).length) same
    rwa [List.take_left, length, List.take_length_add_append, List.take_append_of_le_length room] at cut
  rw [divided] at front
  have first : (batch.take (x.filter fun r => r.key == a.key).length).Perm (x.filter fun r => r.key == a.key) :=
    (List.perm_append_left_iff _).mp (front.trans (behind.symm.append_right _))
  have second : (batch.drop (x.filter fun r => r.key == a.key).length).Perm (y.filter fun r => r.key == a.key) := by
    rw [← List.take_append_drop (x.filter fun r => r.key == a.key).length batch] at whole
    exact (List.perm_append_left_iff _).mp (whole.trans (first.symm.append_right _))
  rw [← List.take_append_drop (x.filter fun r => r.key == a.key).length batch, List.pairwise_append] at sorted
  refine recordLE_value (sorted.2.2 a (first.symm.subset ?_) b (second.symm.subset ?_)) key
  · exact List.mem_filter.mpr ⟨inX, beq_self_eq_true _⟩
  · exact List.mem_filter.mpr ⟨inY, beq_iff_eq.mpr key.symm⟩

/-- Dropping the front that two divisions share. -/
theorem Tied.rest {front x : List Record} {cuts batches : List (List Record)}
    (tied : Tied (front :: cuts) ((front ++ x) :: batches)) : Tied cuts (x :: batches) := by
  rintro early late before x' y after rfl same cut a inX b inY key
  cases before with
  | nil =>
    obtain ⟨rfl, rfl⟩ := List.cons.inj same
    refine tied (front :: early) late [] (front ++ x') y batches rfl ?_ ?_ a (List.mem_append_right _ inX) b inY key
    · simp
    · simpa using cut
  | cons first before =>
    obtain ⟨rfl, rfl⟩ := List.cons.inj same
    refine tied (front :: early) late ((front ++ x) :: before) x' y after rfl rfl ?_ a inX b inY key
    simpa using cut

theorem Tied.rest' {front x : List Record} {cuts batches : List (List Record)}
    (tied : Tied ((front ++ x) :: batches) (front :: cuts)) : Tied (x :: batches) cuts := by
  rintro early late before x' y after same rfl cut a inX b inY key
  cases early with
  | nil =>
    have empty : x' = [] := (List.append_eq_nil_iff.mp cut.symm).2
    subst empty
    cases inX
  | cons first early =>
    obtain ⟨rfl, rfl⟩ := List.cons.inj same
    refine tied ((front ++ x) :: early) late (front :: before) x' y after rfl rfl ?_ a inX b inY key
    simpa using cut

theorem kept_flat {batches : List (List Record)} (empty : batches.flatten = []) (key : GoString) :
    kept batches key = [] := by
  have perm := kept_perm batches key
  rw [empty] at perm
  exact perm.eq_nil

/-- A shared front makes no difference to how the rest is sorted. -/
theorem kept_front {front x : List Record} {cuts batches : List (List Record)}
    (tied : Tied (front :: cuts) ((front ++ x) :: batches))
    {key : GoString} (rest : kept cuts key = kept (x :: batches) key) :
    kept (front :: cuts) key = kept ((front ++ x) :: batches) key := by
  have ascends : ∀ a ∈ front, ∀ b ∈ x, a.key = b.key → a.value ≤ b.value :=
    tied [front] cuts [] front x batches rfl rfl (by simp)
  rw [kept_cons, kept_cons, sorted_parts ascends, rest, kept_cons, List.append_assoc]

/-- Two divisions of one list that are tied to each other sort it alike. -/
theorem kept_of_tied {cuts batches : List (List Record)} (same : cuts.flatten = batches.flatten) (tied : Tied cuts batches)
    (tied' : Tied batches cuts) (key : GoString) : kept cuts key = kept batches key := by
  obtain ⟨size, bound⟩ : ∃ size, cuts.length + batches.length = size := ⟨_, rfl⟩
  induction size using Nat.strongRecOn generalizing cuts batches with
  | ind size ih =>
    cases cuts with
    | nil => rw [kept_flat rfl, kept_flat same.symm]
    | cons first cuts =>
      cases batches with
      | nil => rw [kept_flat same, kept_flat rfl]
      | cons batch batches =>
        rw [List.length_cons, List.length_cons] at bound
        -- The shorter of the two first batches is a front of the other.
        rcases List.append_eq_append_iff.mp same with ⟨x, rfl, rest⟩ | ⟨x, rfl, rest⟩
        · refine kept_front tied (ih (cuts.length + (batches.length + 1)) (by omega) ?_ tied.rest tied'.rest' rfl)
          exact rest
        · refine (kept_front tied' (ih (batches.length + (cuts.length + 1)) (by omega) ?_ tied'.rest tied.rest' rfl)).symm
          exact rest

theorem kept_iff {cuts batches : List (List Record)} (same : cuts.flatten = batches.flatten) :
    (∀ key, kept cuts key = kept batches key) ↔ Tied cuts batches ∧ Tied batches cuts :=
  ⟨fun agree => ⟨tied_of_kept agree, tied_of_kept fun key => (agree key).symm⟩, fun tied => kept_of_tied same tied.1 tied.2⟩

end Batches

section Files

theorem filter_head {a b : Record} {as bs : List Record}
    (same : (a :: as).filter (fun r => r.key == a.key) = (b :: bs).filter fun r => r.key == a.key) (key : b.key = a.key) :
    a = b ∧ ∀ other, (a :: as).filter (fun r => r.key == other) = (b :: bs).filter (fun r => r.key == other) →
      as.filter (fun r => r.key == other) = bs.filter fun r => r.key == other := by
  rw [List.filter_cons_of_pos (by simp), List.filter_cons_of_pos (by simp [key])] at same
  obtain ⟨rfl, _⟩ := List.cons.inj same
  refine ⟨rfl, fun other equal => ?_⟩
  simp only [List.filter_cons] at equal
  split at equal
  next => exact (List.cons.inj equal).2
  next => exact equal

theorem mem_own {r : Record} {records : List Record} (member : r ∈ records) :
    r ∈ records.filter fun other => other.key == r.key :=
  List.mem_filter.mpr ⟨member, beq_self_eq_true r.key⟩

/-- Ordered records are determined by what each key has. -/
theorem ordered_ext {first second : List Record} (ordered : Ordered first) (ordered' : Ordered second)
    (same : ∀ key, first.filter (fun r => r.key == key) = second.filter fun r => r.key == key) : first = second := by
  induction first generalizing second with
  | nil =>
    refine (List.eq_nil_iff_forall_not_mem.mpr fun r member => ?_).symm
    have inside := mem_own member
    rw [← same] at inside
    cases inside
  | cons a as ih =>
    cases second with
    | nil =>
      have inside : a ∈ (a :: as).filter fun r => r.key == a.key := mem_own List.mem_cons_self
      rw [same] at inside
      cases inside
    | cons b bs =>
      have lower {x y : Record} {xs ys : List Record} (sorted : Ordered (x :: xs))
          (equal : (y :: ys).filter (fun r => r.key == y.key) = (x :: xs).filter fun r => r.key == y.key) :
            x.key ≤ y.key := by
        have inside : y ∈ (y :: ys).filter fun r => r.key == y.key := mem_own List.mem_cons_self
        rw [equal] at inside
        rcases List.mem_cons.mp (List.mem_filter.mp inside).1 with same | later
        · exact le_of_eq (congrArg Record.key same).symm
        · exact (List.pairwise_cons.mp sorted).1 y later
      have key : b.key = a.key := le_antisymm (lower ordered' (same a.key)) (lower ordered (same b.key).symm)
      obtain ⟨rfl, rest⟩ := filter_head (same a.key) key
      rw [ih (List.pairwise_cons.mp ordered).2 (List.pairwise_cons.mp ordered').2 fun other => rest other (same other)]

/-- A file of text determines its records. -/
theorem encodeAll_injective {first second : List Record} (text : ∀ r ∈ first, restored r = r)
    (text' : ∀ r ∈ second, restored r = r)
    (same : Record.encodeAll first = Record.encodeAll second) : first = second := by
  have file (r : Record) (records : List Record) :
      Record.encodeAll (r :: records) = line r ++ Record.newline :: Record.encodeAll records := by
    simp [Record.encodeAll, encode_line]
  induction first generalizing second with
  | nil =>
    cases second with
    | nil => rfl
    | cons b bs =>
      rw [file] at same
      simp [Record.encodeAll] at same
  | cons a as ih =>
    cases second with
    | nil =>
      rw [file] at same
      simp [Record.encodeAll] at same
    | cons b bs =>
      rw [file, file] at same
      have pieces := congrArg Scanner.pieces same
      rw [pieces_line (line_whole a).1, pieces_line (line_whole b).1] at pieces
      have lines : line a = line b := congrArg Prod.fst pieces
      have parsed := congrArg Record.parse lines
      rw [parse_line, parse_line, text a List.mem_cons_self, text' b List.mem_cons_self] at parsed
      obtain rfl := Except.ok.inj parsed
      have rest := (List.cons.inj (List.append_cancel_left same)).2
      rw [ih (fun r member => text r (List.mem_cons_of_mem _ member))
        (fun r member => text' r (List.mem_cons_of_mem _ member)) rest]

end Files

section Parts
variable {opts : Options} {contents : GoString → Option GoString}

/-- What the attempt sorts as a whole: its runs, or all there is when it cuts none. -/
def batches (opts : Options) (contents : GoString → Option GoString) : List (List Record) :=
  if runs opts contents = [] then [(planned opts contents).buffer] else runs opts contents

theorem batches_flatten : (batches opts contents).flatten = (emissions opts contents).flatten := by
  unfold batches
  split
  next unspilled => simp [buffer_flatten unspilled]
  next spilled => exact runs_flatten spilled

theorem output_key (plain : opts.combiner = none) (buffer : List Record) (p : Nat) (key : GoString) :
    (outputOf opts buffer p).filter (fun r => r.key == key) =
      if Storage.partition key opts.numReducers = p then (sortBuffer buffer).filter (fun r => r.key == key) else [] := by
  unfold outputOf applyCombiner partitionBuffer
  rw [plain]
  simp only
  rw [List.filter_filter]
  split
  next here =>
    refine List.filter_congr fun r _ => ?_
    by_cases same : r.key = key
    · simp [same, here]
    · simp [same]
  next elsewhere =>
    refine List.filter_eq_nil_iff.mpr fun r _ chosen => elsewhere ?_
    simp only [Bool.and_eq_true, beq_iff_eq] at chosen
    rw [← chosen.1, chosen.2]

/-- A partition file lists the records of a key batch by batch. -/
theorem partContent_kept (opts : Options) (plain : opts.combiner = none)
    (text : ∀ r ∈ (emissions opts contents).flatten, restored r = r) {p : Nat}
    {content : GoString} (planned : partContent opts contents p = .ok content) :
    ∃ out, content = Record.encodeAll out ∧ Ordered out ∧ (∀ r ∈ out, restored r = r) ∧
      ∀ key, out.filter (fun r => r.key == key) =
        if Storage.partition key opts.numReducers = p then kept (batches opts contents) key else [] := by
  unfold partContent at planned
  unfold batches
  split at planned
  next unspilled =>
    cases planned
    refine ⟨_, rfl, outputOf_ordered plain _ p, fun r member => text r ?_, fun key => ?_⟩
    · rw [← buffer_flatten unspilled]
      exact List.mem_of_mem_filter ((outputOf_routed plain _ p).subset member)
    · rw [output_key plain, if_pos unspilled, kept_cons]
      simp [kept]
  next spilled =>
    have inside : ∀ run ∈ runs opts contents, ∀ r ∈ outputOf opts run p, restored r = r := by
      intro run listed r member
      refine text r ?_
      rw [← runs_flatten spilled]
      exact List.mem_flatten_of_mem listed (List.mem_of_mem_filter ((outputOf_routed plain run p).subset member))
    have files : ∀ file ∈ (runs opts contents).map fun run => outputOf opts run p, file.map restored = file ∧ Ordered file :=
      List.forall_mem_map.mpr fun run listed => ⟨map_restored (inside run listed), outputOf_ordered plain run p⟩
    unfold mergeContents at planned
    rw [List.map_map] at planned
    have sources : ((fun bytes => Source.ofStream { bytes := bytes }) ∘ fun run => Record.encodeAll (outputOf opts run p)) =
        (fun file => Source.ofStream { bytes := Record.encodeAll file }) ∘ fun run => outputOf opts run p := rfl
    rw [sources, ← List.map_map] at planned
    rcases drain_files ((runs opts contents).map fun run => outputOf opts run p) with ⟨out, drained, _, perm, ordered⟩ |
      ⟨_, _, failed, _⟩
    · rw [drained] at planned
      cases planned
      have sorted : ∀ file ∈ (runs opts contents).map fun run => outputOf opts run p, Ordered (file.map restored) :=
        fun file listed => by rw [(files file listed).1]; exact (files file listed).2
      have whole : (((runs opts contents).map fun run => outputOf opts run p).flatten.map restored) =
          ((runs opts contents).map fun run => outputOf opts run p).flatten := by
        refine map_restored fun r member => ?_
        obtain ⟨file, listed, member⟩ := List.mem_flatten.mp member
        obtain ⟨run, spilled, rfl⟩ := List.mem_map.mp listed
        exact inside run spilled r member
      rw [whole] at perm
      refine ⟨out, rfl, ordered sorted, fun r member => ?_, fun key => ?_⟩
      · obtain ⟨file, listed, member⟩ := List.mem_flatten.mp (perm.subset member)
        obtain ⟨run, spilled, rfl⟩ := List.mem_map.mp listed
        exact inside run spilled r member
      · rw [drain_stable sorted drained key, whole, if_neg spilled, List.filter_flatten, List.map_map, kept]
        have each : (List.filter (fun r : Record => r.key == key) ∘ fun run => outputOf opts run p) = fun run =>
            if Storage.partition key opts.numReducers = p then (sortBuffer run).filter (fun r => r.key == key) else [] :=
          funext fun run => output_key plain run p key
        rw [each]
        split
        next => rw [List.flatMap_def]
        next => simp
    · rw [failed] at planned
      cases planned

/-- Without a combiner a task can be done unless an input cannot be read or a
record that is spilled cannot be read back. -/
theorem feasible_iff (plain : opts.combiner = none) (reducers : 1 ≤ opts.numReducers) : Feasible opts contents ↔
    (∀ path ∈ opts.inputFiles, Readable contents path) ∧ ∀ run ∈ runs opts contents, ∀ r ∈ run, Short r := by
  constructor
  · refine fun feasible => ⟨feasible.readable, fun run listed r member => ?_⟩
    obtain ⟨content, planned⟩ := feasible.mergeable (Storage.partition r.key opts.numReducers) (partition_lt r.key reducers)
    unfold partContent at planned
    rw [if_neg (List.ne_nil_of_mem listed)] at planned
    rcases merge_outputs opts (runs opts contents) (Storage.partition r.key opts.numReducers) with
      ⟨_, _, short, _⟩ | ⟨e, merged, _⟩
    · refine short run listed r ((outputOf_routed plain run _).symm.subset ?_)
      exact List.mem_filter.mpr ⟨member, beq_self_eq_true _⟩
    · rw [merged] at planned
      cases planned
  · rintro ⟨readable, short⟩
    have limits : WithinLimits opts contents := ⟨readable, fun run listed p _ r member =>
      short run listed r (List.mem_of_mem_filter ((outputOf_routed plain run p).subset member))⟩
    exact limits.feasible

end Parts

section Settings

/-- `Run` by the only process there is, on a file system without faults. -/
def runAlone (opts : Options) (disk : FiniteMap Path GoString) : Except Err Unit × World :=
  (Mapper.run opts).run (fun w request => w.perform 0 request) { files := disk }

variable {opts : Options} {disk : FiniteMap Path GoString}

theorem runAlone_meets (opts : Options) (disk : FiniteMap Path GoString) :
    Ends (fun _ => opts.numReducers < 1 ∨ ¬ Feasible (effective opts) (inputs disk))
      (fun _ w => Feasible (effective opts) (inputs disk) ∧ ∀ p < opts.numReducers, ∃ content,
        w.files.lookup (.file (.part opts.taskID p)) = some content ∧ partContent (effective opts) (inputs disk) p =
          .ok content)
      (runAlone opts disk).1 (runAlone opts disk).2 := by
  have meets : Triple (rules (planTerms opts disk) 0)
    (Knows (planTerms opts disk) (inputs disk) (ownRun (effective opts) (inputs disk)) 0 {})
      (Mapper.run opts) (Ends (fun _ => opts.numReducers < 1 ∨ ¬ Feasible (effective opts) (inputs disk)) fun _ w =>
        Feasible (effective opts) (inputs disk) ∧
          Knows (planTerms opts disk) (inputs disk) (ownRun (effective opts) (inputs disk)) 0
          { published := Parts opts (List.range opts.numReducers) } w) :=
    run_meets False.elim Or.inl (fun _ _ _ _ => rfl) (fun _ _ _ planned => planned) Or.inr
  refine run_alone (fun w request alone path _ other different member => ?_) (fun _ _ => rfl)
    (meets.post_of (fun _ w ends => ⟨ends.1, fun p below => ?_⟩) _ knows_start)
  · rw [alone other different] at member
    cases member
  · obtain ⟨_, content, found, good⟩ := ends.2.published (.part opts.taskID p) ⟨p, List.mem_range.mpr below, rfl⟩
    exact ⟨content, found, good⟩

theorem runAlone_ok (opts : Options) (reducers : 1 ≤ opts.numReducers) (feasible : Feasible (effective opts) (inputs disk)) :
    ∃ w, runAlone opts disk = (.ok (), w) ∧ ∀ p < opts.numReducers, ∃ content,
      w.files.lookup (.file (.part opts.taskID p)) = some content ∧ partContent (effective opts) (inputs disk) p =
        .ok content := by
  have meets := runAlone_meets opts disk
  generalize runAlone opts disk = final at meets
  obtain ⟨result, w⟩ := final
  cases result with
  | error e =>
    rcases meets with few | infeasible
    · exact absurd reducers (by omega)
    · exact absurd feasible infeasible
  | ok => exact ⟨w, rfl, meets.2⟩

theorem effective_large {limit : Int} (large : 1024 ≤ limit) : effective { opts with spillBytes := limit } =
    { opts with spillBytes := limit } :=
  if_neg (not_lt.mpr large)

/-- Both lines of the file give a long record of the same key. -/
def oneKey : Options where
  taskID := 0
  inputFiles := [[105, 110]]
  numReducers := 1
  spillBytes := 1024
  mapper _ line := [{ key := [107], value := line ++ List.replicate 1100 97 }]

def descending : FiniteMap Path GoString := AList.insert (Path.input [105, 110]) [50, 10, 49, 10] ∅

theorem oneKey_text (disk : FiniteMap Path GoString)
    (emits : emitted oneKey.mapper (inputs disk) oneKey.inputFiles =
    [⟨[107], 50 :: List.replicate 1100 97⟩, ⟨[107], 49 :: List.replicate 1100 97⟩] ∨
      emitted oneKey.mapper (inputs disk) oneKey.inputFiles =
        [⟨[107], 49 :: List.replicate 1100 97⟩, ⟨[107], 50 :: List.replicate 1100 97⟩]) :
    ∀ r ∈ emitted oneKey.mapper (inputs disk) oneKey.inputFiles, GoString.ValidUtf8 r.key ∧ GoString.ValidUtf8 r.value := by
  have key : GoString.ValidUtf8 [107] := ⟨['k'], by decide⟩
  have one : GoString.ValidUtf8 (49 :: List.replicate 1100 97) := ⟨'1' :: List.replicate 1100 'a', by decide +kernel⟩
  have two : GoString.ValidUtf8 (50 :: List.replicate 1100 97) := ⟨'2' :: List.replicate 1100 'a', by decide +kernel⟩
  intro r member
  rcases emits with emits | emits <;> rw [emits] at member <;> simp only [List.mem_cons, List.not_mem_nil,
    or_false] at member
  · rcases member with rfl | rfl
    · exact ⟨key, two⟩
    · exact ⟨key, one⟩
  · rcases member with rfl | rfl
    · exact ⟨key, one⟩
    · exact ⟨key, two⟩

def ascending : FiniteMap Path GoString := AList.insert (Path.input [105, 110]) [49, 10, 50, 10] ∅

end Settings

end FromScratch.Proofs.SpillOrder
