import Mathlib.Algebra.Group.Pi.Lemmas
import Mathlib.Tactic.Abel
import FromScratch.Lib.Metered
import FromScratch.Proofs.JobRuns
import FromScratch.Proofs.CombinerEquivalence

/-! What a task counts. It depends on the input alone: on the lines, on what the
mapper emits for them, on where the buffer overflows and on the calls of `Reduce`. -/

namespace FromScratch.Proofs.TaskCounters
open FromScratch.MapReduce Mapper Lib Program AttemptRules MapPlan MapAttempt ReduceAttempt JobRuns SpillOrder MergeOrder Codec MapOutput CombinerEquivalence

local instance int64Sums : AddCommMonoid Int64 where
  add_assoc := Int64.add_assoc
  zero_add := Int64.zero_add
  add_zero := Int64.add_zero
  add_comm := Int64.add_comm
  nsmul := nsmulRec

/-- What is counted under each name. -/
abbrev Tally := String → Int64

def counted (name : String) (amount : Nat) : Tally := Pi.single name (Int64.ofNat amount)

theorem counted_zero (name : String) : counted name 0 = 0 := Pi.single_zero name

theorem counted_add (name : String) (first second : Nat) :
    counted name (first + second) = counted name first + counted name second := by
  unfold counted
  rw [Int64.ofNat_add]
  exact Pi.single_add ..

theorem counted_sum {α : Type} (name : String) (items : List α) (amount : α → Nat) :
    (items.map fun item => counted name (amount item)).sum = counted name (items.map amount).sum := by
  induction items with
  | nil => exact (counted_zero name).symm
  | cons item items ih => rw [List.map_cons, List.sum_cons, ih, List.map_cons, List.sum_cons, counted_add]

/-- What an answer adds to the counters. -/
def price : (request : Request) → Reply request → Tally
  | .count name delta, _ => Pi.single name delta
  | _, _ => 0

section Prices
variable (job : Job) (contents : GoString → Option GoString) (mapped : Prop)

/-- The names the process has renamed a temporary file to. -/
def renamed (written : Name → Prop) : (request : Request) → Reply request → Name → Prop
  | .rename (.temp _ _ _) target, .ok _ => fun name => name = target ∨ written name
  | _, _ => written

/-- What opening a file delivers: an input, a run the process has written itself,
and, where the map tasks are done, a part, or as much of them as can be read. -/
def Reads (written : Name → Prop) : (request : Request) → Reply request → Prop
  | .openFile (.input path), .ok stream => ∃ bytes, contents path = some bytes ∧ Partly True bytes stream
  | .openFile (.file (.spill m n p)), .ok stream =>
    written (.spill m n p) → Partly True (spillContent (mapPlan job m) contents n p) stream
  | .openFile (.file (.part m p)), reply => mapped → m < job.groups.length → p < job.numReducers →
    (∃ stream, reply = .ok stream ∧ Partly True (partOf job contents p m) stream) ∨ ∃ e, reply = .error e ∧ e ≠ .notExist
  | .createTemp _, .ok path => ∃ target creator serial, path = .temp target creator serial
  | _, _ => True

def Moves (written : Name → Prop) (request : Request) (reply : Reply request) (after : Name → Prop) : Prop :=
  after = renamed written request reply ∧ Reads job contents mapped written request reply

/-- The attempt adds the amount to its counters unless it fails. -/
abbrev Adds {α : Type} (pre : (Name → Prop) → Prop) (attempt : Attempt α) (amount : Tally)
    (post : α → (Name → Prop) → Prop) : Prop := Spends price (Moves job contents mapped) pre attempt amount post

/-- The process has written these files. -/
def Wrote (names written : Name → Prop) : Prop := ∀ name, names name → written name

/-- Any request but a count. -/
def Uncounted : Request → Prop
  | .count _ _ => False
  | _ => True

variable {job contents mapped} {names : Name → Prop}

theorem renamed_grows {written : Name → Prop} {request : Request} {reply : Reply request} {name : Name}
    (here : written name) : renamed written request reply name := by
  unfold renamed
  split
  · exact Or.inr here
  · exact here

theorem Wrote.moved {written after : Name → Prop} {request : Request} {reply : Reply request}
    (moved : Moves job contents mapped written request reply after) (wrote : Wrote names written) : Wrote names after := by
  intro name listed
  rw [moved.1]
  exact renamed_grows (wrote name listed)

theorem price_uncounted {request : Request} (reply : Reply request) (free : Uncounted request) :
    price request reply = 0 := by
  cases request with
  | count => exact free.elim
  | mkdirAll | readDir | openFile | createTemp | write | close | rename | remove => rfl

theorem uncounted_adds {α : Type} {attempt : Attempt α} {value : α → Prop} (uses : attempt.Uses Uncounted value) :
    Adds job contents mapped (Wrote names) attempt 0 fun result written => value result ∧ Wrote names written :=
  .of_uses uses (fun _ reply => price_uncounted reply) fun _ _ _ _ _ moved wrote => wrote.moved moved

theorem read_adds {request : Request} (free : Uncounted request) :
    Adds job contents mapped (Wrote names) (call request) 0 fun answer written =>
      (∃ before, Wrote names before ∧ Reads job contents mapped before request (.ok answer)) ∧ Wrote names written := by
  refine .of_eq (.ask (fun reply written =>
    (∃ before, Wrote names before ∧ Reads job contents mapped before request reply) ∧ Wrote names written) ?_
    (fun reply => price_uncounted reply free) fun reply => ?_) (add_zero _)
  · exact fun before reply after wrote moved => ⟨⟨before, wrote, moved.2⟩, wrote.moved moved⟩
  · cases reply with
    | ok => exact .pure fun _ ends => ends
    | error e => exact .fail

theorem call_adds {request : Request} (free : Uncounted request) :
    Adds job contents mapped (Wrote names) (call request) 0 fun _ => Wrote names :=
  (read_adds free).post_of fun _ _ ends => ends.2

theorem count_adds (name : String) (amount : Nat) :
    Adds job contents mapped (Wrote names) (call (.count name (Int64.ofNat amount))) (counted name amount)
      fun _ => Wrote names := by
  refine .of_eq (.ask (fun _ => Wrote names) (fun _ _ _ wrote moved => wrote.moved moved) (fun _ => rfl) fun reply => ?_)
    (add_zero _)
  cases reply with
  | ok => exact .pure fun _ wrote => wrote
  | error e => exact .fail

theorem rename_adds (origin : Name) (creator serial : Nat) (target : Name) :
    Adds job contents mapped (Wrote names) (call (.rename (.temp origin creator serial) target)) 0
      fun _ => Wrote fun name => name = target ∨ names name := by
  refine .of_eq (.ask (fun reply => Wrote fun name => name = target ∧ reply = .ok () ∨ names name) ?_ (fun _ => rfl)
    fun reply => ?_) (add_zero _)
  · rintro written reply after wrote moved name (⟨rfl, rfl⟩ | listed)
    · rw [moved.1]
      exact Or.inl rfl
    · exact wrote.moved moved name listed
  · cases reply with
    | ok =>
      refine .pure fun written wrote name listed => wrote name (listed.imp_left fun same => ⟨same, rfl⟩)
    | error e => exact .fail

theorem uses_any {α : Type} (attempt : Attempt α) : attempt.Uses (fun _ => True) fun _ => True := by
  induction attempt with
  | done result => cases result <;> trivial
  | ask request next ih => exact ⟨trivial, ih⟩

/-- Publishing a file adds what its callback adds, and the process has written it. -/
theorem writeAtomic_adds {α : Type} {path : Name} {write : Path → Attempt α} {amount : Tally} {value : α → Prop}
    (body : ∀ temp, Adds job contents mapped (Wrote names) (write temp) amount
      fun result written => value result ∧ Wrote names written) :
    Adds job contents mapped (Wrote names) (Storage.writeAtomic path write) amount
      fun result written => value result ∧ Wrote (fun name => name = path ∨ names name) written := by
  unfold Storage.writeAtomic
  refine .free_bind (call_adds trivial) fun _ => .free_bind (read_adds trivial) fun temp => .given ?_
  rintro ⟨_, _, origin, creator, serial, rfl⟩
  refine .outcome_bind_free (body _) (fun result => .given fun good => ?_) fun e => ?_
  · refine .free_outcome_bind (call_adds trivial) (fun _ => ?_) fun e => (uses_any _).bind fun _ _ => trivial
    refine .free_outcome_bind (rename_adds origin creator serial path) (fun _ => ?_) fun e =>
      (uses_any _).bind fun _ _ => trivial
    exact .pure fun _ wrote => ⟨good, wrote⟩
  · exact (uses_any _).bind fun _ _ => (uses_any _).bind fun _ _ => trivial

end Prices

section Writing

theorem send_uncounted (w : Writer) (bytes : GoString) : (w.send bytes).Uses Uncounted fun _ => True :=
  ⟨trivial, fun reply => by cases reply <;> trivial⟩

theorem put_uncounted (w : Writer) (bytes : GoString) : (w.put bytes).Uses Uncounted fun _ => True := by
  unfold Writer.put
  split
  · trivial
  · split
    · trivial
    · split
      · apply send_uncounted
      · refine (send_uncounted _ _).bind fun w _ => ?_
        split
        · trivial
        · split
          · trivial
          · apply send_uncounted

theorem write_uncounted (w : Writer) (r : Record) : (w.write r).Uses Uncounted fun _ => True := by
  refine (put_uncounted _ _).bind fun _ _ => ?_
  refine (put_uncounted _ _).bind fun _ _ => ?_
  refine (put_uncounted _ _).bind fun _ _ => ?_
  apply put_uncounted

theorem writeOrFail_uncounted (w : Writer) (r : Record) : (w.writeOrFail r).Uses Uncounted fun _ => True := by
  refine (write_uncounted w r).bind fun w _ => ?_
  split <;> trivial

theorem flush_uncounted (w : Writer) : w.flush.Uses Uncounted fun _ => True := by
  unfold Writer.flush
  split
  · trivial
  · split
    · trivial
    · exact ⟨trivial, fun reply => by cases reply <;> trivial⟩

end Writing

section Mapping
variable {job : Job} {contents : GoString → Option GoString} {mapped : Prop} {names : Name → Prop} (opts : Options)

theorem writeRecords_adds (path : Name) (records : List Record) :
    Adds job contents mapped (Wrote names) (writeRecords path records) 0
      fun _ => Wrote fun name => name = path ∨ names name := by
  have kept : Adds job contents mapped (Wrote names) (writeRecords path records) 0
      fun _ written => True ∧ Wrote (fun name => name = path ∨ names name) written := by
    apply writeAtomic_adds
    intro temp
    refine uncounted_adds ?_
    refine (Uses.fold (fun w r _ => writeOrFail_uncounted w r) trivial records).bind fun w _ => ?_
    apply flush_uncounted
  exact kept.post_of fun _ _ ends => ends.2

/-- What combining a run for one partition counts. -/
def combineTally (run : List Record) (p : Nat) : Tally :=
  if opts.combiner.isSome then
    counted "combine.in" (partitionBuffer opts.numReducers (sortBuffer run) p).length +
      counted "combine.out" (outputOf opts run p).length
  else 0

def runTally (run : List Record) : Tally := ((List.range opts.numReducers).map (combineTally opts run)).sum

theorem countCombined_adds (run : List Record) (p : Nat) :
    Adds job contents mapped (Wrote names)
      (countCombined opts.combiner (partitionBuffer opts.numReducers (sortBuffer run) p)) (combineTally opts run p)
      fun _ => Wrote names := by
  unfold countCombined combineTally outputOf
  cases opts.combiner with
  | none => exact .pure fun _ wrote => wrote
  | some combine =>
    generalize partitionBuffer opts.numReducers (sortBuffer run) p = records
    cases records with
    | nil =>
      apply Spends.of_eq
      · exact .pure fun _ wrote => wrote
      · simp [applyCombiner, counted_zero]
    | cons r rest => exact .bind (count_adds _ _) fun _ => count_adds _ _

/-- A spill writes one run more. -/
theorem spill_adds (r : Runner) (full : r.buffer ≠ []) :
    Adds job contents mapped (Wrote (RunsUpTo opts r.spills)) (spill opts r)
      (runTally opts r.buffer + counted "map.spills" 1)
      fun after written => after =
          { spills := r.spills + 1,
            spilled := r.spilled ++ [(List.range opts.numReducers).map fun p => .spill opts.taskID r.spills p] } ∧
        Wrote (RunsUpTo opts (r.spills + 1)) written := by
  unfold spill
  rw [if_neg full]
  have loop : Adds job contents mapped (Wrote (RunsUpTo opts r.spills))
      (Program.each (fun p => do
        countCombined opts.combiner (partitionBuffer opts.numReducers (sortBuffer r.buffer) p)
        let path := Storage.spillPath opts.taskID r.spills p
        writeRecords path (outputOf opts r.buffer p)
        pure path) (List.range opts.numReducers)) (runTally opts r.buffer)
      fun paths written => paths = (List.range opts.numReducers).map (fun p => .spill opts.taskID r.spills p) ∧
        Wrote (RunsUpTo opts (r.spills + 1)) written := by
    refine .post_of (.pre_of (.each (fun p => .spill opts.taskID r.spills p) _
      (fun before => Wrote (RunsAnd opts r.spills before)) fun before p todo _ => ?_) ?_) ?_
    · refine .bind_free (countCombined_adds opts r.buffer p) fun _ => .free_bind (writeRecords_adds _ _) fun _ => ?_
      refine .pure fun written wrote => ⟨rfl, fun name listed => wrote name ?_⟩
      rcases listed with run | ⟨q, inside, same⟩
      · exact Or.inr (Or.inl run)
      · rcases List.mem_append.mp inside with old | new
        · exact Or.inr (Or.inr ⟨q, old, same⟩)
        · cases List.mem_singleton.mp new
          exact Or.inl same
    · exact fun written wrote name listed => wrote name (by simpa [RunsAnd] using listed)
    · exact fun paths written ends => ⟨ends.1, fun name listed => ends.2 name (runsAnd_all listed)⟩
  refine .bind loop fun paths => .given ?_
  rintro rfl
  exact .bind_free (count_adds "map.spills" 1) fun _ => .pure fun _ wrote => ⟨rfl, wrote⟩

/-- What reading lines that make the mapper emit these counts, with the runs they fill. -/
def linesTally (consumed : List (List Record)) : Tally :=
  counted "map.input_records" consumed.length + counted "map.emitted" consumed.flatten.length +
    ((cut opts.spillBytes consumed).runs.map fun run => runTally opts run + counted "map.spills" 1).sum

theorem linesTally_concat (consumed : List (List Record)) (emitted : List Record) :
    linesTally opts (consumed ++ [emitted]) = linesTally opts consumed +
      (counted "map.input_records" 1 + (counted "map.emitted" emitted.length +
        if opts.spillBytes ≤ bufferBytes ((cut opts.spillBytes consumed).buffer ++ emitted) ∧
            (cut opts.spillBytes consumed).buffer ++ emitted ≠ [] then
          runTally opts ((cut opts.spillBytes consumed).buffer ++ emitted) + counted "map.spills" 1
        else 0)) := by
  unfold linesTally
  rw [List.length_append, counted_add, List.flatten_append, List.length_append, counted_add, cut_line, absorb]
  split
  next full =>
    simp only [List.map_append, List.sum_append, List.map_singleton, List.sum_singleton, List.length_singleton,
      List.flatten_singleton]
    abel
  next =>
    simp only [List.length_singleton, List.flatten_singleton]
    abel

theorem consumeLine_raises (consumed : List (List Record)) (path line : GoString) :
    Raises price (Moves job contents mapped) (Wrote (RunsUpTo opts (runnerAt opts consumed).spills))
      (consumeLine opts path (runnerAt opts consumed) line) (linesTally opts consumed)
      (linesTally opts (consumed ++ [opts.mapper path line]))
      fun r written => r = runnerAt opts (consumed ++ [opts.mapper path line]) ∧ Wrote (RunsUpTo opts r.spills) written := by
  refine .of_spends (.bind (count_adds _ 1) fun _ => .bind (count_adds _ _) fun _ => ?_) (linesTally_concat ..)
  have bytes := emit_bytes opts consumed (opts.mapper path line)
  have buffer : (emit (runnerAt opts consumed) (opts.mapper path line)).buffer =
      (cut opts.spillBytes consumed).buffer ++ opts.mapper path line := rfl
  rw [← bytes, ← buffer]
  have roomy (kept : ¬ (opts.spillBytes ≤ (emit (runnerAt opts consumed) (opts.mapper path line)).bytes ∧
      (emit (runnerAt opts consumed) (opts.mapper path line)).buffer ≠ [])) :
      Adds job contents mapped (Wrote (RunsUpTo opts (runnerAt opts consumed).spills))
        (Pure.pure (emit (runnerAt opts consumed) (opts.mapper path line)) : Attempt Runner) 0
        fun r written => r = runnerAt opts (consumed ++ [opts.mapper path line]) ∧ Wrote (RunsUpTo opts r.spills) written :=
    .pure fun _ wrote => ⟨(runnerAt_roomy kept).symm, wrote⟩
  simp only
  by_cases full : opts.spillBytes ≤ (emit (runnerAt opts consumed) (opts.mapper path line)).bytes
  · rw [if_pos full]
    by_cases empty : (emit (runnerAt opts consumed) (opts.mapper path line)).buffer = []
    · rw [spill, if_pos empty, if_neg fun both => both.2 empty]
      exact roomy fun both => both.2 empty
    · rw [if_pos ⟨full, empty⟩]
      refine (spill_adds opts _ empty).post_of ?_
      rintro r written ⟨rfl, wrote⟩
      exact ⟨(runnerAt_full full empty).symm, wrote⟩
  · rw [if_neg full, if_neg fun both => full both.1]
    exact roomy fun both => full both.1

/-- Consuming a file reads it to its end. -/
theorem consume_raises (early : List GoString) (path : GoString) :
    Raises price (Moves job contents mapped)
      (Wrote (RunsUpTo opts (runnerAt opts (early.flatMap (emissionsOf opts contents))).spills))
      (consume opts (runnerAt opts (early.flatMap (emissionsOf opts contents))) path)
      (linesTally opts (early.flatMap (emissionsOf opts contents)))
      (linesTally opts ((early ++ [path]).flatMap (emissionsOf opts contents)))
      fun r written => r = runnerAt opts ((early ++ [path]).flatMap (emissionsOf opts contents)) ∧
        Wrote (RunsUpTo opts r.spills) written := by
  unfold consume
  refine .bind (.of_spends (read_adds trivial) (add_zero _).symm) fun stream => .given ?_
  rintro ⟨_, _, bytes, found, rfl | ⟨_, broken⟩⟩
  case inr =>
    have failed : (Scanner.scan stream).2 ≠ none := fun ended => broken (tokens_readErr ended)
    refine .of_doomed ((uses_any _).bind fun r _ => ?_)
    split
    next => trivial
    next ended => exact failed ended
  have scan : Scanner.scan { bytes := bytes } = scanned contents path := by simp [scanned, found]
  have lines : (early ++ [path]).flatMap (emissionsOf opts contents) =
      early.flatMap (emissionsOf opts contents) ++ (scanned contents path).1.map (opts.mapper path) := by
    simp [emissionsOf]
  rw [lines]
  simp only [scan]
  generalize scanned contents path = pair
  obtain ⟨lines, err⟩ := pair
  generalize early.flatMap (emissionsOf opts contents) = consumed
  have read : Raises price (Moves job contents mapped) (Wrote (RunsUpTo opts (runnerAt opts consumed).spills))
      (Program.fold (consumeLine opts path) (runnerAt opts consumed) lines) (linesTally opts consumed)
      (linesTally opts (consumed ++ lines.map (opts.mapper path)))
      fun r written => r = runnerAt opts (consumed ++ lines.map (opts.mapper path)) ∧
        Wrote (RunsUpTo opts r.spills) written := by
    intro base account begun
    obtain ⟨low, wrote⟩ := begun
    refine Raises.fold (fun before => linesTally opts (consumed ++ before.map (opts.mapper path)))
      (fun before r written => r = runnerAt opts (consumed ++ before.map (opts.mapper path)) ∧
        Wrote (RunsUpTo opts r.spills) written) (fun before line todo r _ => .given ?_) base account ⟨?_, ?_, wrote⟩
    · rintro rfl
      rw [List.map_append, ← List.append_assoc]
      exact consumeLine_raises opts _ path line
    · rw [List.map_nil, List.append_nil]
      exact low
    · rw [List.map_nil, List.append_nil]
  refine .bind read fun r => ?_
  cases err with
  | some e => exact .of_spends .fail (add_zero _).symm
  | none => exact .of_spends (.pure fun _ ends => ends) (add_zero _).symm

theorem consumeAll_raises :
    Raises price (Moves job contents mapped) (Wrote fun _ => False) (Program.fold (consume opts) {} opts.inputFiles) 0
      (linesTally opts (emissions opts contents))
      fun r written => r = runnerAt opts (emissions opts contents) ∧ Wrote (RunsUpTo opts r.spills) written := by
  intro base account ⟨low, wrote⟩
  refine Raises.fold (fun before => linesTally opts (before.flatMap (emissionsOf opts contents)))
    (fun before r written => r = runnerAt opts (before.flatMap (emissionsOf opts contents)) ∧
      Wrote (RunsUpTo opts r.spills) written) (fun before path todo r _ => .given ?_) base account ⟨?_, rfl, ?_⟩
  · rintro rfl
    exact consume_raises opts before path
  · rw [low]
    simp [linesTally, cut, counted_zero]
  · rintro name ⟨_, below, _⟩
    exact absurd below (Nat.not_lt_zero _)

theorem removeStaleSpills_adds :
    Adds job contents mapped (Wrote names) (removeStaleSpills opts) 0 fun _ => Wrote names := by
  refine .free_bind (call_adds trivial) fun entries => ?_
  refine .free_bind (.each_free fun path _ => call_adds trivial) fun _ => ?_
  exact .pure fun _ wrote => wrote

/-- What is written for all partitions counts as the output of a task. -/
def outputTally (outputs : Nat → Nat) : Tally :=
  counted "map.output_records" ((List.range opts.numReducers).map outputs).sum

theorem writeFinal_adds (r : Runner) :
    Adds job contents mapped (fun _ => True) (writeFinalFromBuffer opts r)
      (runTally opts r.buffer + outputTally opts fun p => (outputOf opts r.buffer p).length) fun _ _ => True := by
  refine .bind_free (.of_eq (.pre_of (.each (fun _ => ())
    (fun p => combineTally opts r.buffer p + counted "map.output_records" (outputOf opts r.buffer p).length)
    (fun _ => Wrote fun _ => False) fun before p todo _ => ?_) fun _ _ => nofun) ?_) fun _ => .pure fun _ _ => trivial
  · refine .bind (countCombined_adds opts r.buffer p) fun _ => .free_bind (writeRecords_adds _ _) fun _ => ?_
    exact (count_adds _ _).post_of fun _ _ _ => ⟨rfl, nofun⟩
  · rw [List.sum_map_add, counted_sum]
    rfl

end Mapping

theorem doomed_fold {α β : Type} {body : β → α → Attempt β} {start : β} {items : List α} {e : Err} :
    Uses (fun _ => True) (fun _ => False) (do
      let _ ← Program.fold body start items
      Program.fail e : Attempt Unit) := (uses_any _).bind fun _ _ => trivial

theorem writeAtomic_doomed {α : Type} {path : Name} {write : Path → Attempt α}
    (doomed : ∀ temp, (write temp).Uses (fun _ => True) fun _ => False) :
    (Storage.writeAtomic path write).Uses (fun _ => True) fun _ => False := by
  unfold Storage.writeAtomic
  refine (uses_any _).bind fun _ _ => (uses_any _).bind fun temp _ => (doomed temp).outcome.bind fun result failed => ?_
  cases result with
  | ok value => exact (failed value rfl).elim
  | error e => exact (uses_any _).bind fun _ _ => (uses_any _).bind fun _ _ => trivial

/-- Merging what was written for a partition brings together all of it. -/
theorem merged_length {opts : Options} {buffers : List (List Record)} {p : Nat} {out : List Record}
    (drained : Merger.drain
      { sources := (buffers.map fun run => Record.encodeAll (outputOf opts run p)).map
          fun bytes => Source.ofStream { bytes := bytes } } = (out, none)) :
    out.length = (buffers.flatMap fun run => outputOf opts run p).length := by
  have sources : (buffers.map fun run => Record.encodeAll (outputOf opts run p)).map
      (fun bytes => Source.ofStream { bytes := bytes }) =
      (buffers.map fun run => outputOf opts run p).map fun file => Source.ofStream { bytes := Record.encodeAll file } := by
    simp
  rw [sources] at drained
  rcases drain_files (buffers.map fun run => outputOf opts run p) with ⟨all, same, _, perm, _⟩ | ⟨_, _, failed, _⟩
  · cases drained.symm.trans same
    rw [perm.length_eq, List.length_map, List.flatMap_def]
  · cases drained.symm.trans failed

section Merging
variable {job : Job} {contents : GoString → Option GoString} {mapped : Prop} {opts : Options}
  (plan : mapPlan job opts.taskID = opts)
include plan

theorem openRun_adds {n p : Nat} {names : Name → Prop} (run : names (.spill opts.taskID n p)) :
    Adds job contents mapped (Wrote names) (call (.openFile (.file (.spill opts.taskID n p)))) 0 fun stream written =>
      Partly True (spillContent opts contents n p) stream ∧ Wrote names written := by
  have free : Uncounted (.openFile (.file (.spill opts.taskID n p))) := trivial
  refine (read_adds free).post_of ?_
  rintro stream written ⟨⟨_, wrote, reads⟩, after⟩
  have partly := reads (wrote _ run)
  rw [plan] at partly
  exact ⟨partly, after⟩

theorem openRuns_adds {k p : Nat} (below : p < opts.numReducers) :
    Adds job contents mapped (Wrote (RunsUpTo opts k))
      (Program.each (fun path => call (.openFile (.file path))) (runNames opts k p)) 0
      fun streams written => List.Forall₂ (fun name => Partly True (ownRun opts contents name)) (runNames opts k p) streams ∧
        Wrote (RunsUpTo opts k) written := by
  refine .of_eq (.pre_of (.collect (fun _ => 0)
    (fun before (streams : List Stream) written =>
      List.Forall₂ (fun name => Partly True (ownRun opts contents name)) before streams ∧ Wrote (RunsUpTo opts k) written)
    fun before name todo streams cut => .given fun read => ?_) fun _ wrote => ⟨.nil, wrote⟩) (by simp)
  have member : name ∈ runNames opts k p := by simp [cut]
  obtain ⟨n, inside, rfl⟩ := List.mem_map.mp member
  refine (openRun_adds plan ⟨n, List.mem_range.mp inside, p, below, rfl⟩).post_of fun stream written ends => ⟨?_, ends.2⟩
  exact List.rel_append read (.cons ends.1 .nil)

theorem mergePartition_adds {p : Nat} {spilled : List (List Name)} (below : p < opts.numReducers)
    (paths : (spilled.filterMap fun paths => paths[p]?) = runNames opts (runs opts contents).length p) :
    Adds job contents mapped (Wrote (RunsUpTo opts (runs opts contents).length)) (mergePartition opts spilled p)
      (counted "map.output_records" ((runs opts contents).flatMap fun run => outputOf opts run p).length)
      fun _ => Wrote (RunsUpTo opts (runs opts contents).length) := by
  unfold mergePartition
  rw [paths]
  refine .free_bind (openRuns_adds plan below) fun streams => .given fun read => ?_
  generalize drained : Merger.drain { sources := streams.map Source.ofStream } = merging
  obtain ⟨records, err⟩ := merging
  cases err with
  | some e => exact .of_doomed ((writeAtomic_doomed fun temp => doomed_fold).bind fun _ impossible => impossible.elim)
  | none =>
    have count : records.length = ((runs opts contents).flatMap fun run => outputOf opts run p).length := by
      apply merged_length
      rcases partly_all read with rfl | ⟨_, stream, member, broken⟩
      · rw [← drained, ← own_runNames, List.map_map, List.map_map]
        rfl
      · exact absurd (drain_readErr (congrArg Prod.snd drained) member) broken
    rw [← count]
    refine .free_bind (writeRecords_adds (Storage.intermediatePath opts.taskID p) records) fun _ => ?_
    refine (count_adds "map.output_records" records.length).post_of fun _ written wrote => ?_
    exact fun name listed => wrote name (Or.inr listed)

theorem mergeSpills_adds {r : Runner} (spilled : r.spilled = (List.range (runs opts contents).length).map fun n =>
      (List.range opts.numReducers).map fun p => .spill opts.taskID n p) :
    Adds job contents mapped (Wrote (RunsUpTo opts (runs opts contents).length)) (mergeSpills opts r)
      (outputTally opts fun p => ((runs opts contents).flatMap fun run => outputOf opts run p).length) fun _ _ => True := by
  refine .bind_free (.of_eq (.each (fun _ => ())
    (fun p => counted "map.output_records" ((runs opts contents).flatMap fun run => outputOf opts run p).length)
    (fun _ => Wrote (RunsUpTo opts (runs opts contents).length)) fun before p todo cut => ?_) (counted_sum ..)) fun _ =>
      .given fun _ =>
      .free_bind (.each_free fun path _ => ?_) fun _ => .pure fun _ _ => trivial
  · have below : p < opts.numReducers := by
      rw [← List.mem_range, cut]
      simp
    refine (mergePartition_adds plan below ?_).post_of fun _ _ wrote => ⟨rfl, wrote⟩
    simp [spilled, runNames, List.filterMap_map, List.getElem?_range below]
  · have uses : (tryRemove path).Uses Uncounted fun _ => True := ⟨trivial, fun _ => trivial⟩
    exact (uncounted_adds uses).post_of fun _ _ ends => ends.2

/-- What a map task counts. -/
def mapTally (opts : Options) (contents : GoString → Option GoString) : Tally :=
  counted "map.input_records" (emissions opts contents).length +
    counted "map.emitted" (emissions opts contents).flatten.length +
    (((batches opts contents).map (runTally opts)).sum + counted "map.spills" (runs opts contents).length) +
    outputTally opts fun p => (written opts contents p).length

omit plan in
theorem spilledTally (cuts : List (List Record)) :
    (cuts.map fun run => runTally opts run + counted "map.spills" 1).sum =
      (cuts.map (runTally opts)).sum + counted "map.spills" cuts.length := by
  rw [List.sum_map_add, counted_sum]
  simp

theorem runFrom_adds : Adds job contents mapped (Wrote fun _ => False) (runFrom opts) (mapTally opts contents)
    fun _ _ => True := by
  refine .free_bind (call_adds trivial) fun _ => .free_bind (removeStaleSpills_adds opts) fun _ => ?_
  have merge (r : Runner) (rest : runs opts contents ≠ [])
      (spilled : r.spilled = (List.range (runs opts contents).length).map
      fun n => (List.range opts.numReducers).map fun p => .spill opts.taskID n p) :
      Adds job contents mapped (Wrote (RunsUpTo opts (runs opts contents).length)) (mergeSpills opts r)
        (outputTally opts fun p => (written opts contents p).length) fun _ _ => True := by
    refine .of_eq (mergeSpills_adds plan spilled) ?_
    simp only [written, batches, if_neg rest]
  have total : linesTally opts (emissions opts contents) =
      counted "map.input_records" (emissions opts contents).length +
        counted "map.emitted" (emissions opts contents).flatten.length +
        (((planned opts contents).runs.map (runTally opts)).sum +
          counted "map.spills" (planned opts contents).runs.length) := by
    rw [← spilledTally]
    rfl
  apply Raises.spends
  refine .bind (consumeAll_raises opts) fun r => .given ?_
  rintro rfl
  have buffer : (runnerAt opts (emissions opts contents)).buffer = (planned opts contents).buffer := rfl
  rw [total]
  split
  next unspilled =>
    have empty : (planned opts contents).runs = [] := by simpa [runnerAt, planned] using unspilled
    have nothing : runs opts contents = [] := by simp [runs, empty]
    refine .of_spends (.pre_of (writeFinal_adds opts _) fun _ _ => trivial) ?_
    have batch : batches opts contents = [(planned opts contents).buffer] := if_pos nothing
    rw [buffer, empty]
    simp only [mapTally, written, batch, nothing, List.length_nil, counted_zero, List.map_nil, List.map_cons, List.sum_nil,
      List.sum_cons, List.flatMap_cons, List.flatMap_nil, List.append_nil, add_zero, add_assoc]
  next spilled =>
    have nonempty : (planned opts contents).runs ≠ [] := by
      intro empty
      exact spilled (by simpa [runnerAt, planned] using empty)
    by_cases left : (runnerAt opts (emissions opts contents)).buffer = []
    · have same : runs opts contents = (planned opts contents).runs := by
        have empty : (planned opts contents).buffer = [] := left
        simp [runs, empty]
      rw [if_neg (not_not.mpr left)]
      refine .of_spends (.pre_of (merge _ (same ▸ nonempty) (by rw [same]; rfl)) ?_) ?_
      · intro written wrote
        rwa [same]
      · rw [mapTally, batches, if_neg (same ▸ nonempty), same]
    · have filled : (planned opts contents).buffer ≠ [] := left
      have same : runs opts contents = (planned opts contents).runs ++ [(planned opts contents).buffer] := by
        simp [runs, nonempty, filled]
      have more : runs opts contents ≠ [] := by simp [same]
      rw [if_pos left]
      have last (r : Runner) : Adds job contents mapped (fun written => r =
            { spills := (runnerAt opts (emissions opts contents)).spills + 1,
              spilled := (runnerAt opts (emissions opts contents)).spilled ++ [(List.range opts.numReducers).map fun p =>
                .spill opts.taskID (runnerAt opts (emissions opts contents)).spills p] } ∧
          Wrote (RunsUpTo opts ((runnerAt opts (emissions opts contents)).spills + 1)) written)
          (mergeSpills opts r) (outputTally opts fun p => (written opts contents p).length) fun _ _ => True := by
        refine .given fun spilled => .pre_of (merge r more ?_) fun written wrote => ?_
        · rw [spilled, same]
          simp [runnerAt, planned, List.range_succ]
        · rw [same]
          simpa [runnerAt, planned] using wrote
      refine .of_spends (.bind (spill_adds opts _ left) last) ?_
      rw [mapTally, batches, if_neg more, same, List.map_append, List.sum_append, List.map_singleton,
        List.sum_singleton, List.length_append, List.length_singleton, counted_add, buffer,
        add_add_add_comm ((planned opts contents).runs.map (runTally opts)).sum]
      simp only [add_assoc]

end Merging

/-- The counters of a finished map task: its lines, what the mapper emits for
them, the runs it spills and what it writes. What goes into the combiner is all
that was emitted, and what comes out is all that is written. -/
def mapCount (opts : Options) (contents : GoString → Option GoString) : String → Nat :=
  let emitted := (emissions opts contents).flatten.length
  let written := ((List.range opts.numReducers).map fun p => (written opts contents p).length).sum
  Pi.single "map.input_records" (emissions opts contents).length + Pi.single "map.emitted" emitted +
    Pi.single "map.spills" (runs opts contents).length + Pi.single "map.output_records" written +
    if opts.combiner.isSome then Pi.single "combine.in" emitted + Pi.single "combine.out" written else 0

theorem counted_apply (name other : String) (amount : Nat) :
    counted name amount other = Int64.ofNat ((Pi.single name amount : String → Nat) other) := by
  unfold counted
  by_cases same : other = name
  · subst same
    rw [Pi.single_eq_same, Pi.single_eq_same]
  · rw [Pi.single_eq_of_ne same, Pi.single_eq_of_ne same]
    rfl

theorem sum_hit {k n : Nat} (below : k < n) : ((List.range n).map fun p => if k = p then 1 else 0).sum = 1 := by
  induction n with
  | zero => cases below
  | succ n ih =>
    rw [List.range_succ, List.map_append, List.sum_append, List.map_singleton, List.sum_singleton]
    rcases Nat.lt_succ_iff_lt_or_eq.mp below with early | rfl
    · rw [ih early, if_neg early.ne]
    · have empty : (List.range k).map (fun p => if k = p then 1 else 0) = (List.range k).map fun _ => 0 :=
        List.map_congr_left fun p inside => if_neg (List.mem_range.mp inside).ne'
      simp [empty]

/-- Each record of a run goes to one partition. -/
theorem partitions_length {numReducers : Nat} (reducers : 1 ≤ numReducers) (run : List Record) :
    ((List.range numReducers).map fun p => (partitionBuffer numReducers (sortBuffer run) p).length).sum = run.length := by
  rw [← (sortBuffer_perm run).length_eq]
  unfold partitionBuffer
  induction sortBuffer run with
  | nil => simp
  | cons r rest ih =>
    have step (p : Nat) : ((r :: rest).filter fun record => Storage.partition record.key numReducers == p).length =
        (rest.filter fun record => Storage.partition record.key numReducers == p).length +
          if Storage.partition r.key numReducers = p then 1 else 0 := by
      rw [List.filter_cons]
      by_cases here : Storage.partition r.key numReducers = p <;> simp [here]
    simp only [step]
    rw [List.sum_map_add, ih, sum_hit (PipelineCorrectness.partition_lt r.key reducers), List.length_cons]

/-- What combining its runs counts for a task as a whole. -/
theorem runTally_sum (opts : Options) (buffers : List (List Record)) : (buffers.map (runTally opts)).sum =
    if opts.combiner.isSome then
      counted "combine.in" (buffers.map fun run =>
        ((List.range opts.numReducers).map fun p =>
          (partitionBuffer opts.numReducers (sortBuffer run) p).length).sum).sum +
      counted "combine.out" (buffers.map fun run =>
        ((List.range opts.numReducers).map fun p => (outputOf opts run p).length).sum).sum
    else 0 := by
  unfold runTally combineTally
  split
  · simp only [List.sum_map_add, counted_sum]
  · simp

/-- All that is emitted is routed to some partition of the batch it is in. -/
theorem routed_emitted {opts : Options} (reducers : 1 ≤ opts.numReducers) (contents : GoString → Option GoString) :
    ((batches opts contents).map fun run => ((List.range opts.numReducers).map fun p =>
      (partitionBuffer opts.numReducers (sortBuffer run) p).length).sum).sum = (emissions opts contents).flatten.length := by
  simp only [partitions_length reducers]
  rw [← batches_flatten, List.length_flatten]

/-- What is written for all partitions, batch by batch. -/
theorem written_batches (opts : Options) (contents : GoString → Option GoString) :
    ((batches opts contents).map fun run => ((List.range opts.numReducers).map fun p =>
      (outputOf opts run p).length).sum).sum =
      ((List.range opts.numReducers).map fun p => (written opts contents p).length).sum := by
  simp only [written]
  induction batches opts contents with
  | nil => simp
  | cons run runs ih => simp only [List.map_cons, List.sum_cons, ih, List.flatMap_cons, List.length_append, List.sum_map_add]

theorem mapTally_apply {opts : Options} (reducers : 1 ≤ opts.numReducers) (contents : GoString → Option GoString)
    (name : String) :
    mapTally opts contents name = Int64.ofNat (mapCount opts contents name) := by
  have reordered (a b c d e : Int64) : a + b + (c + d) + e = a + b + d + e + c := by abel
  rw [mapTally, runTally_sum, routed_emitted reducers, written_batches, outputTally, mapCount]
  split <;> simp only [Pi.add_apply, counted_apply, Int64.ofNat_add, Pi.zero_apply, reordered] <;> rfl

theorem mapRun_adds (job : Job) (contents : GoString → Option GoString) (mapped : Prop) (m : Nat) :
    Adds job contents mapped (Wrote fun _ => False) (Mapper.run (job.mapOptions m)) (mapTally (mapPlan job m) contents)
      fun _ _ => 1 ≤ job.numReducers := by
  unfold Mapper.run
  split
  next => exact .fail
  next positive =>
    have plan : mapPlan job (mapPlan job m).taskID = mapPlan job m := by simp [mapPlan, Job.mapOptions]
    exact (runFrom_adds plan).post_of fun _ _ _ => not_lt.mp positive

section Reducing
variable {job : Job} {contents : GoString → Option GoString} {mapped : Prop} {names : Name → Prop}

/-- What one call of `Reduce` counts. -/
def callTally (reducer : Reducer) (call : GoString × List GoString) : Tally :=
  counted "reduce.emitted" (reducer call.1 call.2).length + (counted "reduce.keys" 1 + counted "reduce.values" call.2.length)

/-- What a reduce task counts. -/
def reduceTally (reducer : Reducer) (calls : Reducer.Calls) : Tally := (calls.map (callTally reducer)).sum

theorem reduceTally_append (reducer : Reducer) (first second : Reducer.Calls) :
    reduceTally reducer (first ++ second) = reduceTally reducer first + reduceTally reducer second := by
  rw [reduceTally, List.map_append, List.sum_append]
  rfl

theorem emitAll_adds (key : GoString) (w : Writer) (values : List GoString) :
    Adds job contents mapped (Wrote names) (Program.fold (Reducer.emit key) w values)
      (counted "reduce.emitted" values.length) fun _ => Wrote names := by
  apply Raises.spends
  rw [← counted_zero "reduce.emitted"]
  refine .fold (fun before => counted "reduce.emitted" before.length) (fun _ _ => Wrote names)
    fun before value todo w _ => ?_
  refine .of_spends (.free_bind (uncounted_adds (write_uncounted w _)) fun w => .given fun _ =>
    .bind_free (count_adds "reduce.emitted" 1) fun _ => .pure fun _ wrote => wrote) ?_
  rw [List.length_append, counted_add, List.length_singleton]

theorem flush_adds (opts : Reducer.Options) (l : Reducer.Loop) :
    Adds job contents mapped (Wrote names) (Reducer.flush opts l) (reduceTally opts.reducer l.group.toList)
      fun after written => after.calls = l.calls ++ l.group.toList ∧ Wrote names written := by
  unfold Reducer.flush reduceTally
  cases l.group with
  | none => exact .pure fun _ wrote => ⟨by simp, wrote⟩
  | some group =>
    rw [Option.toList_some, List.map_singleton, List.sum_singleton, callTally]
    refine .bind (emitAll_adds group.1 l.writer _) fun w => .bind (count_adds "reduce.keys" 1) fun _ => ?_
    exact .bind_free (count_adds "reduce.values" _) fun _ => .pure fun _ wrote => ⟨rfl, wrote⟩

/-- The loop over the merged records has made the calls that are due. -/
theorem take_raises (opts : Reducer.Options) (g : Groups) (l : Reducer.Loop) (record : Record)
    (group : l.group = g.group) (calls : l.calls = g.closed) :
    Raises price (Moves job contents mapped) (Wrote names) (Reducer.take opts l record) (reduceTally opts.reducer g.closed)
      (reduceTally opts.reducer (gather g record).closed)
      fun after written => (after.group = (gather g record).group ∧ after.calls = (gather g record).closed) ∧
        Wrote names written := by
  unfold Reducer.take gather
  rw [group]
  cases opened : g.group with
  | none => exact .of_spends (.pure fun _ wrote => ⟨⟨rfl, calls⟩, wrote⟩) (add_zero _).symm
  | some current =>
    obtain ⟨key, values⟩ := current
    simp only
    split
    next =>
      refine .of_spends (.bind_free (flush_adds opts l) fun after => .given fun made => .pure fun _ wrote => ?_) ?_
      · rw [made, group, opened, calls]
        exact ⟨⟨rfl, rfl⟩, wrote⟩
      · rw [reduceTally_append, group, opened]
        rfl
    next => exact .of_spends (.pure fun _ wrote => ⟨⟨rfl, calls⟩, wrote⟩) (add_zero _).symm

/-- The callback of a reduce task makes a call for each group. -/
theorem callback_adds (opts : Reducer.Options) (records : List Record) (temp : Path) :
    Adds job contents mapped (Wrote names)
      (do
        let l ← Program.fold (Reducer.take opts) { writer := { file := temp } } records
        let l ← Reducer.flush opts l
        l.writer.flush
        pure l.calls)
      (reduceTally opts.reducer (groups records)) fun calls written => calls = groups records ∧ Wrote names written := by
  apply Raises.spends
  have taken : Raises price (Moves job contents mapped) (Wrote names)
      (Program.fold (Reducer.take opts) { writer := { file := temp } } records) 0
      (reduceTally opts.reducer (records.foldl gather {}).closed)
      fun l written => (l.group = (records.foldl gather {}).group ∧ l.calls = (records.foldl gather {}).closed) ∧
        Wrote names written := by
    intro base account ⟨low, wrote⟩
    refine Raises.fold (fun before => reduceTally opts.reducer (before.foldl gather {}).closed)
      (fun before (l : Reducer.Loop) written => (l.group = (before.foldl gather {}).group ∧
        l.calls = (before.foldl gather {}).closed) ∧
        Wrote names written) (fun before record todo l _ => .given fun same => ?_) base account ⟨low, ⟨rfl, rfl⟩, wrote⟩
    rw [List.foldl_append]
    exact take_raises opts _ l record same.1 same.2
  refine .bind taken fun l => .given fun same => ?_
  refine .of_spends (.bind_free (flush_adds opts l) fun after => .given fun made => .free_bind
    (uncounted_adds (flush_uncounted after.writer)) fun _ => .given fun _ => .pure fun _ wrote => ⟨?_, wrote⟩) ?_
  · rw [made, same.1, same.2]
    rfl
  · rw [← reduceTally_append, same.1]
    rfl

theorem openSources_adds {r : Nat} (below : r < job.numReducers) :
    Adds job contents True (Wrote names) (Reducer.openSources (job.reduceOptions r)) 0 fun streams written =>
      List.Forall₂ (fun m => Partly True (partOf job contents r m)) (List.range job.groups.length) streams ∧
        Wrote names written := by
  refine .free_bind (.of_eq (.pre_of (.collect (fun _ => 0)
    (fun before found written => (∃ streams, found = streams.map some ∧
      List.Forall₂ (fun m => Partly True (partOf job contents r m)) before streams) ∧ Wrote names written)
    fun before m todo found cut => .given ?_) fun _ wrote => ⟨⟨[], rfl, .nil⟩, wrote⟩) (by simp)) fun found => .given ?_
  · rintro ⟨streams, rfl, read⟩
    have inside : m < job.groups.length := by
      have listed : m ∈ List.range (job.reduceOptions r).numMappers := by simp [cut]
      exact List.mem_range.mp listed
    refine .of_eq (.ask (fun reply written =>
      ((∃ stream, reply = .ok stream ∧ Partly True (partOf job contents r m) stream) ∨
        ∃ e, reply = .error e ∧ e ≠ .notExist) ∧ Wrote names written) ?_ (fun _ => rfl) fun reply => .given ?_) (add_zero _)
    · exact fun written reply after wrote moved => ⟨moved.2 trivial inside below, wrote.moved moved⟩
    · rintro (⟨stream, rfl, partly⟩ | ⟨e, rfl, other⟩)
      · refine .pure fun _ wrote => ⟨⟨streams ++ [stream], by simp, ?_⟩, wrote⟩
        exact List.rel_append read (.cons partly .nil)
      · change Adds job contents True _ (if e = .notExist then Pure.pure none else Program.fail e) 0 _
        rw [if_neg other]
        exact .fail
  · rintro ⟨streams, rfl, read⟩
    exact .pure fun written wrote => ⟨by simpa [List.filterMap_map, Job.reduceOptions] using read, wrote⟩

/-- A reduce task that finds all parts makes the calls it is to make, or fails. -/
theorem reduceRun_adds {r : Nat} (below : r < job.numReducers) :
    Adds job contents True (Wrote names) (Reducer.run (job.reduceOptions r))
      (reduceTally job.reducer (callsOf job contents r))
      fun _ _ => True := by
  unfold Reducer.run
  split
  next => exact .fail
  next =>
    refine .free_bind (openSources_adds below) fun streams => .given fun read => ?_
    generalize drained : Merger.drain { sources := streams.map Source.ofStream } = merging
    obtain ⟨records, err⟩ := merging
    cases err with
    | some e => exact .of_doomed (writeAtomic_doomed fun temp => (uses_any _).bind fun _ _ => trivial)
    | none =>
      have planned : merged (job.reduceOptions r) (partOf job contents r) = (records, none) := by
        rcases partly_all read with rfl | ⟨_, stream, member, broken⟩
        · rw [← drained, List.map_map]
          rfl
        · exact absurd (drain_readErr (congrArg Prod.snd drained) member) broken
      rw [callsOf, planned]
      exact (writeAtomic_adds fun temp => callback_adds (job.reduceOptions r) records temp).post_of fun _ _ _ => trivial

/-- The counters of a finished reduce task. -/
def reduceCount (reducer : Reducer) (calls : Reducer.Calls) : String → Nat :=
  Pi.single "reduce.emitted" (answers reducer calls).length + Pi.single "reduce.keys" calls.length +
    Pi.single "reduce.values" (calls.map fun call => call.2.length).sum

theorem reduceTally_apply (reducer : Reducer) (calls : Reducer.Calls) (name : String) :
    reduceTally reducer calls name = Int64.ofNat (reduceCount reducer calls name) := by
  have answered : (answers reducer calls).length = (calls.map fun call => (reducer call.1 call.2).length).sum := by
    simp [answers, answer, List.length_flatMap]
  have all : reduceTally reducer calls = counted "reduce.emitted" (answers reducer calls).length +
      (counted "reduce.keys" calls.length + counted "reduce.values" (calls.map fun call => call.2.length).sum) := by
    unfold reduceTally callTally
    rw [List.sum_map_add, List.sum_map_add, counted_sum, counted_sum, counted_sum, answered]
    simp
  rw [all]
  simp only [Pi.add_apply, counted_apply, reduceCount, Int64.ofNat_add, Int64.add_assoc]

end Reducing

section Attempts
variable {job : Job} {contents : GoString → Option GoString} {mapped : Prop}

/-- The rules by which an attempt's counters go. -/
def counting (job : Job) (contents : GoString → Option GoString) (mapped : Prop) :
    Rules (Account Tally (Name → Prop)) Request Reply := metered price (Moves job contents mapped)

/-- Whoever ends well has counted this. -/
def Counts (count : String → Nat) : Except Err Unit → Account Tally (Name → Prop) → Prop :=
  Ends (fun _ => True) fun _ account => ∀ name, account.spent name = Int64.ofNat (count name)

theorem counting_step {request : Request} {next : Reply request → Attempt Unit} {count : String → Nat}
    {account after : Account Tally (Name → Prop)} {reply : Reply request}
    (safe : (Program.ask request next).Safe (counting job contents mapped) (Counts count) account)
    (paid : ∀ name, after.spent name = account.spent name + price request reply name)
    (moved : Moves job contents mapped account.state request reply after.state) :
    (next reply).Safe (counting job contents mapped) (Counts count) after := by
  have served : (counting job contents mapped).exec account request reply after := ⟨funext paid, moved⟩
  exact (safe.step served).2

theorem mapRun_counts (m : Nat) : (Mapper.run (job.mapOptions m)).Safe (counting job contents mapped)
    (Counts (mapCount (mapPlan job m) contents)) ⟨fun _ => 0, fun _ => False⟩ := by
  refine (mapRun_adds job contents mapped m 0 _ ⟨rfl, nofun⟩).mono fun result account ends => ?_
  cases result with
  | error e => trivial
  | ok =>
    have reducers : 1 ≤ (mapPlan job m).numReducers := by simpa [mapPlan, Job.mapOptions] using ends.2
    intro name
    rw [ends.1, zero_add]
    exact mapTally_apply reducers contents name

theorem reduceRun_counts {r : Nat} (below : r < job.numReducers) :
    (Reducer.run (job.reduceOptions r) >>= fun _ => pure ()).Safe (counting job contents True)
      (Counts (reduceCount job.reducer (callsOf job contents r))) ⟨fun _ => 0, fun _ => False⟩ := by
  have run : Adds job contents True (Wrote fun _ => False) (Reducer.run (job.reduceOptions r) >>= fun _ => pure ())
      (reduceTally job.reducer (callsOf job contents r)) fun _ _ => True :=
    .bind_free (reduceRun_adds below) fun _ => .pure fun _ _ => trivial
  refine (run 0 _ ⟨rfl, nofun⟩).mono fun result account ends => ?_
  cases result with
  | error e => trivial
  | ok =>
    intro name
    rw [ends.1, zero_add]
    exact reduceTally_apply ..

end Attempts
end FromScratch.Proofs.TaskCounters
