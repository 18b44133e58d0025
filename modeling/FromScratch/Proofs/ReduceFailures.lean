import FromScratch.Lib.Execution
import FromScratch.Proofs.FileSteps
import FromScratch.Proofs.ReduceOutput

/-! A reduce task whose files break off, whose lines do not parse and whose writes
are refused: it publishes all it should or nothing. -/

namespace FromScratch.Proofs.ReduceFailures
open FromScratch.MapReduce Reducer Lib Program FileSteps WriterRules MergeOrder ReduceAttempt ReduceOutput

section Runs
variable {me : Nat} {w w' : World} {guarantee : World → World → Prop}

theorem call_executes {request : Request} {result : Reply request}
    (ran : Executes (World.Delivers me) (call request) w result w') :
    w.Delivers me request result w' := by
  cases ran with
  | ask served rest =>
    cases rest
    exact served

theorem call_alone {request : Request} {pre : World → Prop} {error : Err → Prop} {post : Answer request → World → Prop}
    (served : ∀ w reply w', pre w → w.Delivers me request reply w' → guarantee w w' ∧ Ends error post reply w') :
    Triple (alone (World.Delivers me) guarantee) pre (call request) (Ends error post) := by
  refine .ask (Ends error post) stable_alone served fun reply w holds => ?_
  rintro _ rfl
  exact holds

theorem executes_untouched {α : Type} {program : Attempt α} {post : Except Err α → World → Prop} {path : Path}
    {result : Except Err α} (safe : program.Safe (alone (World.Delivers me) guarantee) post w)
    (kept : ∀ before after, guarantee before after → after.files.lookup path = before.files.lookup path)
    (ran : Executes (World.Delivers me) program w result w') :
    post result w' ∧ w'.files.lookup path = w.files.lookup path := by
  have framed : program.Safe (alone (World.Delivers me) guarantee)
      (fun result after => post result after ∧ after.files.lookup path = w.files.lookup path) w :=
    safe.frame stable_alone (fun before after promise same => (kept before after promise).trans same) rfl
  exact framed.executes ran

theorem discard_executes {α : Type} {temp : Path} {path : Name} {e : Err} {result : Except Err α} (other : temp ≠ .file path)
    (ran : Executes (World.Delivers me) (do let _ ← (call (.remove temp)).outcome; .fail e) w result w') :
    result = .error e ∧ w'.files.lookup (.file path) = w.files.lookup (.file path) := by
  obtain ⟨_, middle, removed, rest⟩ := ran.outcome_bind
  cases rest
  exact ⟨rfl, delivers_unchanged (call_executes removed) (by simpa [changed] using other.symm)⟩

/-- What is published is what the callback left in its file. -/
theorem writeAtomic_executes {α : Type} {path : Name} {write : Path → Attempt α} {result : Except Err α}
    (kept : ∀ serial begun inner ended, Executes (World.Delivers me) (write (.temp path me serial)) begun inner ended →
      begun.files.lookup (.temp path me serial) = some [] →
      ended.files.lookup (.file path) = begun.files.lookup (.file path))
    (ran : Executes (World.Delivers me) (Storage.writeAtomic path write) w result w') :
    (∃ e, result = .error e) ∧ w'.files.lookup (.file path) = w.files.lookup (.file path) ∨
      ∃ value serial begun ended content, result = .ok value ∧ begun.files.lookup (.temp path me serial) = some [] ∧
        Executes (World.Delivers me) (write (.temp path me serial)) begun (.ok value) ended ∧
        ended.files.lookup (.temp path me serial) = some content ∧ w'.files.lookup (.file path) = some content := by
  rcases ran.bind with ⟨e, rfl, made⟩ | ⟨_, first, made, ran⟩
  · exact Or.inl ⟨⟨e, rfl⟩, delivers_unchanged (call_executes made) (by simp [changed])⟩
  have before : first.files.lookup (.file path) = w.files.lookup (.file path) :=
    delivers_unchanged (call_executes made) (by simp [changed])
  rcases ran.bind with ⟨e, rfl, created⟩ | ⟨temp, begun, created, ran⟩
  · exact Or.inl ⟨⟨e, rfl⟩, (delivers_unchanged (call_executes created) (by simp [changed])).trans before⟩
  have aside : begun.files.lookup (.file path) = first.files.lookup (.file path) :=
    delivers_unchanged (call_executes created) (by simp [changed])
  rcases delivers_createTemp (call_executes created) with ⟨⟨_, failed⟩, _⟩ | ⟨fresh, empty, _⟩
  · cases failed
  cases fresh
  obtain ⟨inner, ended, wrote, ran⟩ := ran.outcome_bind
  have written := ((kept _ _ _ _ wrote empty).trans aside).trans before
  cases inner with
  | error e =>
    obtain ⟨_, shut, closed, ran⟩ := ran.outcome_bind
    have closed : shut.files.lookup (.file path) = ended.files.lookup (.file path) :=
      delivers_unchanged (call_executes closed) (by simp [changed])
    obtain ⟨rfl, removed⟩ := discard_executes (by simp) ran
    exact Or.inl ⟨⟨e, rfl⟩, (removed.trans closed).trans written⟩
  | ok value =>
    obtain ⟨reply, shut, closed, ran⟩ := ran.outcome_bind
    have same (path : Path) : shut.files.lookup path = ended.files.lookup path :=
      delivers_unchanged (call_executes closed) (by simp [changed])
    cases reply with
    | error e =>
      obtain ⟨rfl, removed⟩ := discard_executes (by simp) ran
      exact Or.inl ⟨⟨e, rfl⟩, (removed.trans (same _)).trans written⟩
    | ok =>
      obtain ⟨reply, named, renamed, ran⟩ := ran.outcome_bind
      rcases delivers_rename (call_executes renamed) with ⟨⟨e, rfl⟩, files⟩ | ⟨rfl, content, found, published⟩
      · obtain ⟨rfl, removed⟩ := discard_executes (by simp) ran
        rw [files, same, written] at removed
        exact Or.inl ⟨⟨e, rfl⟩, removed⟩
      · cases ran
        rw [same] at found
        exact Or.inr ⟨value, _, begun, ended, content, rfl, empty, wrote, found, published⟩

/-- A temporary file takes what is written to it, or the write is refused. -/
theorem temp_sink (me : Nat) (temp : Path) :
    Sink (alone (World.Delivers me) fun w w' => ∀ path, path ≠ temp → w'.files.lookup path = w.files.lookup path) True temp
      fun content w => w.files.lookup temp = some content where
  stable _ := stable_alone
  write content bytes := by
    refine call_alone fun w reply w' found served => ⟨fun path other => ?_, ?_⟩
    · exact delivers_unchanged served (by simpa [changed] using other)
    · obtain ⟨written, _, left, whole⟩ := delivers_write served
      cases reply with
      | error => trivial
      | ok =>
        rw [found, whole rfl] at left
        exact left
  quiet _ _ _ files _ found := by rwa [files]
  count name delta fact _ quiet := by
    refine call_alone fun w reply w' holds served => ⟨fun path _ => delivers_unchanged served (by simp [changed]), ?_⟩
    rcases served with (performed | fault) | broken
    · cases performed
      exact quiet w _ rfl rfl holds
    · cases fault with
      | refused real => exact absurd rfl (real name delta)
    · cases broken

end Runs

section Task
variable {opts : Options} {parts : Nat → GoString} {me : Nat} {w w' : World}

/-- Every mapper's file of the partition is there. -/
def Present (opts : Options) (parts : Nat → GoString) (w : World) : Prop :=
  ∀ m < opts.numMappers, w.files.lookup (.file (Storage.intermediatePath m opts.taskID)) = some (parts m)

/-- What reading a file delivered, and whether that is all. -/
def Partly (bytes : GoString) (stream : Stream) : Prop :=
  stream.bytes <+: bytes ∧ (stream.readErr = none → stream.bytes = bytes)

/-- None of the files is taken for missing. -/
theorem openSources_partly :
    Triple (alone (World.Delivers me) fun w w' => ∀ path, w'.files.lookup path = w.files.lookup path) (Present opts parts)
      (openSources opts) (Ends (fun _ => True) fun streams _ =>
        List.Forall₂ (fun m => Partly (parts m)) (List.range opts.numMappers) streams) := by
  intro w present
  refine Triple.bind (Triple.collect (fun before found w => (∃ streams, found = streams.map some ∧
    List.Forall₂ (fun m => Partly (parts m)) before streams) ∧ Present opts parts w) (fun _ _ => stable_alone)
    fun before m todo found cut => .given ?_) (fun found => ?_) w ⟨⟨[], rfl, .nil⟩, present⟩
  · rintro ⟨streams, rfl, read⟩
    have inside : m < opts.numMappers := by
      rw [← List.mem_range, cut]
      simp
    have opening : Triple (alone (World.Delivers me) fun w w' => ∀ path, w'.files.lookup path = w.files.lookup path)
        (Present opts parts) (call (.openFile (.file (Storage.intermediatePath m opts.taskID))))
        (Ends (fun e => e ≠ .notExist) fun (stream : Stream) w => Partly (parts m) stream ∧ Present opts parts w) := by
      refine call_alone fun w reply w' present served => ?_
      have same (path : Path) : w'.files.lookup path = w.files.lookup path := delivers_unchanged served (by simp [changed])
      refine ⟨same, ?_⟩
      have answered := delivers_openFile served (present m inside)
      cases reply with
      | error e => exact answered
      | ok stream => exact ⟨answered, fun m inside => (same _).trans (present m inside)⟩
    refine .bind opening.outcome fun reply => ?_
    cases reply with
    | error e =>
      intro w other
      simp only [if_neg (show ¬ e = .notExist from other)]
      exact fun _ _ => trivial
    | ok stream =>
      refine .given fun partly => .pure stable_alone fun w present => ⟨⟨streams ++ [stream], by simp, ?_⟩, present⟩
      exact List.rel_append read (.cons partly .nil)
  · refine .pure stable_alone ?_
    rintro w ⟨⟨streams, rfl, read⟩, _⟩
    simpa [List.filterMap_map] using read

end Task

section Errors

theorem readAll_remains {source : Source} (clean : (remains source).2 = none) : source.readAll = .ok (remains source).1 := by
  induction left : (remains source).1 generalizing source with
  | nil =>
    have finished := next_end (Prod.ext left clean)
    rw [Source.readAll.eq_def]
    split
    next failed => cases finished.symm.trans failed
    next => rfl
    next more => cases finished.symm.trans more
  | cons record records ih =>
    obtain ⟨later, read, rest⟩ := next_cons (Prod.ext left rfl)
    rw [Source.readAll.eq_def]
    split
    next failed => cases read.symm.trans failed
    next finished => cases read.symm.trans finished
    next more =>
      cases read.symm.trans more
      rw [ih (by rw [rest, clean]) (by rw [rest])]
      rfl

/-- A merge without an error has read every file to its end. -/
theorem drain_whole {parts : Nat → GoString} {tasks : List Nat} {streams : List Stream} {records : List Record}
    (read : List.Forall₂ (fun m => Partly (parts m)) tasks streams)
    (drained : Merger.drain { sources := streams.map Source.ofStream } = (records, none)) :
    ∃ files : List (List Record), (tasks.map fun m => (Source.ofStream { bytes := parts m }).readAll) = files.map .ok ∧
      records.Perm files.flatten ∧ ((∀ file ∈ files, Ordered file) → Ordered records) := by
  rcases drain_sources (streams.map Source.ofStream) with ⟨out, same, clean, perm, ordered⟩ | ⟨_, _, failed, _⟩
  · cases drained.symm.trans same
    refine ⟨((streams.map Source.ofStream).map remains).map Prod.fst, ?_, ?_, fun sorted => ordered ?_⟩
    · clear drained perm ordered same
      induction read with
      | nil => rfl
      | @cons m stream tasks streams partly _ ih =>
        have whole := clean _ List.mem_cons_self
        have ended : stream.readErr = none := tokens_readErr (remains_err whole)
        have all : stream = { bytes := parts m } := by
          rw [← partly.2 ended, ← ended]
        simp only [List.map_cons]
        rw [ih fun tail member => clean tail (List.mem_cons_of_mem _ member), ← all, readAll_remains whole]
    · rwa [List.flatMap_def] at perm
    · exact List.forall_mem_map.mp sorted
  · cases drained.symm.trans failed

end Errors

section Task
variable {opts : Options} {parts : Nat → GoString} {me : Nat} {w w' : World}

/-- The calls take in all the records of all the files, and in the order of their keys where the files are sorted. -/
structure Complete (opts : Options) (parts : Nat → GoString) (calls : Calls) : Prop where
  records : ∃ files : List (List Record),
    ((List.range opts.numMappers).map fun m => (Source.ofStream { bytes := parts m }).readAll) = files.map .ok ∧
      (spread calls).Perm files.flatten ∧ ((∀ file ∈ files, Ordered file) → calls.Pairwise fun a b => a.1 < b.1)
  filled : ∀ call ∈ calls, call.2 ≠ []

/-- A reduce task publishes the answers to all calls that are due and returns no error, or leaves what it had published
before as it was: whatever is refused, and wherever a file breaks off or holds a line that cannot be read. -/
theorem run_whole_or_nothing (present : Present opts parts w) {result : Except Err Calls}
    (ran : Executes (World.Delivers me) (Reducer.run opts) w result w') :
    (∃ calls, result = .ok calls ∧ Complete opts parts calls ∧
      w'.files.lookup (.file (Storage.outputPath opts.taskID)) = some (Record.encodeAll (answers opts.reducer calls))) ∨
    (∃ e, result = .error e) ∧
      w'.files.lookup (.file (Storage.outputPath opts.taskID)) =
        w.files.lookup (.file (Storage.outputPath opts.taskID)) := by
  unfold Reducer.run at ran
  split at ran
  · cases ran
    exact Or.inr ⟨⟨_, rfl⟩, rfl⟩
  have opening {reply : Except Err (List Stream)} {begun : World}
      (opened : Executes (World.Delivers me) (openSources opts) w reply begun) :=
    executes_untouched (openSources_partly w present)
      (fun _ _ same => same (.file (Storage.outputPath opts.taskID))) opened
  rcases ran.bind with ⟨e, rfl, opened⟩ | ⟨streams, begun, opened, ran⟩
  · exact Or.inr ⟨⟨e, rfl⟩, (opening opened).2⟩
  obtain ⟨read, before⟩ := opening opened
  have read : List.Forall₂ (fun m => Partly (parts m)) (List.range opts.numMappers) streams := read
  generalize drained : Merger.drain { sources := streams.map Source.ofStream } = merged at ran
  obtain ⟨records, err⟩ := merged
  have sink (serial : Nat) := temp_sink me (.temp (Storage.outputPath opts.taskID) me serial)
  have writing (serial : Nat) := callback_collected (sink serial) opts records err fun _ _ => trivial
  have aside (serial : Nat) (first : World) (inner : Except Err Calls) (ended : World)
      (ran : Executes (World.Delivers me) _ first inner ended)
      (empty : first.files.lookup (.temp (Storage.outputPath opts.taskID) me serial) = some []) :=
    (executes_untouched (writing serial first empty)
      (fun _ _ same => same (.file (Storage.outputPath opts.taskID)) (by simp)) ran).2
  rcases writeAtomic_executes aside ran with
    ⟨failed, untouched⟩ | ⟨calls, serial, first, ended, content, rfl, empty, ran, left, published⟩
  · exact Or.inr ⟨failed, untouched.trans before⟩
  · obtain ⟨⟨rfl, rfl⟩, whole⟩ := (writing serial first empty).executes ran
    obtain ⟨files, parsed, perm, ordered⟩ := drain_whole read drained
    have gathered := groups_gathered records
    refine Or.inl ⟨_, rfl, ⟨⟨files, parsed, ?_, fun sorted => groups_ascending (ordered sorted)⟩, gathered.filled⟩, ?_⟩
    · exact (List.Perm.of_eq gathered.all).trans perm
    · rw [published, ← left, whole]

/-- One mapper's file and an output of an earlier run. -/
def smallWorld : World :=
  { files := AList.insert (.file (.out 0)) [120] (AList.insert (.file (.part 0 0)) [97, 9, 49, 10] ∅) }

def smallTask : Options := { taskID := 0, numMappers := 1, reducer := fun _ values => values }

/-- The run in which nothing goes wrong. -/
def smallRun : Except Err Calls × World := (Reducer.run smallTask).run (fun w => w.perform 0) smallWorld

theorem run_whole_or_nothing_small : ∃ calls, Complete smallTask (fun _ => [97, 9, 49, 10]) calls ∧
    smallRun.2.files.lookup (.file (.out 0)) = some (Record.encodeAll (answers smallTask.reducer calls)) := by
  have present : Present smallTask (fun _ => [97, 9, 49, 10]) smallWorld := by
    intro m inside
    cases Nat.lt_one_iff.mp inside
    rfl
  have ran : Executes (World.Delivers 0) (Reducer.run smallTask) smallWorld smallRun.1 smallRun.2 :=
    run_executes fun w request => Or.inl (Or.inl rfl)
  rcases run_whole_or_nothing present ran with ⟨calls, _, complete, published⟩ | ⟨⟨e, failed⟩, _⟩
  · exact ⟨calls, complete, published⟩
  · have fine : smallRun.1.toOption.isSome = true := by decide +kernel
    rw [failed] at fine
    cases fine

end Task
end FromScratch.Proofs.ReduceFailures
