import FromScratch.MapReduce.Worker
import FromScratch.Proofs.JobOutcome
import FromScratch.Proofs.PipelineCorrectness

/-! Whatever the order of calls, deaths, retries and file operations, a task that
is done has its files in place, and nobody ever puts anything else there. -/

namespace FromScratch.Proofs.ScheduleIndependence
open FromScratch.MapReduce Cluster Coordinator Lib Program AttemptRules MapPlan MapAttempt ReduceAttempt JobRuns
open CoordinatorSteps TaskLifecycle Acceptance JobOutcome PipelineCorrectness

section Attempts
variable (job : Job) (contents : GoString → Option GoString)

/-- What a finished task of the job has published, and that it could be done. -/
inductive Delivered (w : World) : TaskKind → Int → Prop
  | map {m : Nat} (feasible : Feasible (mapPlan job m) contents)
      (parts : Disk (jobTerms job contents True) contents (PartsOf job m) w) : Delivered w .map m
  | reduce {r : Nat} (groups : job.groups ≠ []) (clean : (merged (job.reduceOptions r) (partOf job contents r)).2 = none)
      (output : Disk (jobTerms job contents True) contents (· = .out r) w) : Delivered w .reduce r

/-- The reply describes a task of the job. -/
inductive Assigned : RequestTaskReply → Prop
  | map {t : RequestTaskReply} {m : Nat} (kind : t.kind = .map) (id : t.taskID = m)
      (files : t.inputFiles = job.groups.getD m [])
      (reducers : t.numReducers = job.numReducers) : Assigned t
  | reduce {t : RequestTaskReply} {r : Nat} (kind : t.kind = .reduce) (id : t.taskID = r)
      (below : r < job.numReducers) (mappers : t.numMappers = job.groups.length) : Assigned t

variable {job contents} {me : Nat} {w w' : World}

theorem Delivered.moves {kind : TaskKind} {id : Int} (delivered : Delivered job contents w kind id)
    (moves : Undisturbed (jobTerms job contents True) me w w') : Delivered job contents w' kind id := by
  cases delivered with
  | map feasible parts => exact .map feasible (parts.moves moves)
  | reduce groups clean output => exact .reduce groups clean (output.moves moves)

theorem Delivered.parts {m : Nat} (delivered : Delivered job contents w .map m) :
    Feasible (mapPlan job m) contents ∧ Disk (jobTerms job contents True) contents (PartsOf job m) w := by
  generalize same : (m : Int) = id at delivered
  cases delivered with
  | map feasible parts =>
    obtain rfl := Int.ofNat.inj same
    exact ⟨feasible, parts⟩

theorem Delivered.output {r : Nat} (delivered : Delivered job contents w .reduce r) :
    job.groups ≠ [] ∧ (merged (job.reduceOptions r) (partOf job contents r)).2 = none ∧
      Disk (jobTerms job contents True) contents (· = .out r) w := by
  generalize same : (r : Int) = id at delivered
  cases delivered with
  | reduce groups clean output =>
    obtain rfl := Int.ofNat.inj same
    exact ⟨groups, clean, output⟩

/-- An attempt at an assigned task delivers the task or fails. -/
theorem execute_safe {t : RequestTaskReply} (assigned : Assigned job t)
    (inputs : Disk (jobTerms job contents True) contents (fun _ => False) w)
    (maps : t.kind = .reduce → ∀ m < job.groups.length, Delivered job contents w .map m) :
    (job.execute t).Safe (rules (jobTerms job contents True) me)
      (Ends (fun _ => True) fun _ w => Delivered job contents w t.kind t.taskID) w := by
  cases assigned with
  | @map m kind id files reducers =>
    have options : job.execute t = Mapper.run (job.mapOptions m) := by
      simp [Job.execute, kind, id, files, reducers, Job.mapOptions]
    rw [options, kind, id]
    refine Triple.post_of (mapTask_meets (fun _ => trivial) m (fun _ => trivial) fun _ => trivial)
      (fun _ w ends => ?_) w inputs
    exact .map ends.1 (ends.2.fewer fun name => Or.inl)
  | @reduce r kind id below mappers =>
    have options : job.execute t = Reducer.run (job.reduceOptions r) >>= fun _ => pure () := by
      simp [Job.execute, kind, id, mappers, Job.reduceOptions]
    have parts : Disk (jobTerms job contents True) contents (fun name => ∃ m < job.groups.length, PartsOf job m name) w := by
      refine ⟨inputs.inputs, ?_⟩
      rintro name ⟨m, inside, part⟩
      exact (maps kind m inside).parts.2.published name part
    rw [options, kind, id]
    refine Triple.bind (reduceTask_meets (fun _ => trivial) r (fun _ => trivial) (fun _ _ => trivial) fun m inside => ?_)
      (fun calls => ?_) w parts
    · exact ⟨m, inside, r, below, rfl⟩
    · exact .pure disk_stable.and fun w ends => .reduce ends.1.1 ends.1.2.1 (ends.2.fewer fun name => Or.inl)

end Attempts

section Calls

/-- A task done after a call was done before it, or the call is the report that
finished it. -/
theorem done_origin {c : Coordinator} {call : Call} {kind : TaskKind} {id : Int} (done : IsDone (c.serve call).2 kind id) :
    IsDone c kind id ∨ ∃ args clock, call = .reportTask args clock ∧ args.success = true ∧ args.kind = kind ∧
      args.taskID = id := by
  obtain ⟨i, t', rfl, found, finished⟩ := done
  obtain ⟨t, before, step⟩ := serve_step_back found
  generalize (c.serve call).1 = reply at step
  by_cases already : t.state = .done
  · exact Or.inl ⟨i, t, rfl, before, already⟩
  · cases step with
    | kept => exact absurd finished already
    | reclaimed workers now => exact absurd ((reclaimTask_done ..).mp finished) already
    | handed | failed => cases finished
    | accepted concerns _ success => exact Or.inr ⟨_, _, rfl, success, concerns⟩

/-- Only tasks of the job are handed out. -/
theorem request_assigned {job : Job} {c : Coordinator} (indexed : Indexed job.groups c)
    (reducers : c.cfg.numReducers = job.numReducers)
    (id : WorkerId) (clock : Readings)
    (work : (c.requestTask id clock).1.kind = .map ∨ (c.requestTask id clock).1.kind = .reduce) :
    Assigned job (c.requestTask id clock).1 := by
  have outcome := requestTask_cases c id clock
  generalize (c.requestTask id clock).1 = reply at outcome work ⊢
  generalize (c.requestTask id clock).2 = last at outcome
  cases outcome with
  | aborted | waiting | finished => rcases work with impossible | impossible <;> cases impossible
  | @handed served base i t backup running opened found free =>
    obtain ⟨u, origin, rfl⟩ := opened_task_back opened found
    obtain ⟨taskID, taskKind, files, _⟩ :=
      reclaimTask_identity c.cfg ((c.touch id clock.seen).expireWorkers clock.reclaim) clock.reclaim u
    obtain ⟨position, listed⟩ := indexed.tasks served i u origin
    have sizes (kind : TaskKind) : (base.tasks kind).length = (c.tasks kind).length := by
      cases opened <;> simp [swept]
    have mappers : base.mapTasks.length = job.groups.length := (sizes .map).trans indexed.maps
    have reduces : base.reduceTasks.length = job.numReducers := (sizes .reduce).trans (indexed.reduces.trans reducers)
    cases opened with
    | map =>
      refine .map (taskKind.trans listed) (taskID.trans position) (files.trans ?_) reduces
      rw [List.getD_eq_getElem?_getD, indexed.inputs i u origin]
      rfl
    | reduce complete =>
      refine .reduce (taskKind.trans listed) (taskID.trans position) ?_ mappers
      rw [← reduces]
      exact (List.getElem?_eq_some_iff.mp found).1

end Calls

section Runs
variable {job : Job} {cfg : Config} {now : Time} {disk : FiniteMap Path GoString} {s s' : Cluster}

/-- What holds in every state of the system: a task that is done has delivered,
and every attempt under way will deliver or fail. -/
structure Sound (job : Job) (contents : GoString → Option GoString) (s : Cluster) : Prop where
  indexed : Indexed job.groups s.coordinator
  reducers : s.coordinator.cfg.numReducers = job.numReducers
  settled : 0 < job.groups.length + job.numReducers → Settled s.coordinator
  inputs : Disk (jobTerms job contents True) contents (fun _ => False) s.world
  done : ∀ kind id, IsDone s.coordinator kind id → Delivered job contents s.world kind id
  safe : ∀ i id t attempt, s.processes i = .executing id t attempt →
    attempt.Safe (rules (jobTerms job contents True) i)
      (Ends (fun _ => True) fun _ w => Delivered job contents w t.kind t.taskID) s.world

variable {contents : GoString → Option GoString}

theorem Sound.start : Sound job (MapPlan.inputs disk) (start job cfg now disk) := by
  refine ⟨.initial _ _ _, rfl, fun positive => .initial _ _ _ positive, ⟨fun _ => rfl, nofun⟩, fun kind id done => ?_, nofun⟩
  obtain ⟨args, member, _⟩ := done_accepted { cfg with numReducers := job.numReducers } job.groups now [] done
  cases member

theorem Sound.call (sound : Sound job contents s) (request : Call)
    (earned : ∀ args clock, request = .reportTask args clock → args.success = true →
      Delivered job contents s.world args.kind args.taskID) : Sound job contents (s.call request) := by
  refine ⟨sound.indexed.serve request, (congrArg Config.numReducers (serve_cfg _ request)).trans sound.reducers,
    fun positive => (sound.settled positive).kept request, sound.inputs, fun kind id done => ?_, sound.safe⟩
  rcases done_origin done with before | ⟨args, clock, report, success, rfl, rfl⟩
  · exact sound.done kind id before
  · exact earned args clock report success

theorem Sound.goOn (sound : Sound job contents s) (i : Nat) (process : Process)
    (safe : ∀ id t attempt, process = .executing id t attempt → attempt.Safe (rules (jobTerms job contents True) i)
      (Ends (fun _ => True) fun _ w => Delivered job contents w t.kind t.taskID) s.world) : Sound job contents
      (s.goOn i process) := by
  refine ⟨sound.indexed, sound.reducers, sound.settled, sound.inputs, sound.done, fun j id t attempt executing => ?_⟩
  by_cases same : j = i
  · subst same
    exact safe id t attempt ((Function.update_self ..).symm.trans executing)
  · exact sound.safe j id t attempt ((Function.update_of_ne same ..).symm.trans executing)

/-- The world may move as far as every process relies on. -/
theorem Sound.move (sound : Sound job contents s) {w : World}
    (moves : ∀ i id t attempt, s.processes i =
    .executing id t attempt → Undisturbed (jobTerms job contents True) i s.world w)
    (unseen : ∃ i, Undisturbed (jobTerms job contents True) i s.world w) : Sound job contents { s with world := w } := by
  obtain ⟨observer, unseen⟩ := unseen
  exact ⟨sound.indexed, sound.reducers, sound.settled, sound.inputs.moves unseen,
    fun kind id done => (sound.done kind id done).moves unseen,
    fun i id t attempt executing => (sound.safe i id t attempt executing).rely (moves i id t attempt executing)⟩

theorem Sound.resetCounters (sound : Sound job contents s) (i : Nat) : Sound job contents (s.resetCounters i) := by
  have same (me : Nat) : Undisturbed (jobTerms job contents True) me s.world (s.resetCounters i).world :=
    ⟨rfl, fun _ _ => Or.inl rfl, fun _ _ present => Or.inl present⟩
  exact sound.move (fun me _ _ _ _ => same me) ⟨i, same i⟩

/-- One request of process `i` is served. -/
theorem Sound.work (sound : Sound job contents s) {i : Nat} {id : WorkerId} {t : RequestTaskReply} {request : Request}
    {next : Reply request → Attempt Unit} {reply : Reply request} {w : World}
    (executing : s.processes i = .executing id t (.ask request next)) (served : s.world.KeepsLines i request reply w) :
    Sound job contents ({ s with world := w }.goOn i (.executing id t (next reply))) := by
  obtain ⟨kept, rest⟩ := (sound.safe i id t _ executing).step (jobTerms_serves served)
  have idle : Sound job contents (s.goOn i .gone) := sound.goOn i .gone nofun
  have moved : Sound job contents { s.goOn i .gone with world := w } := by
    refine idle.move (fun j _ _ _ other => kept j fun same => ?_) ⟨i + 1, kept (i + 1) (Nat.succ_ne_self i)⟩
    subst same
    cases (Function.update_self ..).symm.trans other
  have resumed := moved.goOn i (.executing id t (next reply)) fun id' t' attempt' same => by
    cases same
    exact rest
  simpa [Cluster.goOn] using resumed

theorem received_task {id : WorkerId} {reply t : RequestTaskReply} {id' : WorkerId} {attempt : Attempt Unit}
    (received : Process.receive job id reply = .executing id' t attempt) :
    (reply.kind = .map ∨ reply.kind = .reduce) ∧ t = reply ∧ attempt = job.execute reply := by
  unfold Process.receive at received
  split at received
  next => cases received
  next => cases received
  next kind => cases received; exact ⟨Or.inl kind, rfl, rfl⟩
  next kind => cases received; exact ⟨Or.inr kind, rfl, rfl⟩
  next => cases received

/-- A worker asks for a task and sets to work on it. -/
theorem Sound.request (sound : Sound job contents s) (i : Nat) (id : WorkerId) (clock : Readings) :
    Sound job contents (((s.call (.requestTask id clock)).resetCounters i).goOn i
      (.receive job id (s.coordinator.requestTask id clock).1)) := by
  have called := (sound.call (.requestTask id clock) fun _ _ report => by cases report).resetCounters i
  refine called.goOn i _ fun id' t attempt received => ?_
  obtain ⟨kind, rfl, rfl⟩ := received_task received
  refine execute_safe (request_assigned sound.indexed sound.reducers id clock kind) called.inputs fun reduce m inside => ?_
  have answer : (Machine.event serve s.coordinator (.requestTask id clock)).output =
    .task (s.coordinator.requestTask id clock).1 := rfl
  have before := reduce_needs_maps job.groups sound.indexed answer reduce m inside
  exact called.done .map m (before.kept (.requestTask id clock))

theorem Sound.step (sound : Sound job contents s) (step : Step World.KeepsLines job s s') : Sound job contents s' := by
  have quiet (request : Call) (silent : ∀ args clock, request ≠ .reportTask args clock) : Sound job contents
    (s.call request) :=
    sound.call request fun args clock report => absurd report (silent args clock)
  cases step with
  | @register i host now =>
    have called := quiet (.register host now) fun _ _ report => by cases report
    exact called.goOn i (.polling _) nofun
  | @registerLost i host now =>
    have called := quiet (.register host now) fun _ _ report => by cases report
    exact called.goOn i .gone nofun
  | heartbeat id now => exact quiet (.heartbeat id now) fun _ _ report => by cases report
  | reclaim now => exact quiet (.reclaim now) fun _ _ report => by cases report
  | @request i id clock => exact sound.request i id clock
  | @requestLost i id clock =>
    have called := quiet (.requestTask id clock) fun _ _ report => by cases report
    exact called.goOn i .gone nofun
  | work executing served => exact sound.work executing served
  | @report i id t result err elapsed clock executing =>
    have called : Sound job contents (s.call
      (.reportTask (taskReport id t result err (s.world.counters i) elapsed) clock)) := by
      refine sound.call _ ?_
      rintro args _ ⟨⟩ success
      have ended := (sound.safe i id t _ executing).finished
      cases result with
      | ok => exact ended
      | error e => cases success
    exact called.goOn i (.polling id) nofun
  | @reportLost i id => exact sound.goOn i (.polling id) nofun
  | @die i => exact sound.goOn i .gone nofun

theorem Sound.reached (reached : ReachesLineWise job (Cluster.start job cfg now disk) s) :
    Sound job (MapPlan.inputs disk) s := by
  induction reached with
  | refl => exact .start
  | tail _ step ih => exact ih.step step

theorem done_kept (onward : ReachesLineWise job s s') {kind : TaskKind} {id : Int} (done : IsDone s.coordinator kind id) :
    IsDone s'.coordinator kind id := by
  induction onward with
  | refl => exact done
  | tail _ step ih =>
    cases step with
    | work | reportLost | die => exact ih
    | register | registerLost | heartbeat | reclaim | request | requestLost | report => exact ih.kept _

/-- Every task of a job that is over without an error has delivered. -/
theorem Sound.delivered (sound : Sound job contents s) (reducers : 1 ≤ job.numReducers) (closed : s.coordinator.doneClosed)
    (fine : s.coordinator.err = none) :
    (∀ m < job.groups.length, IsDone s.coordinator .map m) ∧ ∀ r < job.numReducers, IsDone s.coordinator .reduce r := by
  have settled := sound.settled (by omega)
  have done := settled.truthful (settled.closed_iff.mp closed) fine
  have each (kind : TaskKind) (i : Nat) (inside : i < (s.coordinator.tasks kind).length) : IsDone s.coordinator kind i :=
    ⟨i, _, rfl, List.getElem?_eq_getElem inside, done kind _ (List.getElem_mem inside)⟩
  refine ⟨fun m inside => each .map m ?_, fun r inside => each .reduce r ?_⟩
  · rw [tasks_map, sound.indexed.maps]
    exact inside
  · rw [tasks_reduce, sound.indexed.reduces, sound.reducers]
    exact inside

/-- A job that is over without an error keeps the outputs its tasks are to compute. -/
theorem outputs_kept (reached : ReachesLineWise job (Cluster.start job cfg now disk) s) (closed : s.coordinator.doneClosed)
    (fine : s.coordinator.err = none) (onward : ReachesLineWise job s s') {r : Nat} (below : r < job.numReducers) :
    ∃ content, reduceContent (job.reduceOptions r) (partOf job (MapPlan.inputs disk) r) = .ok content ∧
      s'.world.files.lookup (.file (.out r)) = some content := by
  obtain ⟨_, reduces⟩ := (Sound.reached reached).delivered (by omega) closed fine
  have kept := (Sound.reached (reached.trans onward)).done .reduce r (done_kept onward (reduces r below))
  obtain ⟨_, content, present, good⟩ := kept.output.2.2.published (.out r) rfl
  exact ⟨content, good, present⟩

/-- However the run went, unless a reading of an input broke off inside a line: a
job that is over without an error has the outputs that a single worker without
faults produces, and keeps them. -/
theorem schedule_independence (reached : ReachesLineWise job (Cluster.start job cfg now disk) s)
    (closed : s.coordinator.doneClosed)
    (fine : s.coordinator.err = none) (onward : ReachesLineWise job s s') :
    ∀ r < job.numReducers, ∃ (calls : Nat → Reducer.Calls) (w' : World) (content : GoString),
      job.alone { files := disk } = (.ok (job.groups.map (fun _ => .ok ()),
        (List.range job.numReducers).map fun r => .ok (calls r)), w') ∧
        w'.files.lookup (.file (.out r)) = some content ∧ s'.world.files.lookup (.file (.out r)) = some content := by
  intro r below
  have sound := Sound.reached reached
  obtain ⟨maps, reduces⟩ := sound.delivered (by omega) closed fine
  have mapped (m : Nat) (inside : m < job.groups.length) := (sound.done .map m (maps m inside)).parts
  have reduced (r : Nat) (inside : r < job.numReducers) := (sound.done .reduce r (reduces r inside)).output
  have doable : Doable job (MapPlan.inputs disk) :=
    ⟨fun m inside => (mapped m inside).1, fun r inside => (reduced r inside).2.1⟩
  obtain ⟨w', alone, outputs⟩ := alone_done disk doable (reduced r below).1 (by omega)
  obtain ⟨content, planned, written⟩ := outputs r below
  obtain ⟨_, good, present⟩ := outputs_kept reached closed fine onward below
  cases planned.symm.trans good
  refine ⟨callsOf job (MapPlan.inputs disk), w', content, ?_, written, present⟩
  rw [alone]
  simp

end Runs

section Moves
variable (job : Job)

/-- What process `i` does next when it meets no fault. -/
def act (i : Nat) (now : Time) (s : Cluster) : Cluster :=
  match s.processes i with
  | .absent => (s.call (.register "host" now)).goOn i (.polling (s.coordinator.register "host" now).1.workerID)
  | .polling id => ((s.call (.requestTask id (always now))).resetCounters i).goOn i
      (.receive job id (s.coordinator.requestTask id (always now)).1)
  | .executing id t (.ask request next) =>
    { s with world := (s.world.perform i request).2 }.goOn i (.executing id t (next (s.world.perform i request).1))
  | .executing id t (.done result) =>
    (s.call (.reportTask (taskReport id t result "" (s.world.counters i) 0) (always now))).goOn i (.polling id)
  | .gone => s

/-- Process `i` reads `length` bytes of the file it opens before the reading breaks off. -/
def breakOff (i length : Nat) (s : Cluster) : Cluster :=
  match s.processes i with
  | .executing id t (.ask (.openFile path) next) =>
    match s.world.files.lookup path with
    | some bytes => { s with world := (s.world.perform i (.openFile path)).2 }.goOn i
        (.executing id t (next (.ok { bytes := bytes.take length, readErr := some .io })))
    | none => s
  | _ => s

inductive Move where
  | act (i : Nat) (now : Time)
  | breakOff (i length : Nat)

def move (s : Cluster) : Move → Cluster
  | .act i now => act job i now s
  | .breakOff i length => breakOff i length s

theorem act_step {serves : Nat → World → (request : Request) → Reply request → World → Prop}
    (fair : ∀ i w request, serves i w request (w.perform i request).1 (w.perform i request).2) (i : Nat) (now : Time)
    (s : Cluster) : act job i now s = s ∨ Step serves job s (act job i now s) := by
  unfold act
  split
  next idle => exact .inr (.register "host" now idle)
  next id polling => exact .inr (.request _ polling)
  next id t request next executing => exact .inr (.work executing (fair ..))
  next id t result executing => exact .inr (.report "" 0 _ executing)
  next => exact .inl rfl

/-- What process `i` is about to open does not break off inside a line after `length` bytes. -/
def wholeLines (i length : Nat) (s : Cluster) : Bool :=
  match s.processes i with
  | .executing _ _ (.ask (.openFile (.input name)) _) =>
    match s.world.files.lookup (.input name) with
    | some bytes => (Scanner.scan { bytes := bytes.take length, readErr := some .io }).1.isPrefixOf
        (Scanner.scan { bytes := bytes }).1
    | none => true
  | _ => true

theorem breakOff_step (i length : Nat) (s : Cluster) : breakOff i length s = s ∨
    Step World.Delivers job s (breakOff i length s) ∧
      (wholeLines i length s = true → Step World.KeepsLines job s (breakOff i length s)) := by
  unfold breakOff
  split
  next id t path next executing =>
    split
    next bytes found =>
      have broken : s.world.Breaks i (.openFile path) (.ok { bytes := bytes.take length, readErr := some .io })
          (s.world.perform i (.openFile path)).2 := .reading found (List.take_prefix ..)
      refine .inr ⟨.work executing (.inr broken), fun whole => .work executing ⟨.inr broken, ?_⟩⟩
      cases path with
      | input name =>
        intro other there
        cases found.symm.trans there
        rw [wholeLines, executing] at whole
        simp only [found] at whole
        exact List.isPrefixOf_iff_prefix.mp whole
      | file | temp => trivial
    next => exact .inl rfl
  next => exact .inl rfl

theorem moves_reaches (s : Cluster) (moves : List Move) : Reaches job s (moves.foldl (move job) s) := by
  induction moves generalizing s with
  | nil => exact .refl
  | cons first moves ih =>
    have step : move job s first = s ∨ Step World.Delivers job s (move job s first) := by
      cases first with
      | act i now => exact act_step job (fun _ _ _ => .inl (.inl rfl)) i now s
      | breakOff i length => exact (breakOff_step job i length s).imp_right And.left
    rcases step with same | step
    · rw [List.foldl_cons, same]
      exact ih s
    · exact .head step (ih _)

/-- No reading breaks off inside a line. -/
def linesKept : Cluster → List Move → Bool
  | _, [] => true
  | s, .act i now :: moves => linesKept (act job i now s) moves
  | s, .breakOff i length :: moves => wholeLines i length s && linesKept (breakOff i length s) moves

theorem moves_reachesLineWise (s : Cluster) (moves : List Move) (kept : linesKept job s moves = true) :
    ReachesLineWise job s (moves.foldl (move job) s) := by
  induction moves generalizing s with
  | nil => exact .refl
  | cons first moves ih =>
    have step : (move job s first = s ∨ Step World.KeepsLines job s (move job s first)) ∧
        linesKept job (move job s first) moves = true := by
      cases first with
      | act i now => exact ⟨act_step job perform_keepsLines i now s, kept⟩
      | breakOff i length =>
        obtain ⟨whole, kept⟩ := (Bool.and_eq_true ..).mp kept
        exact ⟨(breakOff_step job i length s).imp_right fun step => step.2 whole, kept⟩
    obtain ⟨same | step, kept⟩ := step
    · rw [List.foldl_cons, same]
      exact ih s (same ▸ kept)
    · exact .head step (ih _ kept)

end Moves

section Broken

/-- One line of two letters, each emitted with a value of more than 1024 bytes. -/
def letterJob : Job where
  groups := [[[105]]]
  numReducers := 1
  spillBytes := 1024
  mapper _ line := line.map fun letter => { key := [letter], value := List.replicate 1100 97 }
  reducer _ _ := [[49]]

def letterDisk : FiniteMap Path GoString := AList.insert (Path.input [105]) [49, 50, 10] ∅

def patient : Config := { oneOfEach with workerTimeout := 1000 }

/-- Both processes work at the task when process 0 cuts its only run. Process 1
reads the input as far as `length`, cuts a run of that, and puts it in the place of the other. -/
def reread (length : Nat) : List Move :=
  List.replicate 4 (.act 0 0) ++ List.replicate 4 (.act 1 150) ++ List.replicate 9 (.act 0 150) ++
    .breakOff 1 length :: List.replicate 7 (.act 1 150) ++ List.replicate 24 (.act 0 150)

/-- The reading breaks off at the end of the line. -/
theorem schedule_independence_reread : ∃ (calls : Nat → Reducer.Calls) (w' : World) (content : GoString),
    letterJob.alone { files := letterDisk } =
      (.ok (letterJob.groups.map (fun _ => .ok ()), (List.range letterJob.numReducers).map fun r => .ok (calls r)), w') ∧
      w'.files.lookup (.file (.out 0)) = some content ∧
      ((reread 3).foldl (move letterJob) (Cluster.start letterJob patient 0 letterDisk)).world.files.lookup
        (.file (.out 0)) =
        some content := by
  have reached := moves_reachesLineWise letterJob (Cluster.start letterJob patient 0 letterDisk) (reread 3)
    (by decide +kernel)
  exact schedule_independence reached (by decide +kernel) (by decide +kernel) .refl 0 (by decide)

/-- The reading breaks off inside the line: the job is over without an error, but
what is left of it lacks a key. -/
theorem half_line_accepted : ∃ s, Reaches letterJob (Cluster.start letterJob patient 0 letterDisk) s ∧
    s.coordinator.doneClosed ∧ s.coordinator.err = none ∧
    (letterJob.alone { files := letterDisk }).2.files.lookup (.file (.out 0)) = some [49, 9, 49, 10, 50, 9, 49, 10] ∧
    s.world.files.lookup (.file (.out 0)) = some [49, 9, 49, 10] := by
  refine ⟨_, moves_reaches letterJob (Cluster.start letterJob patient 0 letterDisk) (reread 1), ?_, ?_, ?_, ?_⟩
  · decide +kernel
  · decide +kernel
  · decide +kernel
  · decide +kernel

end Broken

section Solo

/-- What a single worker does next when it meets no fault. -/
def solo (job : Job) (s : Cluster) : Cluster := act job 0 0 s

theorem solo_reaches (job : Job) (s : Cluster) (steps : Nat) : ReachesLineWise job s ((solo job)^[steps] s) := by
  induction steps with
  | zero => exact .refl
  | succ steps ih =>
    rw [Function.iterate_succ_apply']
    rcases act_step job perform_keepsLines 0 0 ((solo job)^[steps] s) with same | step
    · rw [solo, same]
      exact ih
    · exact ih.tail step

def soloConfig : Config := { oneOfEach with numReducers := 2 }

end Solo

end FromScratch.Proofs.ScheduleIndependence
