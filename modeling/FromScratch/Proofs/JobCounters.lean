import FromScratch.Proofs.ScheduleIndependence
import FromScratch.Proofs.RecordFlow

/-! The counters of a job. Whatever was retried, duplicated or lost on the way, a
job that succeeds has counted every task exactly once. -/

namespace FromScratch.Proofs.JobCounters
open FromScratch.MapReduce Cluster Coordinator Lib Program Machine AttemptRules MapPlan JobRuns
open CoordinatorSteps TaskLifecycle Acceptance JobOutcome ScheduleIndependence TaskCounters RecordFlow

section Accounts
variable (job : Job) (contents : GoString → Option GoString)

/-- What a finished task has counted. -/
def taskCount : TaskKind → Int → String → Nat
  | .map, id => mapCount (mapPlan job id.toNat) contents
  | .reduce, id => reduceCount job.reducer (callsOf job contents id.toNat)
  | _, _ => 0

/-- Under the names of these runs there is nothing but what they are to hold. -/
def RunsGood (written : Name → Prop) (w : World) : Prop :=
  ∀ m n p bytes, written (.spill m n p) → w.files.lookup (.file (.spill m n p)) = some bytes →
    bytes = spillContent (mapPlan job m) contents n p

/-- Process `i` is on its way to the counters of its task. -/
def OnAccount (i : Nat) (t : RequestTaskReply) (attempt : Attempt Unit) (w : World) : Prop :=
  ∃ written, RunsGood job contents written w ∧
    attempt.Safe (counting job contents (t.kind = .reduce)) (Counts (taskCount job contents t.kind t.taskID))
      ⟨fun name => (w.counters i).get name, written⟩

variable {job contents} {w w' : World} {i : Nat} {request : Request} {reply : Reply request}

theorem RunsGood.moves {written : Name → Prop} (good : RunsGood job contents written w)
    (moves : Undisturbed (jobTerms job contents True) i w w') : RunsGood job contents written w' := by
  intro m n p bytes listed found
  rcases moves.files (.file (.spill m n p)) nofun with same | ⟨_, _, ⟨⟩, present, good'⟩ | ⟨_, gone, _⟩
  · exact good m n p bytes listed (same ▸ found)
  · cases present.symm.trans found
    exact (Except.ok.inj good').symm
  · cases gone.symm.trans found

theorem append_counters (w : World) (path : Path) (bytes : GoString) : (w.append path bytes).counters = w.counters := by
  unfold World.append
  split <;> rfl

theorem inc_get (set : Counters) (name other : String) (delta : Int64) :
    (set.inc name delta).get other = set.get other + (Pi.single name delta : Tally) other := by
  unfold Counters.inc Counters.get
  by_cases same : other = name
  · subst same
    simp
  · rw [Pi.single_eq_of_ne same]
    simp [AList.lookup_insert_ne same]

/-- Only a count touches the counters of anybody. -/
theorem perform_counters (w : World) (i : Nat) {request : Request} (free : Uncounted request) :
    (w.perform i request).2.counters = w.counters := by
  cases request with
  | count => exact free.elim
  | mkdirAll | readDir | createTemp | close => rfl
  | write temp bytes => exact append_counters ..
  | openFile | remove | rename =>
    simp only [World.perform]
    split <;> rfl

/-- Who is served pays the price, and nobody else does. -/
theorem delivers_counters (served : w.Delivers i request reply w') :
    (∀ name, (w'.counters i).get name = (w.counters i).get name + price request reply name) ∧
      ∀ j, j ≠ i → w'.counters j = w.counters j := by
  have unchanged (free : Uncounted request) (same : w'.counters = w.counters) :
      (∀ name, (w'.counters i).get name = (w.counters i).get name + price request reply name) ∧
        ∀ j, j ≠ i → w'.counters j = w.counters j := by
    refine ⟨fun name => ?_, fun j _ => by rw [same]⟩
    rw [same, price_uncounted reply free]
    exact (Int64.add_zero _).symm
  rcases served with (performed | fault) | broken
  · cases request with
    | count name delta =>
      cases performed
      refine ⟨fun other => ?_, fun j different => Function.update_of_ne different ..⟩
      simp only [Function.update_self]
      exact inc_get ..
    | mkdirAll | readDir | openFile | createTemp | write | close | rename | remove =>
      apply unchanged
      · trivial
      · refine (congrArg (fun served => served.2.counters) performed).symm.trans ?_
        apply perform_counters
        trivial
  · cases fault with
    | refused real =>
      refine unchanged ?_ rfl
      cases request with
      | count name delta => exact absurd rfl (real name delta)
      | mkdirAll | readDir | openFile | createTemp | write | close | rename | remove => trivial
    | short => exact unchanged trivial (append_counters ..)
  · cases broken
    exact unchanged trivial (perform_counters _ _ trivial)

/-- A run is only ever renamed into place with the content it is to have: an
attempt that relies on nothing the name holds may find it free. -/
theorem renamed_good {origin : Name} {creator serial m n p : Nat} {bytes : GoString}
    {next : Reply (.rename (.temp origin creator serial) (.spill m n p)) → Attempt Unit}
    {post : Except Err Unit → World → Prop}
    (safe : (Program.ask (.rename (.temp origin creator serial) (.spill m n p)) next).Safe
      (rules (jobTerms job contents True) i) post w)
    (served : w.Delivers i (.rename (.temp origin creator serial) (.spill m n p)) (.ok ()) w')
    (found : w'.files.lookup (.file (.spill m n p)) = some bytes) : bytes = spillContent (mapPlan job m) contents n p := by
  rcases served with (performed | ⟨⟨⟩⟩) | ⟨⟨⟩⟩
  unfold World.Performs at performed
  cases present : w.files.lookup (.temp origin creator serial) with
  | none => simp [World.perform, present] at performed
  | some content =>
    have same : content = bytes := by
      simp only [World.perform, present, Prod.mk.injEq] at performed
      rw [← performed.2] at found
      simpa using found
    subst same
    let free : World := { w with files := w.files.erase (.file (.spill m n p)) }
    have moved : Undisturbed (jobTerms job contents True) i w free := by
      refine ⟨rfl, fun path _ => ?_, fun _ _ _ => Or.inr (Or.inl trivial)⟩
      by_cases here : path = .file (.spill m n p)
      · subst here
        exact Or.inr (Or.inr ⟨isSpill_spill .., by simp [free], Or.inl trivial⟩)
      · exact Or.inl (by simp [free, here])
    have there : free.files.lookup (.temp origin creator serial) = some content := by
      simp [free, present]
    have admitted : Serves (jobTerms job contents True) i free (.rename (.temp origin creator serial) (.spill m n p))
        (.ok ()) (free.perform i (.rename (.temp origin creator serial) (.spill m n p))).2 :=
      ⟨Or.inl trivial, Or.inl (by simp [World.perform, there])⟩
    have kept := ((safe.rely moved).step admitted).1 (i + 1) (Nat.succ_ne_self i)
    have after : (free.perform i (.rename (.temp origin creator serial) (.spill m n p))).2.files.lookup
        (.file (.spill m n p)) = some content := by simp [World.perform, there]
    have mine : Mine (i + 1) (.file (.spill m n p)) := by
      rintro origin creator serial ⟨⟩
    rcases kept.files (.file (.spill m n p)) mine with same | ⟨_, _, ⟨⟩, present, good⟩ | ⟨_, gone, _⟩
    · rw [after] at same
      simp [free] at same
    · cases after.symm.trans present
      exact (Except.ok.inj good).symm
    · cases after.symm.trans gone

theorem opened {path : Path} {reply : Reply (.openFile path)} (served : w.Delivers i (.openFile path) reply w') :
    (∃ bytes stream, w.files.lookup path = some bytes ∧ reply = .ok stream ∧ Partly True bytes stream) ∨
      (w.files.lookup path = none ∧ reply = .error .notExist) ∨ reply = .error .io := by
  rcases served with (performed | ⟨⟨_⟩⟩) | broken
  · unfold World.Performs at performed
    cases found : w.files.lookup path with
    | none =>
      simp only [World.perform, found, Prod.mk.injEq] at performed
      exact Or.inr (Or.inl ⟨rfl, performed.1.symm⟩)
    | some bytes =>
      simp only [World.perform, found, Prod.mk.injEq] at performed
      exact Or.inl ⟨bytes, _, rfl, performed.1.symm, Or.inl rfl⟩
  · exact Or.inr (Or.inr rfl)
  · cases broken with
    | reading held start => exact Or.inl ⟨_, _, held, rfl, Or.inr ⟨trivial, by simp⟩⟩

/-- What the process is answered is what its counters may depend on. -/
theorem delivers_reads {written : Name → Prop} {mapped : Prop} (served : w.Delivers i request reply w')
    (good : RunsGood job contents written w) (inputs : ∀ name, w.files.lookup (.input name) = contents name)
    (parts : mapped → ∀ m < job.groups.length, Delivered job contents w .map m) :
    Reads job contents mapped written request reply := by
  unfold Reads
  split
  next path stream =>
    rcases opened served with ⟨bytes, _, found, ⟨⟩, partly⟩ | ⟨_, ⟨⟩⟩ | ⟨⟨⟩⟩
    exact ⟨bytes, (inputs path).symm.trans found, partly⟩
  next m n p stream =>
    intro wrote
    rcases opened served with ⟨bytes, _, found, ⟨⟩, partly⟩ | ⟨_, ⟨⟩⟩ | ⟨⟨⟩⟩
    rwa [← good m n p bytes wrote found]
  next m p reply =>
    intro mapped below inside
    obtain ⟨_, content, found, planned⟩ := (parts mapped m below).parts.2.published (.part m p) ⟨p, inside, rfl⟩
    rcases opened served with ⟨bytes, stream, present, rfl, partly⟩ | ⟨gone, _⟩ | rfl
    · cases found.symm.trans present
      refine Or.inl ⟨stream, rfl, ?_⟩
      rwa [← partOf_planned planned]
    · cases found.symm.trans gone
    · exact Or.inr ⟨_, rfl, nofun⟩
  next target path =>
    rcases served with (performed | fault) | broken
    · cases performed
      exact ⟨target, i, w.serial, rfl⟩
    · cases fault
    · cases broken
  next => trivial

/-- A request that is served keeps the process on its way. -/
theorem OnAccount.work {t : RequestTaskReply} {next : Reply request → Attempt Unit} {post : Except Err Unit → World → Prop}
    (account : OnAccount job contents i t (.ask request next) w)
    (safe : (Program.ask request next).Safe (rules (jobTerms job contents True) i) post w)
    (served : w.Delivers i request reply w') (moves : Undisturbed (jobTerms job contents True) (i + 1) w w')
    (inputs : ∀ name, w.files.lookup (.input name) = contents name)
    (parts : t.kind = .reduce → ∀ m < job.groups.length, Delivered job contents w .map m) :
    OnAccount job contents i t (next reply) w' := by
  obtain ⟨written, good, counts⟩ := account
  have reads := delivers_reads served good inputs parts
  refine ⟨renamed written request reply, ?_, counting_step counts (delivers_counters served).1 ⟨rfl, reads⟩⟩
  intro m n p bytes listed found
  cases request with
  | rename temp target =>
    cases temp with
    | temp origin creator serial =>
      cases reply with
      | error e => exact good.moves moves m n p bytes listed found
      | ok =>
        rcases listed with rfl | old
        · exact renamed_good safe served found
        · exact good.moves moves m n p bytes old found
    | input | file => exact good.moves moves m n p bytes listed found
  | mkdirAll | readDir | openFile | createTemp | write | close | remove | count =>
    exact good.moves moves m n p bytes listed found

/-- What others do leaves the process where it is. -/
theorem OnAccount.rely {t : RequestTaskReply} {attempt : Attempt Unit} (account : OnAccount job contents i t attempt w)
    (moves : Undisturbed (jobTerms job contents True) i w w') (same : w'.counters i = w.counters i) :
    OnAccount job contents i t attempt w' := by
  obtain ⟨written, good, counts⟩ := account
  refine ⟨written, good.moves moves, ?_⟩
  rw [same]
  exact counts

/-- An attempt starts from nothing. -/
theorem execute_onAccount {t : RequestTaskReply} (assigned : Assigned job t) (fresh : w.counters i = ∅) :
    OnAccount job contents i t (job.execute t) w := by
  have zero : (fun name => (w.counters i).get name) = fun _ => (0 : Int64) := by
    rw [fresh]
    rfl
  refine ⟨fun _ => False, fun _ _ _ _ impossible => impossible.elim, ?_⟩
  rw [zero]
  cases assigned with
  | @map m kind id files reducers =>
    have options : job.execute t = Mapper.run (job.mapOptions m) := by
      simp [Job.execute, kind, id, files, reducers, Job.mapOptions]
    rw [options, kind, id]
    exact mapRun_counts m
  | @reduce r kind id below mappers =>
    have options : job.execute t = Reducer.run (job.reduceOptions r) >>= fun _ => pure () := by
      simp [Job.execute, kind, id, mappers, Job.reduceOptions]
    rw [options, kind, id, eq_true (rfl : TaskKind.reduce = .reduce)]
    exact reduceRun_counts below

end Accounts

section Runs
variable {job : Job} {cfg : Config} {now : Time} {disk : FiniteMap Path GoString} {s s' : Cluster}

/-- The calls a coordinator has served. -/
def served (job : Job) (cfg : Config) (now : Time) (calls : List Call) : List Event :=
  history serve (new { cfg with numReducers := job.numReducers } job.groups now) calls

/-- The report shows what its task counts. -/
def Shows (job : Job) (contents : GoString → Option GoString) (args : ReportTaskArgs) : Prop :=
  ∀ name, args.counters.get name = Int64.ofNat (taskCount job contents args.kind args.taskID name)

/-- What holds in every state of the system: every report that was accepted shows
what its task counts, and every attempt under way will have counted that or fail. -/
structure Audited (job : Job) (cfg : Config) (now : Time) (contents : GoString → Option GoString) (s : Cluster) : Prop where
  sound : Sound job contents s
  booked : ∃ calls, s.coordinator = after serve (new { cfg with numReducers := job.numReducers } job.groups now) calls ∧
    ∀ args ∈ acceptedReports (served job cfg now calls), Shows job contents args
  mapped : ∀ i id t attempt, s.processes i = .executing id t attempt → t.kind = .reduce →
    ∀ m < job.groups.length, IsDone s.coordinator .map m
  accounts : ∀ i id t attempt, s.processes i = .executing id t attempt → OnAccount job contents i t attempt s.world

variable {contents : GoString → Option GoString}

theorem Audited.start : Audited job cfg now (MapPlan.inputs disk) (start job cfg now disk) :=
  ⟨.start, ⟨[], rfl, nofun⟩, nofun, nofun⟩

theorem accepted_success {c : Coordinator} {call : Call} {args : ReportTaskArgs}
    (accepted : acceptedReport (event serve c call) = some args) :
    ∃ clock, call = .reportTask args clock ∧ args.success = true := by
  cases call with
  | register | heartbeat | requestTask | reclaim => cases accepted
  | reportTask given clock =>
    have outcome := reportTask_cases c given clock
    simp only [acceptedReport, event, serve] at accepted
    generalize (c.reportTask given clock).1 = reply at outcome accepted
    generalize (c.reportTask given clock).2 = last at outcome
    cases outcome with
    | ignored | failed => cases accepted
    | accepted _ _ success =>
      cases accepted
      exact ⟨clock, rfl, success⟩

theorem Audited.call (audited : Audited job cfg now contents s) (request : Call)
    (earned : ∀ args clock, request = .reportTask args clock → args.success = true →
      Delivered job contents s.world args.kind args.taskID ∧ Shows job contents args) :
    Audited job cfg now contents (s.call request) := by
  refine ⟨audited.sound.call request fun args clock report success => (earned args clock report success).1, ?_,
    fun i id t attempt executing reduce m below => (audited.mapped i id t attempt executing reduce m below).kept request,
    audited.accounts⟩
  obtain ⟨calls, reached, shows⟩ := audited.booked
  refine ⟨calls ++ [request], ?_, fun args listed => ?_⟩
  · rw [after_concat, ← reached]
    rfl
  · rw [served, history_concat, acceptedReports, List.filterMap_append, List.mem_append] at listed
    rcases listed with old | new
    · exact shows args old
    · rw [← reached] at new
      obtain ⟨e, member, accepted⟩ := List.mem_filterMap.mp new
      cases List.mem_singleton.mp member
      obtain ⟨clock, report, success⟩ := accepted_success accepted
      exact (earned args clock report success).2

theorem Audited.goOn (audited : Audited job cfg now contents s) (i : Nat) (process : Process)
    (sound : Sound job contents (s.goOn i process))
    (fresh : ∀ id t attempt, process = .executing id t attempt → OnAccount job contents i t attempt s.world ∧
      (t.kind = .reduce → ∀ m < job.groups.length, IsDone s.coordinator .map m)) :
    Audited job cfg now contents (s.goOn i process) := by
  have each {j : Nat} {id : WorkerId} {t : RequestTaskReply} {attempt : Attempt Unit}
      (executing : (s.goOn i process).processes j = .executing id t attempt) :
      OnAccount job contents j t attempt s.world ∧
        (t.kind = .reduce → ∀ m < job.groups.length, IsDone s.coordinator .map m) := by
    by_cases same : j = i
    · subst same
      exact fresh id t attempt ((Function.update_self ..).symm.trans executing)
    · have other := (Function.update_of_ne same ..).symm.trans executing
      exact ⟨audited.accounts j id t attempt other, audited.mapped j id t attempt other⟩
  exact ⟨sound, audited.booked, fun j id t attempt executing => (each executing).2,
    fun j id t attempt executing => (each executing).1⟩

/-- One request of process `i` is served. -/
theorem Audited.work (audited : Audited job cfg now contents s) {i : Nat} {id : WorkerId} {t : RequestTaskReply}
    {request : Request} {next : Reply request → Attempt Unit} {reply : Reply request} {w : World}
    (executing : s.processes i = .executing id t (.ask request next)) (served : s.world.KeepsLines i request reply w) :
    Audited job cfg now contents ({ s with world := w }.goOn i (.executing id t (next reply))) := by
  have safe := audited.sound.safe i id t _ executing
  have kept := (safe.step (jobTerms_serves served)).1
  have maps := audited.mapped i id t _ executing
  have onward : OnAccount job contents i t (next reply) w :=
    (audited.accounts i id t _ executing).work safe served.1 (kept (i + 1) (Nat.succ_ne_self i)) audited.sound.inputs.inputs
      fun reduce m below => audited.sound.done .map m (maps reduce m below)
  have each {j : Nat} {id' : WorkerId} {t' : RequestTaskReply} {attempt : Attempt Unit}
      (running : ({ s with world := w }.goOn i (.executing id t (next reply))).processes j = .executing id' t' attempt) :
      OnAccount job contents j t' attempt w ∧
        (t'.kind = .reduce → ∀ m < job.groups.length, IsDone s.coordinator .map m) := by
    by_cases same : j = i
    · subst same
      cases (Function.update_self ..).symm.trans running
      exact ⟨onward, maps⟩
    · have other := (Function.update_of_ne same ..).symm.trans running
      exact ⟨(audited.accounts j id' t' attempt other).rely (kept j same) ((delivers_counters served.1).2 j same),
        audited.mapped j id' t' attempt other⟩
  exact ⟨audited.sound.work executing served, audited.booked, fun j id t attempt running => (each running).2,
    fun j id t attempt running => (each running).1⟩

/-- A worker asks for a task and starts to count. -/
theorem Audited.request (audited : Audited job cfg now contents s) (i : Nat) (id : WorkerId) (clock : Readings) :
    Audited job cfg now contents (((s.call (.requestTask id clock)).resetCounters i).goOn i
      (.receive job id (s.coordinator.requestTask id clock).1)) := by
  have called := audited.call (.requestTask id clock) fun _ _ report => by cases report
  have untouched (j : Nat) : Undisturbed (jobTerms job contents True) j s.world
      ((s.call (.requestTask id clock)).resetCounters i).world :=
    ⟨rfl, fun _ _ => Or.inl rfl, fun _ _ present => Or.inl present⟩
  have each {j : Nat} {id' : WorkerId} {t : RequestTaskReply} {attempt : Attempt Unit}
      (running : (((s.call (.requestTask id clock)).resetCounters i).goOn i
        (.receive job id (s.coordinator.requestTask id clock).1)).processes j = .executing id' t attempt) :
      OnAccount job contents j t attempt ((s.call (.requestTask id clock)).resetCounters i).world ∧
        (t.kind = .reduce → ∀ m < job.groups.length, IsDone (s.call (.requestTask id clock)).coordinator .map m) := by
    by_cases same : j = i
    · subst same
      obtain ⟨kind, rfl, rfl⟩ := received_task ((Function.update_self ..).symm.trans running)
      refine ⟨execute_onAccount (request_assigned audited.sound.indexed audited.sound.reducers id clock kind)
        (Function.update_self ..), fun reduce m inside => ?_⟩
      have answer : (event serve s.coordinator (.requestTask id clock)).output =
        .task (s.coordinator.requestTask id clock).1 := rfl
      exact (reduce_needs_maps job.groups audited.sound.indexed answer reduce m inside).kept (.requestTask id clock)
    · have other : (s.call (.requestTask id clock)).processes j = .executing id' t attempt :=
        (Function.update_of_ne same ..).symm.trans running
      exact ⟨(called.accounts j id' t attempt other).rely (untouched j) (Function.update_of_ne same ..),
        called.mapped j id' t attempt other⟩
  exact ⟨audited.sound.request i id clock, called.booked, fun j id t attempt running => (each running).2,
    fun j id t attempt running => (each running).1⟩

theorem Audited.step (audited : Audited job cfg now contents s) (step : Step World.KeepsLines job s s') :
    Audited job cfg now contents s' := by
  have sound := audited.sound.step step
  have quiet (request : Call) (silent : ∀ args clock, request ≠ .reportTask args clock) :
      Audited job cfg now contents (s.call request) :=
    audited.call request fun args clock report => absurd report (silent args clock)
  cases step with
  | @register i host now =>
    have called := quiet (.register host now) fun _ _ report => by cases report
    exact called.goOn i (.polling _) sound nofun
  | @registerLost i host now =>
    have called := quiet (.register host now) fun _ _ report => by cases report
    exact called.goOn i .gone sound nofun
  | heartbeat id now => exact quiet (.heartbeat id now) fun _ _ report => by cases report
  | reclaim now => exact quiet (.reclaim now) fun _ _ report => by cases report
  | @request i id clock => exact audited.request i id clock
  | @requestLost i id clock =>
    have called := quiet (.requestTask id clock) fun _ _ report => by cases report
    exact called.goOn i .gone sound nofun
  | work executing served => exact audited.work executing served
  | @report i id t result err elapsed clock executing =>
    have called : Audited job cfg now contents (s.call
      (.reportTask (taskReport id t result err (s.world.counters i) elapsed) clock)) := by
      refine audited.call _ ?_
      rintro args _ ⟨⟩ success
      have delivered := (audited.sound.safe i id t _ executing).finished
      obtain ⟨written, _, counts⟩ := audited.accounts i id t _ executing
      have shows := counts.finished
      cases result with
      | ok => exact ⟨delivered, shows⟩
      | error e => cases success
    exact called.goOn i (.polling id) sound nofun
  | @reportLost i id => exact audited.goOn i (.polling id) sound nofun
  | @die i => exact audited.goOn i .gone sound nofun

theorem Audited.reached (reached : ReachesLineWise job (Cluster.start job cfg now disk) s) :
    Audited job cfg now (MapPlan.inputs disk) s := by
  induction reached with
  | refl => exact .start
  | tail _ step ih => exact ih.step step

end Runs

section Totals
open Mapper ReduceAttempt CombinerEquivalence MapOutput
variable {job : Job} {contents : GoString → Option GoString}

/-- All tasks of the job. -/
def allTasks (job : Job) : List (TaskKind × Int) :=
  (List.range job.groups.length).map (fun m : Nat => (.map, (m : Int))) ++
    (List.range job.numReducers).map fun r : Nat => (.reduce, (r : Int))

theorem sum_shown (reports : List ReportTaskArgs) (shows : ∀ args ∈ reports, Shows job contents args) (name : String) :
    (reports.map fun args => args.counters.get name).sum =
      Int64.ofNat ((reports.map fun args => (args.kind, args.taskID)).map fun task =>
        taskCount job contents task.1 task.2 name).sum := by
  induction reports with
  | nil => rfl
  | cons args reports ih =>
    simp only [List.map_cons, List.sum_cons, Int64.ofNat_add]
    rw [shows args List.mem_cons_self, ih fun args listed => shows args (List.mem_cons_of_mem _ listed)]

theorem allTasks_nodup (job : Job) : (allTasks job).Nodup := by
  refine List.nodup_append.mpr ⟨List.nodup_range.map fun m n same => ?_, List.nodup_range.map fun m n same => ?_, ?_⟩
  · exact Int.ofNat.inj (congrArg Prod.snd same)
  · exact Int.ofNat.inj (congrArg Prod.snd same)
  · rintro _ map _ reduce rfl
    obtain ⟨m, _, rfl⟩ := List.mem_map.mp map
    obtain ⟨r, _, same⟩ := List.mem_map.mp reduce
    cases same

theorem done_listed {c : Coordinator} (indexed : Indexed job.groups c) (reducers : c.cfg.numReducers = job.numReducers)
    {kind : TaskKind} {id : Int} (done : IsDone c kind id) : (kind, id) ∈ allTasks job := by
  obtain ⟨i, t, rfl, found, _⟩ := done
  have inside := (List.getElem?_eq_some_iff.mp found).1
  refine List.mem_append.mpr ?_
  cases kind with
  | map =>
    rw [tasks_map, indexed.maps] at inside
    exact Or.inl (List.mem_map_of_mem (List.mem_range.mpr inside))
  | reduce =>
    rw [tasks_reduce, indexed.reduces, reducers] at inside
    exact Or.inr (List.mem_map_of_mem (List.mem_range.mpr inside))
  | none | exit | unknown _ => cases inside

/-- Where every task is done there is one accepted report of each, and no other. -/
theorem accepted_tasks (cfg : Config) (now : Time) (calls : List Call)
    (done : ∀ task ∈ allTasks job,
      IsDone (after serve (new { cfg with numReducers := job.numReducers } job.groups now) calls) task.1 task.2) :
    ((acceptedReports (served job cfg now calls)).map fun args => (args.kind, args.taskID)).Perm (allTasks job) := by
  have counts (task : TaskKind × Int) :
      ((acceptedReports (served job cfg now calls)).map fun args => (args.kind, args.taskID)).count task =
        (acceptedReports (served job cfg now calls)).countP (names task.1 task.2) := by
    rw [List.count_eq_countP, List.countP_map]
    rfl
  have once (task : TaskKind × Int) := accepted_count { cfg with numReducers := job.numReducers } job.groups now calls
    task.1 task.2
  refine (List.perm_ext_iff_of_nodup (List.nodup_iff_count_le_one.mpr fun task => ?_) (allTasks_nodup job)).mpr fun task =>
    ⟨fun listed => ?_, fun listed => ?_⟩
  · rw [counts]
    exact (once task).1
  · have positive := List.count_pos_iff.mpr listed
    rw [counts] at positive
    exact done_listed (.after_run _ _ _ calls) (congrArg Config.numReducers (config_after _ job.groups now calls))
      ((once task).2 (Nat.le_antisymm (once task).1 positive))
  · obtain ⟨args, accepted, kind, id⟩ := done_accepted _ job.groups now calls (done task listed)
    exact List.mem_map.mpr ⟨args, accepted, Prod.ext kind id⟩

/-- What the tasks of the job count together. -/
def jobCount (job : Job) (contents : GoString → Option GoString) (name : String) : Nat :=
  ((allTasks job).map fun task => taskCount job contents task.1 task.2 name).sum

theorem jobCount_eq (job : Job) (contents : GoString → Option GoString) (name : String) : jobCount job contents name =
    ((List.range job.groups.length).map fun m => mapCount (mapPlan job m) contents name).sum +
      ((List.range job.numReducers).map fun r => reduceCount job.reducer (callsOf job contents r) name).sum := by
  rw [jobCount, allTasks, List.map_append, List.sum_append, List.map_map, List.map_map]
  rfl

/-- The counters of a job and its files agree: every stage has taken in what the
stage before it has put out. -/
structure Reconciled (job : Job) (contents : GoString → Option GoString) (outs : Nat → List Record) (total : String → Nat) :
    Prop where
  lines : total "map.input_records" = (linesOf contents job.groups.flatten).length
  emitted : total "map.emitted" = (MapOutput.emitted job.mapper contents job.groups.flatten).length
  spills : total "map.spills" = ((List.range job.groups.length).map fun m => (runs (mapPlan job m) contents).length).sum
  combined : total "combine.in" = if job.combiner.isSome then total "map.emitted" else 0
  kept : total "combine.out" = if job.combiner.isSome then total "map.output_records" else 0
  plain : job.combiner = none → total "map.output_records" = total "map.emitted"
  values : total "reduce.values" = total "map.output_records"
  keys : total "reduce.keys" = ((List.range job.numReducers).map fun r => (callsOf job contents r).length).sum
  results : total "reduce.emitted" = ((List.range job.numReducers).map fun r => (outs r).length).sum
  others : ∀ name ∉ ["map.input_records", "map.emitted", "map.spills", "map.output_records", "combine.in", "combine.out",
    "reduce.keys", "reduce.values", "reduce.emitted"], total name = 0

/-- What a task leaves uncounted it has not seen. -/
theorem mapCount_others {opts : Options} {name : String} (other : name ∉ ["map.input_records", "map.emitted", "map.spills",
    "map.output_records", "combine.in", "combine.out", "reduce.keys", "reduce.values", "reduce.emitted"]) :
    mapCount opts contents name = 0 := by
  simp only [List.mem_cons, List.not_mem_nil, or_false, not_or] at other
  obtain ⟨lines, emitted, spills, records, into, out, _⟩ := other
  simp [mapCount, ite_apply, lines, emitted, spills, records, into, out]

theorem reduceCount_others {reducer : Reducer} {calls : Reducer.Calls} {name : String} (other : name ∉ ["map.input_records",
    "map.emitted", "map.spills", "map.output_records", "combine.in", "combine.out", "reduce.keys", "reduce.values",
    "reduce.emitted"]) : reduceCount reducer calls name = 0 := by
  simp only [List.mem_cons, List.not_mem_nil, or_false, not_or] at other
  obtain ⟨_, _, _, _, _, _, keys, values, emitted⟩ := other
  simp [reduceCount, keys, values, emitted]

/-- What the tasks count adds up when the merges of all reduce tasks go well. -/
theorem jobCount_reconciled (positive : 1 ≤ job.numReducers)
    (parts : ∀ m < job.groups.length, Feasible (mapPlan job m) contents)
    (clean : ∀ r < job.numReducers, (merged (job.reduceOptions r) (partOf job contents r)).2 = none) :
    Reconciled job contents (fun r => answers job.reducer (callsOf job contents r)) (jobCount job contents) := by
  have reducers (m : Nat) : (mapPlan job m).numReducers = job.numReducers := by simp [mapPlan, Job.mapOptions]
  have combiner (m : Nat) : (mapPlan job m).combiner = job.combiner := by simp [mapPlan, Job.mapOptions]
  have files (m : Nat) : (mapPlan job m).inputFiles = job.groups.getD m [] := by simp [mapPlan, Job.mapOptions]
  have mapper (m : Nat) : (mapPlan job m).mapper = job.mapper := by simp [mapPlan, Job.mapOptions]
  have emissions : jobCount job contents "map.emitted" =
      ((List.range job.groups.length).map fun m => (emissions (mapPlan job m) contents).flatten.length).sum := by
    rw [jobCount_eq]
    simp [mapCount, reduceCount, ite_apply]
  have outputs : jobCount job contents "map.output_records" = ((List.range job.groups.length).map fun m =>
      ((List.range job.numReducers).map fun p => (written (mapPlan job m) contents p).length).sum).sum := by
    rw [jobCount_eq]
    simp [mapCount, reduceCount, ite_apply, reducers]
  constructor
  case lines =>
    have read : jobCount job contents "map.input_records" =
        ((List.range job.groups.length).map fun m => (MapPlan.emissions (mapPlan job m) contents).length).sum := by
      rw [jobCount_eq]
      simp [mapCount, reduceCount, ite_apply]
    rw [read]
    simp only [emissions_length, files]
    exact sum_groups job.groups fun path => (scanned contents path).1
  case emitted =>
    rw [emissions]
    simp only [emissions_flatten, files, mapper, MapOutput.emitted]
    exact sum_groups job.groups (emittedFrom job.mapper contents)
  case spills =>
    rw [jobCount_eq]
    simp [mapCount, reduceCount, ite_apply]
  case combined =>
    rw [emissions, jobCount_eq]
    split
    next combines => simp [mapCount, reduceCount, combiner, combines]
    next plain => simp [mapCount, reduceCount, combiner, plain]
  case kept =>
    rw [outputs, jobCount_eq]
    split
    next combines => simp [mapCount, reduceCount, combiner, reducers, combines]
    next plain => simp [mapCount, reduceCount, combiner, plain]
  case plain =>
    intro plain
    rw [outputs, emissions]
    refine congrArg List.sum (List.map_congr_left fun m _ => ?_)
    rw [← reducers m] at positive ⊢
    exact written_plain ((combiner m).trans plain) positive
  case values =>
    rw [outputs, sum_swap, jobCount_eq]
    have each (r : Nat) (below : r ∈ List.range job.numReducers) :
        reduceCount job.reducer (callsOf job contents r) "reduce.values" =
          ((List.range job.groups.length).map fun m => (written (mapPlan job m) contents r).length).sum := by
      have inside := List.mem_range.mp below
      rw [← merged_count (fun m listed => (parts m listed).mergeable r ((reducers m).symm ▸ inside)) (clean r inside),
        ← groups_values]
      simp [reduceCount, callsOf]
    rw [List.map_congr_left each]
    simp [mapCount, ite_apply]
  case keys =>
    rw [jobCount_eq]
    simp [mapCount, reduceCount, ite_apply]
  case results =>
    rw [jobCount_eq]
    simp [mapCount, reduceCount, ite_apply]
  case others =>
    intro name other
    rw [jobCount_eq]
    simp [mapCount_others other, reduceCount_others other]

end Totals

section Reconciliation
open ReduceAttempt PipelineCorrectness
variable {job : Job} {cfg : Config} {now : Time} {disk : FiniteMap Path GoString} {s : Cluster}

/-- A job that succeeds under any schedule, with whatever deaths, retries,
duplicates and lost messages, shows counters that agree with its files. -/
theorem counters_reconcile (reached : ReachesLineWise job (Cluster.start job cfg now disk) s)
    (closed : s.coordinator.doneClosed)
    (fine : s.coordinator.err = none) (reducers : 1 ≤ job.numReducers) :
    ∃ (outs : Nat → List Record) (total : String → Nat),
      (∀ r < job.numReducers, s.world.files.lookup (.file (.out r)) = some (Record.encodeAll (outs r))) ∧
      (∀ name, s.coordinator.counters.get name = Int64.ofNat (total name)) ∧
      Reconciled job (MapPlan.inputs disk) outs total := by
  have audited := Audited.reached reached
  obtain ⟨maps, reduces⟩ := audited.sound.delivered reducers closed fine
  have outputs (r : Nat) (below : r < job.numReducers) := (audited.sound.done .reduce r (reduces r below)).output
  refine ⟨_, _, fun r below => ?_, fun name => ?_, jobCount_reconciled reducers
    (fun m below => (audited.sound.done .map m (maps m below)).parts.1) fun r below => (outputs r below).2.1⟩
  · obtain ⟨_, clean, output⟩ := outputs r below
    obtain ⟨_, content, found, planned⟩ := output.published (.out r) rfl
    have whole : reduceContent (job.reduceOptions r) (partOf job (MapPlan.inputs disk) r) = .ok content := planned
    unfold reduceContent at whole
    have calls : callsOf job (MapPlan.inputs disk) r =
        groups (merged (job.reduceOptions r) (partOf job (MapPlan.inputs disk) r)).1 := rfl
    rw [found, calls]
    generalize merged (job.reduceOptions r) (partOf job (MapPlan.inputs disk) r) = drained at clean whole
    obtain ⟨records, err⟩ := drained
    cases clean
    exact congrArg some (Except.ok.inj whole).symm
  · obtain ⟨calls, after, shows⟩ := audited.booked
    have done : ∀ task ∈ allTasks job, IsDone s.coordinator task.1 task.2 := by
      intro task listed
      rcases List.mem_append.mp listed with map | reduce
      · obtain ⟨m, inside, rfl⟩ := List.mem_map.mp map
        exact maps m (List.mem_range.mp inside)
      · obtain ⟨r, inside, rfl⟩ := List.mem_map.mp reduce
        exact reduces r (List.mem_range.mp inside)
    rw [after] at done ⊢
    refine (counters_sum _ job.groups now calls name).1.trans ((sum_shown _ shows name).trans (congrArg Int64.ofNat ?_))
    exact ((accepted_tasks cfg now calls done).map fun task => taskCount job (MapPlan.inputs disk) task.1 task.2 name).sum_eq

/-- A run of the words with one worker. -/
theorem counters_reconcile_solo : ∃ (outs : Nat → List Record) (total : String → Nat),
    (∀ r < wordJob.numReducers,
      ((solo wordJob)^[120] (Cluster.start wordJob soloConfig 0 wordDisk)).world.files.lookup (.file (.out r)) =
        some (Record.encodeAll (outs r))) ∧
    (∀ name, ((solo wordJob)^[120] (Cluster.start wordJob soloConfig 0 wordDisk)).coordinator.counters.get name =
      Int64.ofNat (total name)) ∧
    Reconciled wordJob (MapPlan.inputs wordDisk) outs total :=
  counters_reconcile (solo_reaches wordJob _ 120) (by decide +kernel) (by decide +kernel) (by decide)

end Reconciliation
end FromScratch.Proofs.JobCounters
