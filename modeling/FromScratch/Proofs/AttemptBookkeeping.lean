import FromScratch.Proofs.Acceptance

/-! The records of running attempts. Sweeping clears them together, but a
failure report is taken at its word: it sends the task back to idle and clears
the reporter's entry without asking which attempt it speaks for. -/

namespace FromScratch.Proofs.AttemptBookkeeping
open FromScratch.MapReduce Coordinator Lib Machine CoordinatorSteps TaskLifecycle Acceptance

/-- The attempt a reply to `RequestTask` starts. -/
structure Assignment where
  workerID : WorkerId
  kind : TaskKind
  taskID : Int
  attempt : Int
  deriving DecidableEq

def assignment (e : Event) : Option Assignment :=
  match e.input, e.output with
  | .requestTask workerID _, .task reply =>
    match reply.kind with
    | .map | .reduce => some ⟨workerID, reply.kind, reply.taskID, reply.attempt⟩
    | _ => none
  | _, _ => none

def reported (args : ReportTaskArgs) : Assignment := ⟨args.workerID, args.kind, args.taskID, args.attempt⟩

/-- Workers report only attempts assigned to them. -/
def reportsAssigned (issued : List Assignment) : List Event → Bool
  | [] => true
  | e :: rest =>
    (match e.input with
      | .reportTask args _ => decide (reported args ∈ issued)
      | _ => true) &&
    reportsAssigned (issued ++ (assignment e).toList) rest

def failureReport (e : Event) : Option ReportTaskArgs :=
  match e.input with
  | .reportTask args _ => if args.success then none else some args
  | _ => none

/-- A failure report overwrites the task it names, unless that task is done. -/
theorem failureReport_step {c : Coordinator} {call : Call} {args : ReportTaskArgs} {i : Nat} {t : Task}
    (failure : failureReport (event serve c call) = some args) (named : Names c args i t) (unfinished : t.state ≠ .done) :
    Names (c.serve call).2 args i (failedTask t args.workerID) := by
  cases call with
  | register | heartbeat | requestTask | reclaim => cases failure
  | reportTask given clock =>
    simp only [failureReport, event, Option.ite_none_left_eq_some, Option.some.injEq, Bool.not_eq_true] at failure
    obtain ⟨failed, rfl⟩ := failure
    obtain ⟨t', found, step⟩ := serve_step (.reportTask given clock) named.found
    generalize (c.serve (.reportTask given clock)).1 = reply at step
    refine ⟨named.position, found.trans ?_⟩
    cases step with
    | kept unheard => exact absurd (unheard given clock rfl ⟨rfl, named.position⟩) unfinished
    | reclaimed _ _ silent => exact absurd rfl (silent given clock)
    | failed => rfl
    | accepted _ _ success => rw [failed] at success; cases success

/-- An idle task starts fresh. -/
def Clean (c : Coordinator) : Prop :=
  ∀ kind, ∀ t ∈ c.tasks kind, t.state = .idle → t.workers = ∅ ∧ t.backup = false

/-- A failure report sends a running task to idle although another attempt of
it, by a worker that is alive, is on record. -/
def Interrupts (e : Event) : Prop :=
  ∃ args i t t', failureReport e = some args ∧ Names e.before args i t ∧ t.state = .running ∧
    Names e.after args i t' ∧ t'.state = .idle ∧
    ∃ workerID number, t.workers.lookup workerID = some number ∧ isAlive e.after.workers workerID = true ∧
      ¬ (workerID = args.workerID ∧ number = args.attempt)

/-- Only the reporting attempt is on record for the task it names. An entry of
the same worker under another number counts unless the worker never registered. -/
def Alone (c : Coordinator) (args : ReportTaskArgs) : Prop :=
  ∀ i t, Names c args i t → t.state ≠ .done →
    t.backup = false ∧ ∀ workerID number, t.workers.lookup workerID = some number →
      workerID = args.workerID ∧ (number = args.attempt ∨ args.workerID ∉ c.workers)

theorem clean_initial (cfg : Config) (groups : List (List GoString)) (now : Time) : Clean (new cfg groups now) := by
  intro kind t member _
  cases kind with
  | map =>
    simp only [tasks_map, new, List.mem_mapIdx] at member
    obtain ⟨_, _, rfl⟩ := member
    exact ⟨rfl, rfl⟩
  | reduce =>
    simp only [tasks_reduce, new, List.mem_map] at member
    obtain ⟨_, _, rfl⟩ := member
    exact ⟨rfl, rfl⟩
  | none | exit | unknown _ => simp [Coordinator.tasks] at member

private theorem reclaimTask_clean {cfg : Config} {workers : FiniteMap WorkerId Worker} {now : Time} {t : Task}
    (fresh : t.state = .idle → t.workers = ∅ ∧ t.backup = false) (idle : (reclaimTask cfg workers now t).state = .idle) :
    (reclaimTask cfg workers now t).workers = ∅ ∧ (reclaimTask cfg workers now t).backup = false := by
  unfold reclaimTask at idle ⊢
  split at idle
  next elsewhere => rw [if_pos elsewhere]; exact fresh idle
  next running =>
    rw [if_neg running]
    split at idle
    next reset => rw [if_pos reset]; exact ⟨rfl, rfl⟩
    next => simp only [ne_eq, not_not] at running; rw [running] at idle; cases idle

/-- Every call but a failure report that is not alone keeps idle tasks clean. -/
theorem clean_step {c : Coordinator} (clean : Clean c) {call : Call}
    (alone : ∀ args, failureReport (event serve c call) = some args → Alone c args) : Clean (c.serve call).2 := by
  intro kind t' member idle
  obtain ⟨i, found⟩ := List.mem_iff_getElem?.mp member
  obtain ⟨t, before, step⟩ := serve_step_back found
  have fresh := clean kind t (List.mem_of_getElem? before)
  generalize (c.serve call).1 = reply at step
  cases step with
  | kept => exact fresh idle
  | reclaimed workers now => exact reclaimTask_clean fresh idle
  | handed | accepted => cases idle
  | @failed args clock concerns unfinished failure =>
    obtain ⟨rfl, position⟩ := concerns
    have report : failureReport (event serve c (.reportTask args clock)) = some args := by
      simp [failureReport, event, failure]
    obtain ⟨first, only⟩ := alone args report i t ⟨position, before⟩ unfinished
    refine ⟨?_, first⟩
    rw [FiniteMap.eq_empty_iff]
    intro workerID
    simp only [failedTask, FiniteMap.lookup_erase_eq]
    split
    next => rfl
    next other =>
      cases recorded : t.workers.lookup workerID with
      | none => rfl
      | some number => exact absurd (only workerID number recorded).1 other

private theorem touch_isAlive (c : Coordinator) (workerID : WorkerId) (now : Time) :
    isAlive (c.touch workerID now).workers workerID = true ↔ workerID ∈ c.workers := by
  unfold touch
  split
  next w found => simpa [isAlive, AList.lookup_insert] using AList.lookup_isSome.mp (by simp [found])
  next missing => simpa [isAlive, missing] using AList.lookup_eq_none.mp missing

private theorem failureReport_workers {c : Coordinator} {call : Call} {args : ReportTaskArgs}
    (failure : failureReport (event serve c call) = some args) :
    isAlive (c.serve call).2.workers args.workerID = true ↔ args.workerID ∈ c.workers := by
  cases call with
  | register | heartbeat | requestTask | reclaim => cases failure
  | reportTask given clock =>
    simp only [failureReport, event, Option.ite_none_left_eq_some, Option.some.injEq, Bool.not_eq_true] at failure
    obtain ⟨failed, rfl⟩ := failure
    rw [← touch_isAlive c given.workerID clock.seen]
    have outcome := reportTask_cases c given clock
    simp only [serve]
    generalize (c.reportTask given clock).1 = reply at outcome
    generalize (c.reportTask given clock).2 = last at outcome ⊢
    cases outcome with
    | ignored => rfl
    | failed => rw [reportFailure_workers]
    | accepted _ _ success => rw [failed] at success; cases success

theorem alone_uninterrupted {c : Coordinator} {call : Call}
    (alone : ∀ args, failureReport (event serve c call) = some args → Alone c args) :
    ¬ Interrupts (event serve c call) := by
  rintro ⟨args, i, t, t', failure, named, running, _, _, workerID, number, recorded, alive, other⟩
  obtain ⟨rfl, same | unknown⟩ := (alone args failure i t named (by simp [running])).2 workerID number recorded
  · exact other ⟨rfl, same⟩
  · exact unknown ((failureReport_workers failure).mp alive)

theorem clean_alone {c : Coordinator} {call : Call} {args : ReportTaskArgs}
    (failure : failureReport (event serve c call) = some args) (before : Clean c) (after : Clean (c.serve call).2)
    (calm : ¬ Interrupts (event serve c call)) : Alone c args := by
  intro i t named unfinished
  have failed := failureReport_step failure named unfinished
  obtain ⟨empty, first⟩ := after args.kind _ (List.mem_of_getElem? failed.found) rfl
  refine ⟨first, fun workerID number recorded => ?_⟩
  have sole : workerID = args.workerID := by
    by_contra other
    have kept := (FiniteMap.eq_empty_iff _).mp empty workerID
    simp [failedTask, other, recorded] at kept
  subst sole
  refine ⟨rfl, or_iff_not_imp_left.mpr fun different registered => calm ?_⟩
  have running : t.state = .running := by
    cases state : t.state with
    | running => rfl
    | done => exact absurd state unfinished
    | idle =>
      have fresh := (before args.kind t (List.mem_of_getElem? named.found) state).1
      simp [fresh] at recorded
  exact ⟨args, i, t, _, failure, named, running, failed, rfl, args.workerID, number, recorded,
    (failureReport_workers failure).mpr registered, fun same => different same.2⟩

/-- Idle tasks are clean and no failure report interrupts a live attempt,
throughout a run, exactly when each failure report of the run comes from the
only attempt on record for a task that never got a backup. -/
theorem idle_bookkeeping (cfg : Config) (groups : List (List GoString)) (now : Time) (calls : List Call) :
    (∀ e ∈ history serve (new cfg groups now) calls, Clean e.before ∧ Clean e.after ∧ ¬ Interrupts e) ↔
      ∀ e ∈ history serve (new cfg groups now) calls, ∀ args, failureReport e = some args → Alone e.before args := by
  constructor
  · intro tidy e member args failure
    obtain ⟨before, after, calm⟩ := tidy e member
    obtain ⟨earlier, call, _, _, rfl⟩ := mem_history serve member
    exact clean_alone failure before after calm
  · have clean := clean_initial cfg groups now
    generalize new cfg groups now = c at clean
    induction calls generalizing c with
    | nil => intro _ e member; cases member
    | cons call calls ih =>
      intro alone e member
      have first := alone (event serve c call) List.mem_cons_self
      have kept := clean_step clean first
      rcases List.mem_cons.mp member with rfl | later
      · exact ⟨clean, kept, alone_uninterrupted first⟩
      · exact ih _ kept (fun e member => alone e (List.mem_cons_of_mem _ member)) e later

def eagerBackups : Config := { oneOfEach with taskTimeout := 1000, workerTimeout := 1000 }

def quickSuccess (workerID : WorkerId) (taskID attempt : Int) : ReportTaskArgs where
  workerID := workerID
  kind := .map
  taskID := taskID
  attempt := attempt
  success := true
  elapsed := 5

private def firstAttemptFailed : ReportTaskArgs where
  workerID := "worker-1"
  kind := .map
  taskID := 0
  attempt := 1
  success := false

/-- Once two tasks are done, the third worker backs up the first. -/
def backedUp : List Call :=
  [.register "host" 0, .register "host" 0, .register "host" 0,
   .requestTask "worker-1" (always 0),
   .requestTask "worker-2" (always 0), .reportTask (quickSuccess "worker-2" 1 1) (always 5),
   .requestTask "worker-2" (always 5), .reportTask (quickSuccess "worker-2" 2 1) (always 10),
   .requestTask "worker-3" (always 100)]

/-- Every report of the run is of an attempt the worker was assigned, and yet
the failed task is idle with the backup attempt still on record. -/
theorem idle_bookkeeping_fails :
    ¬ ∀ (cfg : Config) (groups : List (List GoString)) (now : Time) (calls : List Call),
      reportsAssigned [] (history serve (new cfg groups now) calls) = true →
        ∀ e ∈ history serve (new cfg groups now) calls, Clean e.before ∧ Clean e.after ∧ ¬ Interrupts e := by
  intro every
  have failure : event serve (after serve (new eagerBackups [[], [], []] 0) backedUp)
    (.reportTask firstAttemptFailed (always 110)) ∈
      history serve (new eagerBackups [[], [], []] 0) (backedUp ++ [.reportTask firstAttemptFailed (always 110)]) := by
    rw [history_concat]
    exact List.mem_append_right _ (List.mem_singleton_self _)
  have clean := (every _ _ _ _ (by decide +kernel) _ failure).2.1
  have dirty : ∃ t ∈ (event serve (after serve (new eagerBackups [[], [], []] 0) backedUp)
      (.reportTask firstAttemptFailed (always 110))).after.mapTasks, t.state = .idle ∧ t.backup = true := by
    decide +kernel
  obtain ⟨t, member, idle, flagged⟩ := dirty
  have reset := (clean .map t member idle).2
  rw [flagged] at reset
  cases reset

/-- The table a call's `reclaimLocked` leaves behind, if it gets that far. -/
def sweptBy (c : Coordinator) : Call → Option Coordinator
  | .reclaim now => some (c.reclaimLocked now)
  | .requestTask workerID clock => if c.jobErr.isSome then none else some (swept c workerID clock)
  | _ => none

/-- The call reclaims the task: it was running, and the sweep leaves it idle. -/
def Reclaimed (e : Event) (kind : TaskKind) (i : Nat) : Prop :=
  ∃ base t t', sweptBy e.before e.input = some base ∧ (e.before.tasks kind)[i]? = some t ∧ t.state = .running ∧
    (base.tasks kind)[i]? = some t' ∧ t'.state = .idle

/-- The reported attempt was handed out, its task was reclaimed after that and
then handed out again, and the attempt is no longer on record. -/
def Superseded (earlier : List Event) (c : Coordinator) (args : ReportTaskArgs) : Prop :=
  ∃ i t, Names c args i t ∧ t.workers.lookup args.workerID ≠ some args.attempt ∧
    ∃ first issue second reclaim third, earlier = first ++ issue :: second ++ reclaim :: third ∧
      assignment issue = some (reported args) ∧ Reclaimed reclaim args.kind i ∧
      ∃ again ∈ reclaim :: third, HandsOut again args.kind args.taskID

/-- The report leaves state, holders, start time, backup flag and failure count
of the task it names as they are. -/
def Undisturbed (e : Event) (args : ReportTaskArgs) : Prop :=
  ∀ i t t', Names e.before args i t → Names e.after args i t' →
    t'.state = t.state ∧ t'.workers = t.workers ∧ t'.started = t.started ∧ t'.backup = t.backup ∧ t'.failures = t.failures

theorem undisturbed_iff {c : Coordinator} {call : Call} {args : ReportTaskArgs} {i : Nat} {t : Task}
    (failure : failureReport (event serve c call) = some args) (named : Names c args i t) :
    Undisturbed (event serve c call) args ↔ IsDone c args.kind args.taskID := by
  constructor
  · intro calm
    refine ⟨i, t, named.position, named.found, ?_⟩
    by_contra unfinished
    have counted := (calm i t _ named (failureReport_step failure named unfinished)).2.2.2.2
    simp [failedTask] at counted
  · rintro ⟨j, u, position, found, done⟩ k v v' before after
    obtain rfl : j = k := by have := before.position; omega
    cases found.symm.trans before.found
    obtain ⟨w, kept, step⟩ := serve_step call found
    cases kept.symm.trans after.found
    obtain rfl := step.done_kept done
    exact ⟨rfl, rfl, rfl, rfl, rfl⟩

/-- The failure reports of superseded attempts disturb nothing in a run exactly
when each of them finds its task already done. -/
theorem superseded_failures (cfg : Config) (groups : List (List GoString)) (now : Time) (calls : List Call) :
    (∀ earlier e later args, history serve (new cfg groups now) calls = earlier ++ e :: later →
      failureReport e = some args → Superseded earlier e.before args → Undisturbed e args) ↔
    ∀ earlier e later args, history serve (new cfg groups now) calls = earlier ++ e :: later →
      failureReport e = some args → Superseded earlier e.before args → IsDone e.before args.kind args.taskID := by
  have each {earlier e later args} (cut : history serve (new cfg groups now) calls = earlier ++ e :: later)
      (failure : failureReport e = some args) (old : Superseded earlier e.before args) :
      Undisturbed e args ↔ IsDone e.before args.kind args.taskID := by
    obtain ⟨before, call, _, _, _, rfl, _⟩ := history_split serve cut
    obtain ⟨i, t, named, _⟩ := old
    exact undisturbed_iff failure named
  constructor
  · exact fun calm _ _ _ _ cut failure old => (each cut failure old).mp (calm _ _ _ _ cut failure old)
  · exact fun done _ _ _ _ cut failure old => (each cut failure old).mpr (done _ _ _ _ cut failure old)

/-- The first attempt times out and a second worker gets the task. -/
private def timedOut : List Call :=
  [.register "host" 0, .register "host" 0, .requestTask "worker-1" (always 0), .requestTask "worker-2" (always 2000)]

/-- The first attempt times out and a second worker has the task when the first
worker's failure comes in: it is counted, and the task is idle again. -/
theorem superseded_failures_disturb :
    ¬ ∀ (cfg : Config) (groups : List (List GoString)) (now : Time) (calls : List Call),
      ∀ earlier e later args, history serve (new cfg groups now) calls = earlier ++ e :: later →
        failureReport e = some args → Superseded earlier e.before args → Undisturbed e args := by
  intro every
  have cut := history_concat serve (new eagerBackups [[]] 0) timedOut (.reportTask firstAttemptFailed (always 2001))
  have old : Superseded (history serve (new eagerBackups [[]] 0) timedOut) (after serve (new eagerBackups [[]] 0) timedOut)
      firstAttemptFailed :=
    ⟨0, _, ⟨rfl, rfl⟩, by decide +kernel, [_, _], _, [], _, [], rfl, rfl, ⟨_, _, _, rfl, rfl, rfl, rfl, rfl⟩,
      _, List.mem_cons_self, _, rfl, rfl, rfl⟩
  have kept := every _ _ _ _ _ _ [] firstAttemptFailed cut rfl old 0 _ _ ⟨rfl, rfl⟩ ⟨rfl, rfl⟩
  have failures := kept.2.2.2.2
  exact absurd failures (by decide +kernel)

end FromScratch.Proofs.AttemptBookkeeping
