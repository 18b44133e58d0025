import FromScratch.Proofs.AttemptLedger

/-! Where the work goes. Every hand-out is the first one of a task or is owed to
a reassignment, a backup or a failure, and the progress a status reply shows is
the reports that were accepted. -/

namespace FromScratch.Proofs.WorkAccounting
open FromScratch.MapReduce Coordinator Lib Machine CoordinatorSteps TaskLifecycle Acceptance AttemptBookkeeping AttemptLedger

def inState (state : TaskState) (c : Coordinator) : Nat :=
  (c.tasks .map).countP (fun t => t.state == state) + (c.tasks .reduce).countP fun t => t.state == state

/-- The task a report is about. -/
def subject (c : Coordinator) (args : ReportTaskArgs) : Option Task :=
  (c.lookupLocked args.kind args.taskID).bind fun i => (c.tasks args.kind)[i]?

/-- A report of that outcome finds its task in that state. -/
def reports (success : Bool) (state : TaskState) (e : Event) : Bool :=
  match e.input with
  | .reportTask args _ => args.success == success && (subject e.before args).any fun t => t.state == state
  | _ => false

/-- A failure report puts a running task back. -/
def putBack (e : Event) : Bool := reports false .running e

/-- A success is accepted for a task that is waiting to be handed out again. -/
def late (e : Event) : Bool := reports true .idle e

def handsOut (e : Event) : Bool := (assignment e).isSome

theorem subject_named {c : Coordinator} {args : ReportTaskArgs} {i : Nat} {t : Task} (named : Names c args i t) :
    subject c args = some t := by
  have inside := (List.getElem?_eq_some_iff.mp named.found).1
  rw [subject, lookupLocked_eq_some.mpr ⟨named.position, inside⟩]
  exact named.found

theorem subject_useless {c : Coordinator} {args : ReportTaskArgs} (useless : ∀ i t, Names c args i t → t.state = .done)
    (state : TaskState) (unfinished : state ≠ .done) : ((subject c args).any fun t => t.state == state) = false := by
  cases found : subject c args with
  | none => rfl
  | some t =>
    obtain ⟨i, located, there⟩ := Option.bind_eq_some_iff.mp found
    have done := useless i t ⟨(lookupLocked_eq_some.mp located).1, there⟩
    simp only [Option.any_some, done, beq_eq_false_iff_ne]
    exact unfinished.symm

/-- Overwriting one entry moves it from one count to another. -/
private theorem countP_set_balance {α : Type} (p : α → Bool) {list : List α} {i : Nat} {a b : α}
    (found : list[i]? = some a) :
    (list.set i b).countP p + (p a).toNat = list.countP p + (p b).toNat := by
  obtain ⟨inside, rfl⟩ := List.getElem?_eq_some_iff.mp found
  have present : p list[i] = true → 0 < list.countP p :=
    fun holds => List.countP_pos_iff.mpr ⟨_, List.getElem_mem inside, holds⟩
  rw [List.countP_set inside]
  cases before : p list[i] with
  | false => cases p b <;> simp
  | true =>
    have := present before
    cases p b <;> simp <;> omega

section Counts
variable {c c' : Coordinator}

theorem inState_set {kind : TaskKind} {i : Nat} {t t' : Task} (found : (c.tasks kind)[i]? = some t)
    (table : ∀ other, c'.tasks other = if other = kind then (c.tasks kind).set i t' else c.tasks other)
    (state : TaskState) :
    inState state c' + (t.state == state).toNat = inState state c + (t'.state == state).toNat := by
  have moved := countP_set_balance (fun t : Task => t.state == state) (b := t') found
  unfold inState
  cases kind with
  | map =>
    rw [table .map, table .reduce, if_pos rfl, if_neg (by simp)]
    omega
  | reduce =>
    rw [table .map, table .reduce, if_neg (by simp), if_pos rfl]
    omega
  | none | exit | unknown _ => simp [Coordinator.tasks] at found

theorem inState_same (table : ∀ other, c'.tasks other = c.tasks other) (state : TaskState) :
    inState state c' = inState state c := by simp only [inState, table]

private theorem countP_reclaim (cfg : Config) (workers : FiniteMap WorkerId Worker) (now : Time) (list : List Task) :
    (list.map (reclaimTask cfg workers now)).countP (fun t => t.state == .idle) =
      list.countP (fun t => t.state == .idle) + list.countP (reclaims cfg workers now) := by
  induction list with
  | nil => rfl
  | cons t list ih =>
    simp only [List.map_cons, List.countP_cons, ih]
    have one : (if ((reclaimTask cfg workers now t).state == .idle) = true then 1 else 0) =
        (if (t.state == .idle) = true then 1 else 0) + if reclaims cfg workers now t = true then 1 else 0 := by
      unfold reclaimTask
      cases state : t.state with
      | idle | done => simp [state, reclaims]
      | running =>
        by_cases goes : reclaims cfg workers now t = true
        · simp [goes]
        · simp [goes]
    omega

theorem reclaimLocked_idle (c : Coordinator) (now : Time) :
    inState .idle (c.reclaimLocked now) + c.reassignments = inState .idle c + (c.reclaimLocked now).reassignments := by
  have reassigned : (c.reclaimLocked now).reassignments = c.reassignments +
      (c.mapTasks ++ c.reduceTasks).countP (reclaims c.cfg (c.expireWorkers now) now) := rfl
  rw [reassigned, List.countP_append, inState, inState, reclaimLocked_tasks, reclaimLocked_tasks, countP_reclaim,
    countP_reclaim, tasks_map, tasks_reduce]
  omega

end Counts

/-- What a call leaves of the figures in the books. -/
def books (c : Coordinator) : Nat × Nat := (c.reassignments, c.backupsLaunched)

theorem touch_books (c : Coordinator) (workerID : WorkerId) (now : Time) : books (c.touch workerID now) = books c := by
  obtain ⟨_, same⟩ := touch_frame c workerID now
  rw [same]
  rfl

private theorem opened_balance {c base : Coordinator} {workerID : WorkerId} {clock : Readings} {kind : TaskKind}
    (opened : Opened c workerID clock kind base) :
    inState .idle base + c.reassignments = inState .idle c + base.reassignments ∧
      base.backupsLaunched = c.backupsLaunched := by
  have touched := touch_books c workerID clock.seen
  simp only [books, Prod.mk.injEq] at touched
  have swept : inState .idle (swept c workerID clock) + c.reassignments =
      inState .idle c + (swept c workerID clock).reassignments := by
    have sweep := reclaimLocked_idle (c.touch workerID clock.seen) clock.reclaim
    rw [inState_same (touch_tasks c workerID clock.seen), touched.1] at sweep
    exact sweep
  cases opened with
  | map => exact ⟨swept, touched.2⟩
  | reduce =>
    have entered : (CoordinatorSteps.swept c workerID clock).enterReduce.reassignments =
        (CoordinatorSteps.swept c workerID clock).reassignments := by unfold enterReduce; split <;> rfl
    refine ⟨?_, ?_⟩
    · rw [inState_same (enterReduce_tasks _), entered]
      exact swept
    · unfold enterReduce
      split <;> exact touched.2

private theorem handOut_books (c : Coordinator) (kind : TaskKind) (i : Nat) (t : Task) (backup : Bool) (workerID : WorkerId)
    (now : Time) : (handOut c kind i t backup workerID now).reassignments = c.reassignments ∧
      (handOut c kind i t backup workerID now).backupsLaunched = c.backupsLaunched + backup.toNat := by
  obtain ⟨_, _, same, _⟩ := setTask_frame c kind i (handed t backup workerID now)
  simp only [handOut, same, and_self]

private theorem exit_books (c : Coordinator) (now : Time) (workerID : WorkerId) :
    books ((c.finishLocked now).markExited workerID) = books c := by
  obtain ⟨_, same⟩ := markExited_frame (c.finishLocked now) workerID
  rw [same]
  unfold finishLocked
  split <;> rfl

private theorem reportFailure_books (c : Coordinator) (args : ReportTaskArgs) (i : Nat) (t : Task) (now : Time) :
    books (c.reportFailure args i t now) = books c := by
  obtain ⟨_, _, same, _⟩ := setTask_frame c args.kind i (failedTask t args.workerID)
  simp only [failedTask] at same
  simp only [reportFailure, same]
  split
  · unfold failLocked
    split <;> rfl
  · rfl

private theorem reportSuccess_books (c : Coordinator) (args : ReportTaskArgs) (i : Nat) (t : Task) (clock : Readings) :
    books (c.reportSuccess args i t clock) = books c := by
  obtain ⟨_, _, same, _⟩ := setTask_frame c args.kind i { t with state := .done, finished := clock.assign }
  simp only [reportSuccess, recordResult, same]
  split
  · unfold finishLocked
    split <;> rfl
  · rfl

private theorem apart : (TaskState.idle == TaskState.running) = false ∧ (TaskState.running == TaskState.idle) = false ∧
    (TaskState.done == TaskState.idle) = false ∧ (true == false) = false ∧ (false == true) = false :=
  ⟨rfl, rfl, rfl, rfl, rfl⟩

/-- The books balance across one call. -/
theorem serve_balance {groups : List (List GoString)} {c : Coordinator} (indexed : Indexed groups c) (call : Call) :
    inState .idle (c.serve call).2 + (handsOut (event serve c call)).toNat + (late (event serve c call)).toNat +
        c.reassignments + c.backupsLaunched =
      inState .idle c + (putBack (event serve c call)).toNat + (c.serve call).2.reassignments +
        (c.serve call).2.backupsLaunched := by
  cases call with
  | register host now =>
    have table (other : TaskKind) : ((c.serve (.register host now)).2).tasks other = c.tasks other := by cases other <;> rfl
    rw [inState_same table]
    rfl
  | heartbeat workerID now =>
    have kept := touch_books c workerID now
    simp only [books, Prod.mk.injEq] at kept
    simp only [serve, heartbeat]
    rw [inState_same (touch_tasks c workerID now), kept.1, kept.2]
    rfl
  | reclaim now =>
    have sweep := reclaimLocked_idle c now
    have launched : (c.reclaimLocked now).backupsLaunched = c.backupsLaunched := rfl
    simp only [serve, launched, handsOut, late, putBack, reports, assignment, event, Option.isSome_none, Bool.toNat_false]
    omega
  | requestTask workerID clock =>
    have outcome := requestTask_cases c workerID clock
    have quiet (reply : RequestTaskReply) (last : Coordinator) :
        late ⟨c, .requestTask workerID clock, .task reply, last⟩ = false ∧
          putBack ⟨c, .requestTask workerID clock, .task reply, last⟩ = false := ⟨rfl, rfl⟩
    simp only [event, serve, quiet, Bool.toNat_false]
    generalize (c.requestTask workerID clock).1 = reply at outcome ⊢
    generalize (c.requestTask workerID clock).2 = last at outcome ⊢
    cases outcome with
    | aborted =>
      have kept := touch_books c workerID clock.seen
      have marked : books ((c.touch workerID clock.seen).markExited workerID) = books (c.touch workerID clock.seen) := by
        obtain ⟨_, same⟩ := markExited_frame (c.touch workerID clock.seen) workerID
        rw [same]
        rfl
      rw [kept] at marked
      simp only [books, Prod.mk.injEq] at marked
      have table : inState .idle ((c.touch workerID clock.seen).markExited workerID) = inState .idle c :=
        inState_same (fun other => by rw [markExited_tasks, touch_tasks]) _
      rw [table, marked.1, marked.2]
      rfl
    | waiting _ opened =>
      have balance := opened_balance opened
      simp only [handsOut, assignment, waitReply, Option.isSome_none, Bool.toNat_false]
      omega
    | @finished base _ opened =>
      have balance := opened_balance opened
      have marked := exit_books base clock.finish workerID
      simp only [books, Prod.mk.injEq] at marked
      have table : inState .idle ((base.finishLocked clock.finish).markExited workerID) = inState .idle base :=
        inState_same (fun other => by rw [markExited_tasks, finishLocked_tasks]) _
      rw [table, marked.1, marked.2]
      simp only [handsOut, assignment, Option.isSome_none, Bool.toNat_false]
      omega
    | @handed kind base i t backup _ opened found free =>
      have balance := opened_balance opened
      have figures := handOut_books base kind i t backup workerID clock.assign
      have moved := inState_set found (handOut_tasks base kind · i t backup workerID clock.assign) .idle
      have running : ((handed t backup workerID clock.assign).state == .idle) = false := rfl
      have given : handsOut ⟨c, .requestTask workerID clock, .task (handReply base t),
          handOut base kind i t backup workerID clock.assign⟩ = true := by
        rw [handsOut, assignment_handed indexed opened found _ rfl rfl]
        rfl
      have taken : (t.state == .idle).toNat + backup.toNat = 1 := by
        cases free with
        | idle state => simp [state]
        | straggler state => simp [state]
      rw [running, Bool.toNat_false] at moved
      rw [given, Bool.toNat_true, figures.1, figures.2]
      omega
  | reportTask args clock =>
    have outcome := reportTask_cases c args clock
    have kept := touch_books c args.workerID clock.seen
    have silent (reply : Bool) (last : Coordinator) :
        handsOut ⟨c, .reportTask args clock, .accepted reply, last⟩ = false := rfl
    simp only [event, serve, silent, late, putBack, reports, Bool.toNat_false]
    generalize (c.reportTask args clock).2 = last at outcome ⊢
    generalize (c.reportTask args clock).1 = reply at outcome
    cases outcome with
    | ignored useless =>
      simp only [books, Prod.mk.injEq] at kept
      rw [subject_useless useless .idle (by simp), subject_useless useless .running (by simp),
        inState_same (touch_tasks c args.workerID clock.seen), kept.1, kept.2]
      simp only [Bool.and_false, Bool.toNat_false]
    | @failed i t named unfinished failure =>
      have figures := reportFailure_books (c.touch args.workerID clock.seen) args i t clock.finish
      rw [kept] at figures
      simp only [books, Prod.mk.injEq] at figures
      have moved := inState_set named.found (fun other => (reportFailure_tasks (c.touch args.workerID clock.seen) args i t
        clock.finish other).trans (by rw [touch_tasks, touch_tasks])) .idle
      rw [figures.1, figures.2, failure, subject_named named]
      simp only [Option.any_some, failedTask, beq_self_eq_true, Bool.true_and, Bool.toNat_true] at moved ⊢
      cases state : t.state with
      | done => exact absurd state unfinished
      | idle | running =>
        simp only [state, apart, beq_self_eq_true, Bool.toNat_true, Bool.toNat_false, Bool.and_false,
          Bool.and_true] at moved ⊢
        omega
    | @accepted i t named unfinished success =>
      have figures := reportSuccess_books (c.touch args.workerID clock.seen) args i t clock
      rw [kept] at figures
      simp only [books, Prod.mk.injEq] at figures
      have moved := inState_set named.found (fun other => (reportSuccess_tasks (c.touch args.workerID clock.seen) args i t
        clock other).trans (by rw [touch_tasks, touch_tasks])) .idle
      rw [figures.1, figures.2, success, subject_named named]
      simp only [Option.any_some, acceptedTask, beq_self_eq_true, Bool.true_and] at moved ⊢
      cases state : t.state with
      | done => exact absurd state unfinished
      | idle | running =>
        simp only [state, apart, beq_self_eq_true, Bool.toNat_true, Bool.toNat_false, Bool.and_false,
          Bool.and_true] at moved ⊢
        omega

private theorem done_reclaim (cfg : Config) (workers : FiniteMap WorkerId Worker) (now : Time) (list : List Task) :
    countDone (list.map (reclaimTask cfg workers now)) = countDone list := by
  rw [countDone, countDone, List.countP_map]
  refine List.countP_congr fun t _ => ?_
  simp only [Function.comp_apply, beq_iff_eq, reclaimTask_done]

private theorem done_opened {c base : Coordinator} {workerID : WorkerId} {clock : Readings} {served : TaskKind}
    (opened : Opened c workerID clock served base) (kind : TaskKind) :
    countDone (base.tasks kind) = countDone (c.tasks kind) := by
  cases opened with
  | map => rw [swept, reclaimLocked_tasks, done_reclaim, touch_tasks]
  | reduce => rw [enterReduce_tasks, swept, reclaimLocked_tasks, done_reclaim, touch_tasks]

private theorem done_set {list : List Task} {i : Nat} {t t' : Task} (found : list[i]? = some t)
    (unfinished : t.state ≠ .done) :
    countDone (list.set i t') = countDone list + (t'.state == .done).toNat := by
  have moved := countP_set_balance (fun t : Task => t.state == .done) (b := t') found
  rw [beq_eq_false_iff_ne.mpr unfinished] at moved
  exact moved

/-- Accepted reports are all that completes tasks, one task each. -/
theorem serve_done (c : Coordinator) (call : Call) (kind : TaskKind) :
    countDone ((c.serve call).2.tasks kind) = countDone (c.tasks kind) +
      ((acceptedReport (event serve c call)).any fun args => args.kind == kind).toNat := by
  cases call with
  | register host now => cases kind <;> rfl
  | heartbeat workerID now => simp only [serve, heartbeat, touch_tasks]; rfl
  | reclaim now => simp only [serve, reclaimLocked_tasks, done_reclaim]; rfl
  | requestTask workerID clock =>
    have outcome := requestTask_cases c workerID clock
    have silent : acceptedReport (event serve c (.requestTask workerID clock)) = none := rfl
    rw [silent]
    simp only [serve]
    generalize (c.requestTask workerID clock).1 = reply at outcome
    generalize (c.requestTask workerID clock).2 = last at outcome ⊢
    cases outcome with
    | aborted => rw [markExited_tasks, touch_tasks]; rfl
    | waiting _ opened => exact done_opened opened kind
    | finished _ opened => rw [markExited_tasks, finishLocked_tasks, done_opened opened]; rfl
    | @handed served base i t backup _ opened found free =>
      rw [handOut_tasks, ← done_opened opened kind]
      split
      next same =>
        subst same
        rw [done_set found free.state_ne_done]
        rfl
      next => rfl
  | reportTask args clock =>
    have outcome := reportTask_cases c args clock
    simp only [acceptedReport, event, serve]
    generalize (c.reportTask args clock).1 = reply at outcome ⊢
    generalize (c.reportTask args clock).2 = last at outcome ⊢
    cases outcome with
    | ignored => rw [touch_tasks]; rfl
    | failed named unfinished =>
      rw [reportFailure_tasks, touch_tasks, touch_tasks]
      split
      next same =>
        subst same
        rw [done_set named.found unfinished]
        rfl
      next => rfl
    | accepted named unfinished =>
      rw [reportSuccess_tasks, touch_tasks, touch_tasks, Option.any_some]
      split
      next same =>
        subst same
        rw [done_set named.found unfinished, beq_self_eq_true]
        rfl
      next other => rw [beq_eq_false_iff_ne.mpr (Ne.symm other)]; rfl

private theorem one_state (list : List Task) :
    list.countP (fun t => t.state == .idle) + list.countP (fun t => t.state == .running) +
      list.countP (fun t => t.state == .done) = list.length := by
  induction list with
  | nil => rfl
  | cons t list ih =>
    simp only [List.countP_cons, List.length_cons]
    cases t.state <;> simp <;> omega

private theorem countP_one {α : Type} (p : α → Bool) (a : α) : [a].countP p = (p a).toNat := by
  cases holds : p a <;> simp [holds]

section Runs
variable (cfg : Config) (groups : List (List GoString)) (now : Time)

private theorem balance_after (calls : List Call) :
    let run := history serve (new cfg groups now) calls
    let c := after serve (new cfg groups now) calls
    inState .idle c + run.countP handsOut + run.countP late =
      groups.length + cfg.numReducers + c.reassignments + c.backupsLaunched + run.countP putBack := by
  intro run c
  induction calls using List.reverseRecOn with
  | nil =>
    have waiting : inState .idle (new cfg groups now) = groups.length + cfg.numReducers := by
      rw [inState, List.countP_eq_length.mpr, List.countP_eq_length.mpr]
      · simp [new]
      all_goals
        intro t member
        obtain ⟨i, found⟩ := List.mem_iff_getElem?.mp member
        rw [(initial_task found).1]
        rfl
    simp only [run, c, after_nil, waiting]
    rfl
  | append_singleton calls call ih =>
    have step := serve_balance (.after_run cfg groups now calls) call
    simp only [run, c, history_concat, after_concat, List.countP_append, countP_one] at ih step ⊢
    omega

private theorem done_after (calls : List Call) (kind : TaskKind) :
    countDone ((after serve (new cfg groups now) calls).tasks kind) =
      (acceptedReports (history serve (new cfg groups now) calls)).countP fun args => args.kind == kind := by
  induction calls using List.reverseRecOn with
  | nil =>
    refine List.countP_eq_zero.mpr fun t member => ?_
    obtain ⟨i, found⟩ := List.mem_iff_getElem?.mp member
    rw [(initial_task found).1]
    simp
  | append_singleton calls call ih =>
    rw [after_concat, serve_done, ih, history_concat, acceptedReports, acceptedReports, List.filterMap_append,
      List.countP_append]
    cases made : acceptedReport (event serve (after serve (new cfg groups now) calls) call) with
    | none => simp [made]
    | some args => simp only [made, List.filterMap_cons, List.filterMap_nil, countP_one, Option.any_some]

/-- The books of a job balance after every run. With the tasks that wait and
those finished while they waited, the hand-outs are one for each task and one
more for each reassignment, each backup and each failure of a running task. A
status reply shows as done exactly as many tasks as reports were accepted. -/
theorem work_accounted (calls : List Call) (reading : Time) :
    let run := history serve (new cfg groups now) calls
    let c := after serve (new cfg groups now) calls
    let status := c.status reading
    run.countP handsOut + inState .idle c + run.countP late =
      groups.length + cfg.numReducers + status.reassignments + status.backupsLaunched + run.countP putBack ∧
    status.mapDone = (acceptedReports run).countP (fun args => args.kind == .map) ∧
    status.reduceDone = (acceptedReports run).countP (fun args => args.kind == .reduce) ∧
    inState .idle c + inState .running c + status.mapDone + status.reduceDone = status.mapTotal + status.reduceTotal := by
  intro run c status
  have balance := balance_after cfg groups now calls
  have maps := one_state c.mapTasks
  have reduces := one_state c.reduceTasks
  refine ⟨?_, done_after cfg groups now calls .map, done_after cfg groups now calls .reduce, ?_⟩
  · simp only [run, c, status, Coordinator.status] at balance ⊢
    omega
  · simp only [status, Coordinator.status, countDone, inState, tasks_map, tasks_reduce] at maps reduces ⊢
    omega

end Runs

end FromScratch.Proofs.WorkAccounting
