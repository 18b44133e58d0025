import FromScratch.Proofs.CoordinatorSteps

/-! The life of one task across RPCs: five things can happen to it in a call,
and none of them happens to a task that is done. -/

namespace FromScratch.Proofs.TaskLifecycle
open FromScratch.MapReduce Coordinator Lib CoordinatorSteps

def failedTask (t : Task) (workerID : WorkerId) : Task :=
  { t with failures := t.failures + 1, state := .idle, workers := t.workers.erase workerID }

def acceptedTask (t : Task) (now : Time) : Task := { t with state := .done, finished := now }

/-- A report that names position `i` of the list of its kind. -/
def Concerns (args : ReportTaskArgs) (kind : TaskKind) (i : Nat) : Prop :=
  args.kind = kind ∧ args.taskID = i

instance (args : ReportTaskArgs) (kind : TaskKind) (i : Nat) : Decidable (Concerns args kind i) :=
  inferInstanceAs (Decidable (_ ∧ _))

inductive TaskStep (cfg : Config) (kind : TaskKind) (i : Nat) (t : Task) : Call → Reply → Task → Prop
  | kept {call reply}
      (unheard : ∀ args clock, call = .reportTask args clock → Concerns args kind i → t.state = .done) :
      TaskStep cfg kind i t call reply t
  | reclaimed {call reply} (workers : FiniteMap WorkerId Worker) (now : Time)
      (silent : ∀ args clock, call ≠ .reportTask args clock) :
      TaskStep cfg kind i t call reply (reclaimTask cfg workers now t)
  | handed {workerID clock backup} (workers : FiniteMap WorkerId Worker) (now : Time)
      (base : Coordinator) (free : Free base kind workerID i (reclaimTask cfg workers now t) backup) :
      TaskStep cfg kind i t (.requestTask workerID clock)
        (.task (handReply base (reclaimTask cfg workers now t)))
        (handed (reclaimTask cfg workers now t) backup workerID clock.assign)
  | failed {args clock} (concerns : Concerns args kind i) (unfinished : t.state ≠ .done)
      (failure : args.success = false) :
      TaskStep cfg kind i t (.reportTask args clock) (.accepted false) (failedTask t args.workerID)
  | accepted {args clock} (concerns : Concerns args kind i) (unfinished : t.state ≠ .done)
      (success : args.success = true) :
      TaskStep cfg kind i t (.reportTask args clock) (.accepted true) (acceptedTask t clock.assign)

@[simp] theorem reportFailure_tasks (c : Coordinator) (args : ReportTaskArgs) (i : Nat) (t : Task) (now : Time)
    (kind : TaskKind) : (c.reportFailure args i t now).tasks kind =
      if kind = args.kind then (c.tasks args.kind).set i (failedTask t args.workerID) else c.tasks kind := by
  unfold reportFailure
  simp only
  split <;> simp [tasks_setTask, failedTask]

@[simp] theorem recordResult_tasks (c : Coordinator) (args : ReportTaskArgs) (kind : TaskKind) :
    (c.recordResult args).tasks kind = c.tasks kind := by cases kind <;> rfl

@[simp] theorem reportSuccess_tasks (c : Coordinator) (args : ReportTaskArgs) (i : Nat) (t : Task)
    (clock : Readings) (kind : TaskKind) : (c.reportSuccess args i t clock).tasks kind =
      if kind = args.kind then (c.tasks args.kind).set i (acceptedTask t clock.assign) else c.tasks kind := by
  unfold reportSuccess
  simp only
  split <;> simp [tasks_setTask, acceptedTask]

theorem opened_task {c base : Coordinator} {workerID : WorkerId} {clock : Readings} {served kind : TaskKind}
    (opened : Opened c workerID clock served base) {i : Nat} {t : Task} (found : (c.tasks kind)[i]? = some t) :
    (base.tasks kind)[i]? = some (reclaimTask c.cfg ((c.touch workerID clock.seen).expireWorkers clock.reclaim)
      clock.reclaim t) := by
  cases opened <;> simp [swept, found]

theorem opened_task_back {c base : Coordinator} {workerID : WorkerId} {clock : Readings} {served kind : TaskKind}
    (opened : Opened c workerID clock served base) {i : Nat} {u : Task} (found : (base.tasks kind)[i]? = some u) :
    ∃ t, (c.tasks kind)[i]? = some t ∧
      reclaimTask c.cfg ((c.touch workerID clock.seen).expireWorkers clock.reclaim) clock.reclaim t = u := by
  cases opened <;> simpa [swept] using found

private theorem set_task {list : List Task} {i j : Nat} {t u v : Task} (found : list[i]? = some t)
    (other : list[j]? = some u) : (list.set j v)[i]? = some (if i = j then v else t) ∧ (i = j → t = u) := by
  have inside := (List.getElem?_eq_some_iff.mp found).1
  by_cases same : i = j
  · subst same
    exact ⟨by simp [inside], fun _ => by simpa [found] using other⟩
  · exact ⟨by simp [Ne.symm same, same, found], fun impossible => absurd impossible same⟩

/-- Overwriting the task a report names changes that task and no other. -/
private theorem named_task {c : Coordinator} {args : ReportTaskArgs} {kind : TaskKind} {i j : Nat} {t u : Task}
    (found : (c.tasks kind)[i]? = some t) (names : Names c args j u) (v : Task) :
    (if kind = args.kind then (c.tasks args.kind).set j v else c.tasks kind)[i]? =
      some (if Concerns args kind i then v else t) ∧ (Concerns args kind i → t = u) := by
  by_cases sameKind : kind = args.kind
  · subst sameKind
    obtain ⟨updated, equal⟩ := set_task (v := v) found names.found
    have position : Concerns args args.kind i ↔ i = j := by
      simp only [Concerns, true_and, names.position]
      omega
    simp only [if_true, position]
    exact ⟨updated, equal⟩
  · have elsewhere : ¬ Concerns args kind i := fun concerns => sameKind concerns.1.symm
    simpa [sameKind, elsewhere] using found

theorem requestTask_step {c : Coordinator} (workerID : WorkerId) (clock : Readings) {kind : TaskKind} {i : Nat}
    {t : Task} (found : (c.tasks kind)[i]? = some t) :
    ∃ t', ((c.requestTask workerID clock).2.tasks kind)[i]? = some t' ∧
      TaskStep c.cfg kind i t (.requestTask workerID clock) (.task (c.requestTask workerID clock).1) t' := by
  have outcome := requestTask_cases c workerID clock
  generalize (c.requestTask workerID clock).1 = reply at outcome ⊢
  generalize (c.requestTask workerID clock).2 = last at outcome ⊢
  have silent : ∀ args readings, Call.requestTask workerID clock ≠ .reportTask args readings := by
    intro args readings impossible; cases impossible
  cases outcome with
  | aborted failed =>
    exact ⟨t, by simpa using found, .kept fun args readings impossible => absurd impossible (silent _ _)⟩
  | waiting running opened busy unfinished => exact ⟨_, opened_task opened found, .reclaimed _ _ silent⟩
  | finished running opened complete =>
    exact ⟨_, by simpa using opened_task opened found, .reclaimed _ _ silent⟩
  | @handed served base j u backup running opened chosen free =>
    have swept := opened_task opened found
    rw [handOut_tasks]
    by_cases sameKind : kind = served
    · subst sameKind
      obtain ⟨updated, equal⟩ := set_task (v := handed u backup workerID clock.assign) swept chosen
      by_cases same : i = j
      · obtain rfl := equal same
        subst same
        exact ⟨_, by simpa using updated, .handed _ _ base free⟩
      · exact ⟨_, by simpa [same] using updated, .reclaimed _ _ silent⟩
    · exact ⟨_, by simpa [sameKind] using swept, .reclaimed _ _ silent⟩

theorem reportTask_step {c : Coordinator} (args : ReportTaskArgs) (clock : Readings) {kind : TaskKind} {i : Nat}
    {t : Task} (found : (c.tasks kind)[i]? = some t) :
    ∃ t', ((c.reportTask args clock).2.tasks kind)[i]? = some t' ∧
      TaskStep c.cfg kind i t (.reportTask args clock) (.accepted (c.reportTask args clock).1) t' := by
  have outcome := reportTask_cases c args clock
  generalize (c.reportTask args clock).1 = reply at outcome ⊢
  generalize (c.reportTask args clock).2 = last at outcome ⊢
  cases outcome with
  | ignored useless =>
    refine ⟨t, by simpa using found, .kept ?_⟩
    rintro _ _ ⟨⟩ ⟨rfl, position⟩
    exact useless i t ⟨position, found⟩
  | @failed j u names unfinished failure =>
    simp only [reportFailure_tasks, touch_tasks]
    obtain ⟨updated, equal⟩ := named_task found names (failedTask u args.workerID)
    by_cases concerns : Concerns args kind i
    · obtain rfl := equal concerns
      exact ⟨_, by simpa [concerns] using updated, .failed concerns unfinished failure⟩
    · exact ⟨t, by simpa [concerns] using updated, .kept (by rintro _ _ ⟨⟩ impossible; exact absurd impossible concerns)⟩
  | @accepted j u names unfinished success =>
    simp only [reportSuccess_tasks, touch_tasks]
    obtain ⟨updated, equal⟩ := named_task found names (acceptedTask u clock.assign)
    by_cases concerns : Concerns args kind i
    · obtain rfl := equal concerns
      exact ⟨_, by simpa [concerns] using updated, .accepted concerns unfinished success⟩
    · exact ⟨t, by simpa [concerns] using updated, .kept (by rintro _ _ ⟨⟩ impossible; exact absurd impossible concerns)⟩

/-- Every task present before a call is present after it, one step further. -/
theorem serve_step {c : Coordinator} (call : Call) {kind : TaskKind} {i : Nat} {t : Task}
    (found : (c.tasks kind)[i]? = some t) :
    ∃ t', ((c.serve call).2.tasks kind)[i]? = some t' ∧ TaskStep c.cfg kind i t call (c.serve call).1 t' := by
  cases call with
  | register host now =>
    refine ⟨t, ?_, .kept fun _ _ impossible => by cases impossible⟩
    cases kind <;> exact found
  | heartbeat workerID now =>
    exact ⟨t, by simpa [serve, heartbeat] using found, .kept fun _ _ impossible => by cases impossible⟩
  | requestTask workerID clock => exact requestTask_step workerID clock found
  | reportTask args clock => exact reportTask_step args clock found
  | reclaim now =>
    refine ⟨_, ?_, .reclaimed (c.expireWorkers now) now fun _ _ impossible => by cases impossible⟩
    simp [serve, found]

theorem reclaimTask_identity (cfg : Config) (workers : FiniteMap WorkerId Worker) (now : Time) (t : Task) :
    (reclaimTask cfg workers now t).id = t.id ∧ (reclaimTask cfg workers now t).kind = t.kind ∧
      (reclaimTask cfg workers now t).inputFiles = t.inputFiles ∧
      (reclaimTask cfg workers now t).failures = t.failures ∧
      (reclaimTask cfg workers now t).attempt = t.attempt := by
  unfold reclaimTask
  split
  · exact ⟨rfl, rfl, rfl, rfl, rfl⟩
  · split <;> exact ⟨rfl, rfl, rfl, rfl, rfl⟩

theorem reclaimTask_done (cfg : Config) (workers : FiniteMap WorkerId Worker) (now : Time) (t : Task) :
    (reclaimTask cfg workers now t).state = .done ↔ t.state = .done := by
  unfold reclaimTask
  split
  · rfl
  next running =>
    have running : t.state = .running := by simpa using running
    split <;> simp [running]

theorem reclaimTask_of_done (cfg : Config) (workers : FiniteMap WorkerId Worker) (now : Time) {t : Task}
    (done : t.state = .done) : reclaimTask cfg workers now t = t := by
  simp [reclaimTask, done]

section Step
variable {cfg : Config} {kind : TaskKind} {i : Nat} {t t' : Task} {call : Call} {reply : Reply}
  (step : TaskStep cfg kind i t call reply t')
include step

theorem TaskStep.identity : t'.id = t.id ∧ t'.kind = t.kind ∧ t'.inputFiles = t.inputFiles := by
  cases step with
  | kept | failed | accepted => exact ⟨rfl, rfl, rfl⟩
  | reclaimed workers now =>
    exact ⟨(reclaimTask_identity ..).1, (reclaimTask_identity ..).2.1, (reclaimTask_identity ..).2.2.1⟩
  | handed workers now =>
    exact ⟨(reclaimTask_identity ..).1, (reclaimTask_identity ..).2.1, (reclaimTask_identity ..).2.2.1⟩

/-- A done task is never touched again, by any call. -/
theorem TaskStep.done_kept (done : t.state = .done) : t' = t := by
  cases step with
  | kept => rfl
  | reclaimed workers now => exact reclaimTask_of_done _ _ _ done
  | handed workers now base free =>
    rw [reclaimTask_of_done _ _ _ done] at free
    exact absurd done free.state_ne_done
  | failed _ unfinished | accepted _ unfinished => exact absurd done unfinished

/-- The only way to become done is an accepted report. -/
theorem TaskStep.becomes_done (unfinished : t.state ≠ .done) (done : t'.state = .done) :
    ∃ args clock, call = .reportTask args clock ∧ reply = .accepted true ∧ Concerns args kind i := by
  cases step with
  | kept => exact absurd done unfinished
  | reclaimed workers now => exact absurd ((reclaimTask_done ..).mp done) unfinished
  | handed | failed => cases done
  | accepted concerns => exact ⟨_, _, rfl, rfl, concerns⟩

end Step

theorem handOut_frame (c : Coordinator) (kind : TaskKind) (i : Nat) (t : Task) (backup : Bool)
    (workerID : WorkerId) (now : Time) : ∃ mapTasks reduceTasks launched,
      handOut c kind i t backup workerID now =
        { c with mapTasks := mapTasks, reduceTasks := reduceTasks, backupsLaunched := launched } := by
  obtain ⟨mapTasks, reduceTasks, same, _, _⟩ := setTask_frame c kind i (handed t backup workerID now)
  exact ⟨mapTasks, reduceTasks, c.backupsLaunched + backup.toNat, by simp only [handOut, same]⟩

/-- Tasks are neither created nor lost after the table is built. -/
theorem serve_length (c : Coordinator) (call : Call) (kind : TaskKind) :
    ((c.serve call).2.tasks kind).length = (c.tasks kind).length := by
  have opened {workerID clock served base} (opened : Opened c workerID clock served base) :
      (base.tasks kind).length = (c.tasks kind).length := by
    cases opened <;> simp [swept]
  cases call with
  | register host now => cases kind <;> rfl
  | heartbeat workerID now => simp [serve, heartbeat]
  | reclaim now => simp [serve]
  | requestTask workerID clock =>
    have outcome := requestTask_cases c workerID clock
    simp only [serve]
    generalize (c.requestTask workerID clock).1 = reply at outcome
    generalize (c.requestTask workerID clock).2 = last at outcome ⊢
    cases outcome with
    | aborted => simp
    | waiting _ chosen => exact opened chosen
    | finished _ chosen => simpa using opened chosen
    | handed _ chosen =>
      rw [← opened chosen, handOut_tasks]
      split
      next same => subst same; simp
      next => rfl
  | reportTask args clock =>
    have outcome := reportTask_cases c args clock
    simp only [serve]
    generalize (c.reportTask args clock).1 = reply at outcome
    generalize (c.reportTask args clock).2 = last at outcome ⊢
    cases outcome with
    | ignored => simp
    | failed | accepted =>
      simp only [reportFailure_tasks, reportSuccess_tasks, touch_tasks]
      split
      next same => subst same; simp
      next => rfl

/-- Every task present after a call comes from the same position before it. -/
theorem serve_step_back {c : Coordinator} {call : Call} {kind : TaskKind} {i : Nat} {t' : Task}
    (found : ((c.serve call).2.tasks kind)[i]? = some t') :
    ∃ t, (c.tasks kind)[i]? = some t ∧ TaskStep c.cfg kind i t call (c.serve call).1 t' := by
  have inside := (List.getElem?_eq_some_iff.mp found).1
  rw [serve_length] at inside
  obtain ⟨u, updated, step⟩ := serve_step call (List.getElem?_eq_getElem inside)
  cases found.symm.trans updated
  exact ⟨_, List.getElem?_eq_getElem inside, step⟩

/-- Position, identifier and list agree for every task of the table. -/
structure Indexed (groups : List (List GoString)) (c : Coordinator) : Prop where
  tasks : ∀ (kind : TaskKind) (i : Nat) (t : Task), (c.tasks kind)[i]? = some t → t.id = i ∧ t.kind = kind
  maps : c.mapTasks.length = groups.length
  reduces : c.reduceTasks.length = c.cfg.numReducers
  inputs : ∀ (i : Nat) (t : Task), c.mapTasks[i]? = some t → groups[i]? = some t.inputFiles

theorem Indexed.initial (cfg : Config) (groups : List (List GoString)) (now : Time) :
    Indexed groups (new cfg groups now) := by
  constructor
  · intro kind i t found
    cases kind with
    | map =>
      simp only [tasks_map, new, List.getElem?_mapIdx, Option.map_eq_some_iff] at found
      obtain ⟨files, _, rfl⟩ := found
      exact ⟨rfl, rfl⟩
    | reduce =>
      simp only [tasks_reduce, new, List.getElem?_map, Option.map_eq_some_iff] at found
      obtain ⟨j, position, rfl⟩ := found
      obtain ⟨_, rfl⟩ := List.getElem?_eq_some_iff.mp position
      simp
    | none | exit | unknown _ => simp [Coordinator.tasks] at found
  · simp [new]
  · simp [new]
  · intro i t found
    simp only [new, List.getElem?_mapIdx, Option.map_eq_some_iff] at found
    obtain ⟨files, position, rfl⟩ := found
    exact position

theorem serve_cfg (c : Coordinator) (call : Call) : (c.serve call).2.cfg = c.cfg := by
  cases call with
  | register | reclaim => rfl
  | heartbeat workerID now => exact touch_cfg ..
  | requestTask workerID clock => exact congrArg Prod.fst (requestTask_standing c workerID clock)
  | reportTask args clock =>
    have outcome := reportTask_cases c args clock
    simp only [serve]
    generalize (c.reportTask args clock).1 = reply at outcome
    generalize (c.reportTask args clock).2 = last at outcome ⊢
    cases outcome with
    | ignored => exact touch_cfg ..
    | failed => exact (reportFailure_frame ..).1.trans (touch_cfg ..)
    | accepted => exact (reportSuccess_frame ..).1.trans (touch_cfg ..)

theorem Indexed.serve {groups : List (List GoString)} {c : Coordinator} (indexed : Indexed groups c) (call : Call) :
    Indexed groups (c.serve call).2 := by
  refine ⟨?_, ?_, ?_, ?_⟩
  · intro kind i t' found
    obtain ⟨t, before, step⟩ := serve_step_back found
    obtain ⟨id, sameKind⟩ := indexed.tasks kind i t before
    exact ⟨step.identity.1.trans id, step.identity.2.1.trans sameKind⟩
  · exact (serve_length c call .map).trans indexed.maps
  · rw [serve_cfg]
    exact (serve_length c call .reduce).trans indexed.reduces
  · intro i t' found
    have listed : ((c.serve call).2.tasks .map)[i]? = some t' := found
    obtain ⟨t, before, step⟩ := serve_step_back listed
    rw [step.identity.2.2]
    exact indexed.inputs i t before

theorem Indexed.after_run (cfg : Config) (groups : List (List GoString)) (now : Time) (calls : List Call) :
    Indexed groups (Machine.after Coordinator.serve (new cfg groups now) calls) :=
  Machine.invariant_after (P := Indexed groups) (fun _ call indexed => indexed.serve call) (.initial cfg groups now) calls

end FromScratch.Proofs.TaskLifecycle
