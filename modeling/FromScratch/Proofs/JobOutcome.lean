import FromScratch.Proofs.Acceptance

/-! The job's single outcome. Success and failure go through one `sync.Once`;
the invariant below says which of the two can have won, and that a decided
outcome is never rewritten. -/

namespace FromScratch.Proofs.JobOutcome
open FromScratch.MapReduce Coordinator Lib Machine CoordinatorSteps TaskLifecycle Acceptance

def AllDone (c : Coordinator) : Prop := ∀ kind, ∀ t ∈ c.tasks kind, t.state = .done

theorem allDone_iff (c : Coordinator) :
    AllDone c ↔ (∀ t ∈ c.mapTasks, t.state = .done) ∧ ∀ t ∈ c.reduceTasks, t.state = .done := by
  constructor
  · exact fun done => ⟨done .map, done .reduce⟩
  · rintro ⟨maps, reduces⟩ kind t member
    cases kind with
    | map => exact maps t member
    | reduce => exact reduces t member
    | none | exit | unknown _ => simp [Coordinator.tasks] at member

/-- What the rest of the program can see of the job's end. -/
def verdict (c : Coordinator) : Phase × Option String × Nat × Bool :=
  (c.phase, c.jobErr, c.doneCloses, c.closeOnce)

@[simp] theorem touch_verdict (c : Coordinator) (workerID : WorkerId) (now : Time) :
    verdict (c.touch workerID now) = verdict c := by
  obtain ⟨_, same⟩ := touch_frame c workerID now
  rw [same]; rfl

@[simp] theorem markExited_verdict (c : Coordinator) (workerID : WorkerId) :
    verdict (c.markExited workerID) = verdict c := by
  obtain ⟨_, same⟩ := markExited_frame c workerID
  rw [same]; rfl

@[simp] theorem swept_verdict (c : Coordinator) (workerID : WorkerId) (clock : Readings) :
    verdict (swept c workerID clock) = verdict c :=
  touch_verdict c workerID clock.seen

@[simp] theorem setTask_verdict (c : Coordinator) (kind : TaskKind) (i : Nat) (t : Task) :
    verdict (c.setTask kind i t) = verdict c := by
  obtain ⟨_, _, same, _⟩ := setTask_frame c kind i t
  rw [same]; rfl

@[simp] theorem recordResult_verdict (c : Coordinator) (args : ReportTaskArgs) :
    verdict (c.recordResult args) = verdict c := rfl

@[simp] theorem handOut_verdict (c : Coordinator) (kind : TaskKind) (i : Nat) (t : Task) (backup : Bool)
    (workerID : WorkerId) (now : Time) : verdict (handOut c kind i t backup workerID now) = verdict c :=
  setTask_verdict ..

/-- The invariant behind the outcome: the channel closes exactly with the
`Once`, only a finished job closes it without an error, and a finished job
always has. -/
structure Settled (c : Coordinator) : Prop where
  closes : c.doneCloses = c.closeOnce.toNat
  failed : c.jobErr.isSome = true → c.closeOnce = true
  truthful : c.closeOnce = true → c.jobErr = none → AllDone c
  complete : AllDone c → c.closeOnce = true
  phase : c.closeOnce = true → c.phase ≠ .map

theorem Settled.closed_iff {c : Coordinator} (settled : Settled c) : c.doneClosed ↔ c.closeOnce = true := by
  unfold doneClosed
  rw [settled.closes]
  cases c.closeOnce <;> simp

/-- The invariant depends on the table only through whether everything is done. -/
private theorem Settled.carry {c c' : Coordinator} (settled : Settled c) (err : c'.jobErr = c.jobErr)
    (closes : c'.doneCloses = c.doneCloses) (once : c'.closeOnce = c.closeOnce)
    (phase : c.closeOnce = true → c'.phase ≠ .map) (table : AllDone c' ↔ AllDone c) : Settled c' := by
  constructor
  · rw [closes, once]; exact settled.closes
  · rw [err, once]; exact settled.failed
  · rw [once, err, table]; exact settled.truthful
  · rw [table, once]; exact settled.complete
  · rw [once]; exact phase

private theorem Settled.transfer {c c' : Coordinator} (settled : Settled c) (same : verdict c' = verdict c)
    (table : AllDone c' ↔ AllDone c) : Settled c' := by
  simp only [verdict, Prod.mk.injEq] at same
  obtain ⟨phase, err, closes, once⟩ := same
  refine settled.carry err closes once ?_ table
  rw [phase]
  exact settled.phase

private theorem opened_verdict {c base : Coordinator} {workerID : WorkerId} {clock : Readings} {kind : TaskKind}
    (settled : Settled c) (opened : Opened c workerID clock kind base) :
    base.jobErr = c.jobErr ∧ base.doneCloses = c.doneCloses ∧ base.closeOnce = c.closeOnce ∧
      (base.phase = c.phase ∨ c.closeOnce = false) := by
  have swept := swept_verdict c workerID clock
  simp only [verdict, Prod.mk.injEq] at swept
  obtain ⟨phase, err, closes, once⟩ := swept
  cases opened with
  | map => exact ⟨err, closes, once, Or.inl phase⟩
  | reduce =>
    unfold enterReduce
    split
    next mapping =>
      refine ⟨err, closes, once, Or.inr ?_⟩
      rw [phase] at mapping
      simpa using mt settled.phase (not_not.mpr mapping)
    next => exact ⟨err, closes, once, Or.inl phase⟩

theorem opened_allDone {c base : Coordinator} {workerID : WorkerId} {clock : Readings} {kind : TaskKind}
    (opened : Opened c workerID clock kind base) : AllDone base ↔ AllDone c := by
  have table (other : TaskKind) : base.tasks other = (c.tasks other).map
      (reclaimTask c.cfg ((c.touch workerID clock.seen).expireWorkers clock.reclaim) clock.reclaim) := by
    cases opened <;> simp [swept]
  simp only [AllDone, table, List.mem_map, forall_exists_index, and_imp, forall_apply_eq_imp_iff₂, reclaimTask_done]

theorem opened_settled {c base : Coordinator} {workerID : WorkerId} {clock : Readings} {kind : TaskKind}
    (settled : Settled c) (opened : Opened c workerID clock kind base) : Settled base := by
  obtain ⟨err, closes, once, phase⟩ := opened_verdict settled opened
  refine settled.carry err closes once ?_ (opened_allDone opened)
  intro closed
  rcases phase with same | still
  · rw [same]
    exact settled.phase closed
  · rw [closed] at still
    cases still

private theorem finish_settled {c : Coordinator} (done : AllDone c) (closes : c.doneCloses = c.closeOnce.toNat)
    (failed : c.jobErr.isSome = true → c.closeOnce = true) (phase : c.closeOnce = true → c.phase ≠ .map)
    (now : Time) : Settled (c.finishLocked now) := by
  have table : AllDone (c.finishLocked now) := fun kind t member => done kind t (by simpa using member)
  unfold finishLocked at table ⊢
  split
  next closed => exact ⟨closes, failed, fun _ _ => done, fun _ => closed, phase⟩
  next once =>
    rw [if_neg once] at table
    simp only [Bool.not_eq_true] at once
    refine ⟨?_, fun _ => rfl, fun _ _ => table, fun _ => rfl, fun _ => by simp⟩
    simp [closes, once]

private theorem not_allDone {c : Coordinator} {kind : TaskKind} {i : Nat} {t : Task}
    (found : (c.tasks kind)[i]? = some t) (unfinished : t.state ≠ .done) : ¬ AllDone c :=
  fun done => unfinished (done kind t (List.mem_of_getElem? found))

private theorem not_allDone_set {c : Coordinator} {kind : TaskKind} {list : List Task} {i : Nat} {t : Task}
    (table : c.tasks kind = list.set i t) (inside : i < list.length) (unfinished : t.state ≠ .done) : ¬ AllDone c :=
  not_allDone (by rw [table, List.getElem?_set_self inside]) unfinished

private theorem Settled.transfer_unfinished {c c' : Coordinator} (settled : Settled c)
    (same : verdict c' = verdict c) (before : ¬ AllDone c) (after : ¬ AllDone c') : Settled c' :=
  settled.transfer same (iff_of_false after before)

private theorem fail_settled {c : Coordinator} (settled : Settled c) (unfinished : ¬ AllDone c) (err : String)
    (now : Time) : Settled (c.failLocked err now) := by
  have table : ¬ AllDone (c.failLocked err now) :=
    fun done => unfinished fun kind t member => done kind t (by simpa using member)
  unfold failLocked at table ⊢
  split
  · exact settled
  next once =>
    rw [if_neg once] at table
    simp only [Bool.not_eq_true] at once
    refine ⟨?_, fun _ => rfl, fun _ impossible => (by cases impossible),
      fun done => absurd done table, fun _ => by simp⟩
    simp [settled.closes, once]

theorem Settled.kept {c : Coordinator} (settled : Settled c) (call : Call) : Settled (c.serve call).2 := by
  cases call with
  | register host now =>
    refine settled.transfer rfl ?_
    simp only [allDone_iff]
    rfl
  | heartbeat workerID now =>
    refine settled.transfer (touch_verdict ..) ?_
    simp [AllDone, serve, heartbeat]
  | reclaim now =>
    refine settled.transfer rfl ?_
    simp only [AllDone, serve, reclaimLocked_tasks, List.mem_map, forall_exists_index, and_imp,
      forall_apply_eq_imp_iff₂, reclaimTask_done]
  | requestTask workerID clock =>
    have outcome := requestTask_cases c workerID clock
    simp only [serve]
    generalize (c.requestTask workerID clock).1 = reply at outcome
    generalize (c.requestTask workerID clock).2 = last at outcome ⊢
    cases outcome with
    | aborted => exact settled.transfer (by simp) (by simp [AllDone])
    | waiting _ opened => exact opened_settled settled opened
    | @finished base _ opened complete =>
      have base_settled := opened_settled settled opened
      have done : AllDone base := by
        cases opened with
        | reduce maps => exact (allDone_iff _).mpr ⟨fun t member => maps t (by simpa [← tasks_map] using member), complete⟩
      refine (finish_settled done base_settled.closes base_settled.failed base_settled.phase clock.finish).transfer
        (by simp) (by simp [AllDone])
    | @handed kind base i t backup _ opened found free =>
      have inside := (List.getElem?_eq_some_iff.mp found).1
      refine (opened_settled settled opened).transfer_unfinished (by simp) (not_allDone found free.state_ne_done) ?_
      exact not_allDone_set ((handOut_tasks ..).trans (if_pos rfl)) inside (by simp [handed, assigned])
  | reportTask args clock =>
    have outcome := reportTask_cases c args clock
    simp only [serve]
    generalize (c.reportTask args clock).1 = reply at outcome
    generalize (c.reportTask args clock).2 = last at outcome ⊢
    cases outcome with
    | ignored => exact settled.transfer (by simp) (by simp [AllDone])
    | @failed i t named unfinished failure =>
      have before := not_allDone named.found unfinished
      have inside := (List.getElem?_eq_some_iff.mp named.found).1
      have after : ¬ AllDone ((c.touch args.workerID clock.seen).setTask args.kind i (failedTask t args.workerID)) :=
        not_allDone_set ((tasks_setTask ..).trans (if_pos rfl)) (by simpa using inside) (by simp [failedTask])
      have failed_settled := settled.transfer_unfinished (by simp) before after
      unfold reportFailure
      simp only
      split
      · exact fail_settled failed_settled after _ _
      · exact failed_settled
    | @accepted i t named unfinished success =>
      have before := not_allDone named.found unfinished
      have marked : verdict (((c.touch args.workerID clock.seen).setTask args.kind i
          (acceptedTask t clock.assign)).recordResult args) = verdict c := by simp
      simp only [verdict, Prod.mk.injEq] at marked
      obtain ⟨phase, err, closes, once⟩ := marked
      unfold reportSuccess
      simp only
      split
      next complete =>
        simp only [Bool.and_eq_true, allDoneLocked_iff] at complete
        refine finish_settled ((allDone_iff _).mpr complete) ?_ ?_ ?_ _
        · exact (closes.trans settled.closes).trans (congrArg Bool.toNat once.symm)
        · intro failed
          exact once.trans (settled.failed (err ▸ failed))
        · intro closed
          exact fun mapping => settled.phase (once ▸ closed) (phase ▸ mapping)
      next incomplete =>
        refine settled.transfer_unfinished ?_ before ?_
        · simp only [verdict, Prod.mk.injEq]
          exact ⟨phase, err, closes, once⟩
        · rw [allDone_iff, ← allDoneLocked_iff, ← allDoneLocked_iff, ← Bool.and_eq_true]
          exact incomplete

theorem Settled.initial (cfg : Config) (groups : List (List GoString)) (now : Time)
    (nonempty : 0 < groups.length + cfg.numReducers) : Settled (new cfg groups now) := by
  refine ⟨rfl, nofun, nofun, fun done => ?_, nofun⟩
  exfalso
  by_cases maps : 0 < groups.length
  · have inside : 0 < (new cfg groups now).mapTasks.length := by simpa [new] using maps
    have finished := done .map _ (List.getElem_mem inside)
    simp [new] at finished
  · have inside : 0 < (new cfg groups now).reduceTasks.length := by
      simp only [new, List.length_map, List.length_range]
      omega
    have finished := done .reduce _ (List.getElem_mem inside)
    simp [new] at finished

private theorem finish_closed {c : Coordinator} (closed : c.closeOnce = true) (now : Time) :
    c.finishLocked now = c := by
  simp [finishLocked, closed]

private theorem fail_closed {c : Coordinator} (closed : c.closeOnce = true) (err : String) (now : Time) :
    c.failLocked err now = c := by
  simp [failLocked, closed]

/-- Once the channel is closed no call changes the outcome again. -/
theorem Settled.closed_kept {c : Coordinator} (settled : Settled c) (closed : c.closeOnce = true) (call : Call) :
    verdict (c.serve call).2 = verdict c := by
  have opened {workerID clock served base} (opened : Opened c workerID clock served base) : verdict base = verdict c := by
    obtain ⟨err, closes, once, phase⟩ := opened_verdict settled opened
    simp only [verdict, err, closes, once]
    rcases phase with same | impossible
    · rw [same]
    · rw [closed] at impossible; cases impossible
  cases call with
  | register | reclaim => rfl
  | heartbeat workerID now => exact touch_verdict ..
  | requestTask workerID clock =>
    have outcome := requestTask_cases c workerID clock
    simp only [serve]
    generalize (c.requestTask workerID clock).1 = reply at outcome
    generalize (c.requestTask workerID clock).2 = last at outcome ⊢
    cases outcome with
    | aborted => simp
    | waiting _ chosen => exact opened chosen
    | finished _ chosen =>
      have once := (opened_verdict settled chosen).2.2.1.trans closed
      rw [markExited_verdict, finish_closed once, opened chosen]
    | handed _ chosen => rw [handOut_verdict, opened chosen]
  | reportTask args clock =>
    have outcome := reportTask_cases c args clock
    simp only [serve]
    generalize (c.reportTask args clock).1 = reply at outcome
    generalize (c.reportTask args clock).2 = last at outcome ⊢
    cases outcome with
    | ignored => simp
    | @failed i t =>
      have same : verdict ((c.touch args.workerID clock.seen).setTask args.kind i (failedTask t args.workerID)) =
          verdict c := by simp
      have once : ((c.touch args.workerID clock.seen).setTask args.kind i (failedTask t args.workerID)).closeOnce =
        true := by
        simp only [verdict, Prod.mk.injEq] at same
        exact same.2.2.2.trans closed
      simp only [failedTask] at same once
      simp only [reportFailure]
      split
      · rw [fail_closed once, same]
      · exact same
    | @accepted i t =>
      have same : verdict (((c.touch args.workerID clock.seen).setTask args.kind i
          (acceptedTask t clock.assign)).recordResult args) = verdict c := by simp
      have once : (((c.touch args.workerID clock.seen).setTask args.kind i
          (acceptedTask t clock.assign)).recordResult args).closeOnce = true := by
        simp only [verdict, Prod.mk.injEq] at same
        exact same.2.2.2.trans closed
      simp only [acceptedTask] at same once
      simp only [reportSuccess]
      split
      · rw [finish_closed once, same]
      · exact same

/-- `TaskExit` is the reply exactly when the channel is closed after the call. -/
theorem Settled.exit_iff {c : Coordinator} (settled : Settled c) {groups : List (List GoString)}
    (indexed : Indexed groups c) (workerID : WorkerId) (clock : Readings) :
    (c.requestTask workerID clock).1.kind = .exit ↔ (c.requestTask workerID clock).2.doneClosed := by
  have last_settled : Settled (c.requestTask workerID clock).2 := settled.kept (.requestTask workerID clock)
  rw [last_settled.closed_iff]
  have outcome := requestTask_cases c workerID clock
  generalize (c.requestTask workerID clock).1 = reply at outcome ⊢
  generalize (c.requestTask workerID clock).2 = last at outcome last_settled ⊢
  have not_closed (unfinished : ¬ AllDone last) (running : last.jobErr = none) : ¬ last.closeOnce = true :=
    fun closed => unfinished (last_settled.truthful closed running)
  cases outcome with
  | aborted failed =>
    refine iff_of_true rfl (last_settled.failed ?_)
    have same := (markExited_verdict (c.touch workerID clock.seen) workerID).trans (touch_verdict c workerID clock.seen)
    simp only [verdict, Prod.mk.injEq] at same
    rw [same.2.1]
    exact failed
  | waiting running opened busy unfinished =>
    obtain ⟨t, member, pending⟩ := unfinished
    refine iff_of_false (by simp [waitReply]) (not_closed (fun done => pending (done _ t member)) ?_)
    exact (opened_verdict settled opened).1.trans running
  | @finished base running opened complete =>
    refine iff_of_true rfl (last_settled.complete ?_)
    cases opened with
    | reduce maps =>
      rw [allDone_iff]
      refine ⟨fun t member => maps t ?_, fun t member => complete t ?_⟩ <;>
      · simpa [← tasks_map, ← tasks_reduce] using member
  | @handed kind base i t backup running opened found free =>
    have inside := (List.getElem?_eq_some_iff.mp found).1
    refine iff_of_false ?_ (not_closed ?_ ?_)
    · obtain ⟨u, origin, rfl⟩ := opened_task_back opened found
      simp only [handReply, reclaimTask_identity, (indexed.tasks kind i u origin).2]
      cases opened <;> simp
    · exact not_allDone_set ((handOut_tasks ..).trans (if_pos rfl)) inside (by simp [handed, assigned])
    · obtain ⟨_, _, _, same⟩ := handOut_frame base kind i t backup workerID clock.assign
      rw [same]
      exact (opened_verdict settled opened).1.trans running

def isFailure (kind : TaskKind) (id : Int) : Call → Bool
  | .reportTask args _ => names kind id args && !args.success
  | _ => false

/-- How many failure reports naming the task the calls hold. -/
def failureReports (calls : List Call) (kind : TaskKind) (id : Int) : Nat := calls.countP (isFailure kind id)

private theorem TaskStep.failures {cfg : Config} {kind : TaskKind} {i : Nat} {t t' : Task} {call : Call} {reply : Reply}
    (step : TaskStep cfg kind i t call reply t') (unfinished : t'.state ≠ .done) :
    t'.failures = t.failures + (if isFailure kind i call then 1 else 0) := by
  cases step with
  | kept unheard =>
    have quiet : isFailure kind i call = false := by
      cases call with
      | reportTask args clock =>
        have elsewhere : ¬ Concerns args kind i := mt (unheard args clock rfl) unfinished
        simp only [Concerns, not_and] at elsewhere
        simp only [isFailure, names, Bool.and_eq_false_iff, beq_eq_false_iff_ne]
        exact Or.inl (not_and_or.mp (fun both => elsewhere both.1 both.2))
      | register | heartbeat | requestTask | reclaim => rfl
    simp [quiet]
  | reclaimed workers now silent =>
    have quiet : isFailure kind i call = false := by
      cases call with
      | reportTask args clock => exact absurd rfl (silent args clock)
      | register | heartbeat | requestTask | reclaim => rfl
    simp [quiet, reclaimTask_identity]
  | handed => simp [isFailure, handed, assigned, reclaimTask_identity]
  | failed concerns _ failure => simp [isFailure, names, failedTask, concerns.1, concerns.2, failure]
  | accepted => simp [acceptedTask] at unfinished

/-- Some unfinished task has used up its attempts. -/
def Exhausted (c : Coordinator) : Prop :=
  ∃ (kind : TaskKind) (i : Nat) (t : Task), (c.tasks kind)[i]? = some t ∧ t.state ≠ .done ∧
    c.cfg.maxTaskAttempts ≤ t.failures

private theorem serve_err {c : Coordinator} (call : Call) :
    (c.serve call).2.jobErr = c.jobErr ∨ Exhausted (c.serve call).2 := by
  have untouched {last : Coordinator} (same : verdict last = verdict c) : last.jobErr = c.jobErr := by
    simp only [verdict, Prod.mk.injEq] at same
    exact same.2.1
  cases call with
  | register | reclaim => exact Or.inl rfl
  | heartbeat workerID now => exact Or.inl (untouched (touch_verdict ..))
  | requestTask workerID clock => exact Or.inl (congrArg (fun kept => kept.2.2) (requestTask_standing c workerID clock))
  | reportTask args clock =>
    have outcome := reportTask_cases c args clock
    have config := serve_cfg c (.reportTask args clock)
    simp only [serve] at config ⊢
    generalize (c.reportTask args clock).1 = reply at outcome
    generalize (c.reportTask args clock).2 = last at outcome config ⊢
    cases outcome with
    | ignored => exact Or.inl (untouched (by simp))
    | @failed i t named unfinished failure =>
      have inside := (List.getElem?_eq_some_iff.mp named.found).1
      by_cases spent : c.cfg.maxTaskAttempts ≤ t.failures + 1
      · refine Or.inr ⟨args.kind, i, failedTask t args.workerID, by simp [inside], by simp [failedTask], ?_⟩
        rw [config]
        exact spent
      · left
        simp only [reportFailure, setTask_cfg, touch_cfg, spent, and_false, if_false]
        exact untouched ((setTask_verdict ..).trans (touch_verdict ..))
    | @accepted i t named unfinished success =>
      left
      have same : (((c.touch args.workerID clock.seen).setTask args.kind i (acceptedTask t clock.assign)).recordResult
          args).jobErr = c.jobErr := untouched (by simp)
      simp only [acceptedTask] at same
      simp only [reportSuccess]
      split
      · unfold finishLocked; split <;> exact same
      · exact same

/-- A task that has used up its attempts has failed the job. -/
private theorem exhausted_fails {c : Coordinator} (settled : Settled c) (limit : 1 ≤ c.cfg.maxTaskAttempts)
    (already : Exhausted c → c.jobErr.isSome = true) (call : Call) (spent : Exhausted (c.serve call).2) :
    (c.serve call).2.jobErr.isSome = true := by
  have persists (failed : c.jobErr.isSome = true) : (c.serve call).2.jobErr.isSome = true := by
    have same := settled.closed_kept (settled.failed failed) call
    simp only [verdict, Prod.mk.injEq] at same
    rw [same.2.1]
    exact failed
  obtain ⟨kind, i, t', after, pending, spent⟩ := spent
  rw [serve_cfg] at spent
  obtain ⟨t, before, step⟩ := serve_step_back after
  have unfinished : t.state ≠ .done := fun done => pending (step.done_kept done ▸ done)
  by_cases earlier : c.cfg.maxTaskAttempts ≤ t.failures
  · exact persists (already ⟨kind, i, t, before, unfinished, earlier⟩)
  · have counted := TaskStep.failures step pending
    have failure : isFailure kind i call = true := by
      by_contra quiet
      simp only [quiet, if_false, Int.add_zero] at counted
      omega
    cases call with
    | register | heartbeat | requestTask | reclaim => cases failure
    | reportTask args clock =>
      simp only [isFailure, names, Bool.and_eq_true, beq_iff_eq, Bool.not_eq_true'] at failure
      obtain ⟨⟨rfl, position⟩, failure⟩ := failure
      have outcome := reportTask_cases c args clock
      simp only [serve] at persists ⊢
      generalize (c.reportTask args clock).1 = reply at outcome
      generalize (c.reportTask args clock).2 = last at outcome persists ⊢
      have located {j u} (named : Names c args j u) : i = j ∧ t = u := by
        obtain rfl : i = j := by have := named.position; omega
        exact ⟨rfl, by simpa [before] using named.found⟩
      cases outcome with
      | ignored useless => exact absurd (useless i t ⟨position, before⟩) unfinished
      | accepted _ _ success => rw [failure] at success; cases success
      | @failed j u named _ _ =>
        obtain ⟨rfl, rfl⟩ := located named
        simp only [isFailure, names, position, failure, beq_self_eq_true, Bool.not_false, Bool.and_self, if_true] at counted
        have frame : verdict ((c.touch args.workerID clock.seen).setTask args.kind i (failedTask t args.workerID)) =
            verdict c := by simp
        simp only [verdict, Prod.mk.injEq] at frame
        simp only [failedTask] at frame
        simp only [reportFailure, setTask_cfg, touch_cfg] at persists ⊢
        rw [if_pos ⟨by omega, by omega⟩] at persists ⊢
        by_cases closed : c.closeOnce = true
        · apply persists
          by_contra none
          exact not_allDone before unfinished (settled.truthful closed (by simpa using none))
        · simp [failLocked, frame.2.2.2, closed]

section Runs
variable (cfg : Config) (groups : List (List GoString)) (now : Time)

theorem config_after (calls : List Call) : (after serve (new cfg groups now) calls).cfg = cfg :=
  Machine.invariant_after (P := fun c => c.cfg = cfg) (fun c call same => (serve_cfg c call).trans same) rfl calls

/-- As long as a task is unfinished its failure count is the number of failure
reports the run holds for it. -/
theorem failures_counted (calls : List Call) {kind : TaskKind} {i : Nat} {t : Task}
    (found : ((after serve (new cfg groups now) calls).tasks kind)[i]? = some t) (unfinished : t.state ≠ .done) :
    t.failures = failureReports calls kind i := by
  induction calls using List.reverseRecOn generalizing t with
  | nil =>
    cases kind with
    | map =>
      simp only [after_nil, tasks_map, new, List.getElem?_mapIdx, Option.map_eq_some_iff] at found
      obtain ⟨_, _, rfl⟩ := found
      rfl
    | reduce =>
      simp only [after_nil, tasks_reduce, new, List.getElem?_map, Option.map_eq_some_iff] at found
      obtain ⟨_, _, rfl⟩ := found
      rfl
    | none | exit | unknown _ => simp [Coordinator.tasks] at found
  | append_singleton calls call ih =>
    rw [after_concat] at found
    obtain ⟨u, before, step⟩ := serve_step_back found
    have earlier : u.state ≠ .done := fun done => unfinished (step.done_kept done ▸ done)
    rw [TaskStep.failures step unfinished, ih before earlier, failureReports, failureReports, List.countP_append,
      List.countP_singleton]
    push_cast
    rfl

/-- At some moment of the run a task that was not yet done, so of a job that
was not yet complete, had been reported failed as often as the job allows. -/
def OutOfAttempts (calls : List Call) : Prop :=
  ∃ (before rest : List Call) (kind : TaskKind) (i : Nat) (t : Task), calls = before ++ rest ∧
    ((after serve (new cfg groups now) before).tasks kind)[i]? = some t ∧ t.state ≠ .done ∧
    cfg.maxTaskAttempts ≤ failureReports before kind i

variable (nonempty : 0 < groups.length + cfg.numReducers) (limit : 1 ≤ cfg.maxTaskAttempts)
include nonempty

theorem settled_after (calls : List Call) : Settled (after serve (new cfg groups now) calls) :=
  Machine.invariant_after (fun _ call settled => settled.kept call) (.initial cfg groups now nonempty) calls

include limit

/-- The job has failed exactly when some unfinished task ran out of attempts. -/
theorem failed_iff (calls : List Call) :
    (after serve (new cfg groups now) calls).err.isSome = true ↔ OutOfAttempts cfg groups now calls := by
  constructor
  · intro failed
    induction calls using List.reverseRecOn with
    | nil => cases failed
    | append_singleton calls call ih =>
      rw [after_concat] at failed
      rcases serve_err (c := after serve (new cfg groups now) calls) call with same | spent
      · rw [err, same] at failed
        obtain ⟨before, rest, kind, i, t, rfl, facts⟩ := ih failed
        exact ⟨before, rest ++ [call], kind, i, t, by simp, facts⟩
      · rw [← after_concat] at spent
        obtain ⟨kind, i, t, found, unfinished, spent⟩ := spent
        refine ⟨calls ++ [call], [], kind, i, t, by simp, found, unfinished, ?_⟩
        rw [config_after, failures_counted cfg groups now _ found unfinished] at spent
        exact spent
  · have exhausted (calls : List Call) (spent : Exhausted (after serve (new cfg groups now) calls)) :
        (after serve (new cfg groups now) calls).jobErr.isSome = true := by
      induction calls using List.reverseRecOn with
      | nil =>
        obtain ⟨kind, i, t, found, unfinished, spent⟩ := spent
        rw [config_after, failures_counted cfg groups now [] found unfinished] at spent
        simp only [failureReports, List.countP_nil, Nat.cast_zero] at spent
        omega
      | append_singleton calls call ih =>
        rw [after_concat] at spent ⊢
        exact exhausted_fails (settled_after cfg groups now nonempty calls) (by rwa [config_after]) ih call spent
    rintro ⟨before, rest, kind, i, t, rfl, found, unfinished, spent⟩
    have failed := exhausted before ⟨kind, i, t, found, unfinished, by
      rwa [config_after, failures_counted cfg groups now before found unfinished]⟩
    rw [after_append]
    refine (Machine.invariant_after (P := fun c => Settled c ∧ c.jobErr.isSome = true) ?_
      ⟨settled_after cfg groups now nonempty before, failed⟩ rest).2
    rintro c call ⟨settled, failed⟩
    have same := settled.closed_kept (settled.failed failed) call
    simp only [verdict, Prod.mk.injEq] at same
    exact ⟨settled.kept call, same.2.1 ▸ failed⟩

/-- One outcome per job, and a truthful one. The channel closes at most once; a
close without an error means every task is done, and every task done means it is
closed; the error is there exactly when an unfinished task has had as many
failure reports as the job allows; `TaskExit` is the reply exactly when the
channel is closed, and then phase and error never change. -/
theorem single_truthful_outcome (calls : List Call) :
    let c := after serve (new cfg groups now) calls
    c.doneCloses ≤ 1 ∧
    (c.doneClosed → c.err = none → AllDone c) ∧
    (c.err.isSome = true ↔ OutOfAttempts cfg groups now calls) ∧
    (AllDone c → c.doneClosed) ∧
    (∀ workerID clock, (c.requestTask workerID clock).1.kind = .exit ↔ (c.requestTask workerID clock).2.doneClosed) ∧
    (c.doneClosed → ∀ later, ∀ e ∈ history serve c later,
      (∀ reply, e.output = .task reply → reply.kind = .exit) ∧ e.after.phase = c.phase ∧ e.after.err = c.err) := by
  intro c
  have settled : Settled c := settled_after cfg groups now nonempty calls
  have indexed : Indexed groups c := .after_run cfg groups now calls
  refine ⟨?_, fun closed => settled.truthful (settled.closed_iff.mp closed), failed_iff cfg groups now nonempty limit calls,
    fun done => settled.closed_iff.mpr (settled.complete done), settled.exit_iff indexed, ?_⟩
  · rw [settled.closes]
    exact Bool.toNat_le _
  · intro closed later
    rw [settled.closed_iff] at closed
    have final (d : Coordinator) (call : Call) (settled : Settled d) (same : verdict d = verdict c) :
        verdict (d.serve call).2 = verdict c := by
      have once : d.closeOnce = true := by
        simp only [verdict, Prod.mk.injEq] at same
        exact same.2.2.2.trans closed
      exact (settled.closed_kept once call).trans same
    refine Machine.invariant_history (P := fun d => Settled d ∧ Indexed groups d ∧ verdict d = verdict c) ?_ ?_
      ⟨settled, indexed, rfl⟩
    · rintro d call ⟨settled, indexed, same⟩
      exact ⟨settled.kept call, indexed.serve call, final d call settled same⟩
    · rintro d call ⟨settled, indexed, same⟩
      have last := final d call settled same
      simp only [verdict, Prod.mk.injEq] at last
      refine ⟨?_, last.1, last.2.1⟩
      intro reply answer
      cases call with
      | register | heartbeat | reportTask | reclaim => cases answer
      | requestTask workerID clock =>
        simp only [event, serve, Reply.task.injEq] at answer
        rw [← answer, settled.exit_iff indexed]
        exact (settled.kept (.requestTask workerID clock)).closed_iff.mpr (last.2.2.2.trans closed)

end Runs

private def oneTry : Config := { oneOfEach with maxTaskAttempts := 1 }

private def firstTryFails : List Call :=
  [.reportTask { workerID := "worker-1", kind := .map, taskID := 0, attempt := 1, success := false } (always 0)]

private def bothTasksDone : List Call :=
  [.reportTask { workerID := "worker-1", kind := .map, taskID := 0, attempt := 1, success := true } (always 0),
   .reportTask { workerID := "worker-1", kind := .reduce, taskID := 0, attempt := 1, success := true } (always 0)]

/-- A job of one map task that has run out of attempts, and one that has not. -/
theorem single_truthful_outcome_eitherWay :
    let failed := after serve (new oneTry [[]] 0) firstTryFails
    let finished := after serve (new oneTry [[]] 0) bothTasksDone
    (failed.doneCloses ≤ 1 ∧ OutOfAttempts oneTry [[]] 0 firstTryFails ∧
      ∀ later, ∀ e ∈ history serve failed later,
        (∀ reply, e.output = .task reply → reply.kind = .exit) ∧ e.after.phase = failed.phase ∧ e.after.err = failed.err) ∧
    finished.doneCloses ≤ 1 ∧ ¬ OutOfAttempts oneTry [[]] 0 bothTasksDone ∧ AllDone finished ∧ finished.doneClosed ∧
      (finished.requestTask "worker-1" (always 0)).1.kind = .exit := by
  intro failed finished
  obtain ⟨once, _, outOf, _, _, final⟩ := single_truthful_outcome oneTry [[]] 0 (by decide) (by decide) firstTryFails
  obtain ⟨once', truthful, outOf', closing, exits, _⟩ :=
    single_truthful_outcome oneTry [[]] 0 (by decide) (by decide) bothTasksDone
  have fine : finished.err = none := by decide
  have done : AllDone finished := truthful (by decide) fine
  refine ⟨⟨once, outOf.mp (by decide), final (by decide)⟩, once', fun out => ?_, done, closing done, ?_⟩
  · have failure := outOf'.mpr out
    cases failure
  · have closed : (finished.requestTask "worker-1" (always 0)).2.doneClosed := by decide
    rw [show finished = after serve (new oneTry [[]] 0) bothTasksDone from rfl]
    exact (exits "worker-1" (always 0)).mpr closed

end FromScratch.Proofs.JobOutcome
