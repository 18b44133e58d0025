import FromScratch.MapReduce.Coordinator

/-! What one RPC can do to the task table. Each handler is inverted once, with
its guards; every invariant of the coordinator is derived from these cases. -/

namespace FromScratch.Proofs.CoordinatorSteps
open FromScratch.MapReduce Coordinator Lib

theorem touch_frame (c : Coordinator) (workerID : WorkerId) (now : Time) :
    ∃ workers, c.touch workerID now = { c with workers := workers } := by
  unfold touch
  split
  · exact ⟨_, rfl⟩
  · exact ⟨c.workers, rfl⟩

theorem markExited_frame (c : Coordinator) (workerID : WorkerId) :
    ∃ workers, c.markExited workerID = { c with workers := workers } := by
  unfold markExited
  split
  · exact ⟨_, rfl⟩
  · exact ⟨c.workers, rfl⟩

@[simp] theorem touch_cfg (c : Coordinator) (workerID : WorkerId) (now : Time) :
    (c.touch workerID now).cfg = c.cfg := by
  obtain ⟨workers, same⟩ := touch_frame c workerID now
  rw [same]

@[simp] theorem touch_tasks (c : Coordinator) (workerID : WorkerId) (now : Time) (kind : TaskKind) :
    (c.touch workerID now).tasks kind = c.tasks kind := by
  obtain ⟨workers, same⟩ := touch_frame c workerID now
  rw [same]
  cases kind <;> rfl

@[simp] theorem touch_jobErr (c : Coordinator) (workerID : WorkerId) (now : Time) :
    (c.touch workerID now).jobErr = c.jobErr := by
  obtain ⟨workers, same⟩ := touch_frame c workerID now
  rw [same]

@[simp] theorem markExited_tasks (c : Coordinator) (workerID : WorkerId) (kind : TaskKind) :
    (c.markExited workerID).tasks kind = c.tasks kind := by
  obtain ⟨workers, same⟩ := markExited_frame c workerID
  rw [same]
  cases kind <;> rfl

@[simp] theorem tasks_map (c : Coordinator) : c.tasks .map = c.mapTasks := rfl

@[simp] theorem tasks_reduce (c : Coordinator) : c.tasks .reduce = c.reduceTasks := rfl

theorem tasks_setTask (c : Coordinator) (kind other : TaskKind) (i : Nat) (t : Task) :
    (c.setTask kind i t).tasks other = if other = kind then (c.tasks kind).set i t else c.tasks other := by
  cases kind <;> cases other <;> simp [setTask, Coordinator.tasks]

theorem setTask_frame (c : Coordinator) (kind : TaskKind) (i : Nat) (t : Task) :
    ∃ mapTasks reduceTasks, c.setTask kind i t = { c with mapTasks := mapTasks, reduceTasks := reduceTasks } ∧
      mapTasks.length = c.mapTasks.length ∧ reduceTasks.length = c.reduceTasks.length := by
  cases kind with
  | map => exact ⟨c.mapTasks.set i t, c.reduceTasks, rfl, by simp, rfl⟩
  | reduce => exact ⟨c.mapTasks, c.reduceTasks.set i t, rfl, rfl, by simp⟩
  | none | exit | unknown _ => exact ⟨c.mapTasks, c.reduceTasks, rfl, rfl, rfl⟩

@[simp] theorem setTask_cfg (c : Coordinator) (kind : TaskKind) (i : Nat) (t : Task) :
    (c.setTask kind i t).cfg = c.cfg := by
  obtain ⟨_, _, same, _⟩ := setTask_frame c kind i t
  rw [same]

@[simp] theorem finishLocked_tasks (c : Coordinator) (now : Time) (kind : TaskKind) :
    (c.finishLocked now).tasks kind = c.tasks kind := by
  unfold finishLocked
  split <;> cases kind <;> rfl

@[simp] theorem failLocked_tasks (c : Coordinator) (err : String) (now : Time) (kind : TaskKind) :
    (c.failLocked err now).tasks kind = c.tasks kind := by
  unfold failLocked
  split <;> cases kind <;> rfl

@[simp] theorem enterReduce_tasks (c : Coordinator) (kind : TaskKind) :
    c.enterReduce.tasks kind = c.tasks kind := by
  unfold enterReduce
  split <;> cases kind <;> rfl

@[simp] theorem reclaimLocked_tasks (c : Coordinator) (now : Time) (kind : TaskKind) :
    (c.reclaimLocked now).tasks kind =
      (c.tasks kind).map (reclaimTask c.cfg (c.expireWorkers now) now) := by
  cases kind <;> rfl

theorem allDoneLocked_iff (list : List Task) : allDoneLocked list = true ↔ ∀ t ∈ list, t.state = .done := by
  simp [allDoneLocked]

/-- Looking a report up finds a position inside the list its kind names. -/
theorem lookupLocked_eq_some {c : Coordinator} {kind : TaskKind} {id : Int} {i : Nat} :
    c.lookupLocked kind id = some i ↔ id = i ∧ i < (c.tasks kind).length := by
  unfold lookupLocked
  split
  next outside =>
    simp only [reduceCtorEq, false_iff]
    omega
  next inside =>
    simp only [Option.some.injEq]
    omega

/-- A task the coordinator may hand to the worker: an idle one, or a running
one that gets its backup now. -/
inductive Free (c : Coordinator) (kind : TaskKind) (workerID : WorkerId) (i : Nat) (t : Task) : Bool → Prop
  | idle (state : t.state = .idle) : Free c kind workerID i t false
  | straggler (state : t.state = .running) (first : t.backup = false) (other : workerID ∉ t.workers)
      (enabled : c.cfg.enableBackupTasks = true) (busy : ∀ u ∈ c.tasks kind, u.state ≠ .idle) :
      Free c kind workerID i t true

theorem Free.state_ne_done {c kind workerID i t backup} (free : Free c kind workerID i t backup) :
    t.state ≠ .done := by
  cases free with
  | idle state => simp [state]
  | straggler state => simp [state]

def handed (t : Task) (backup : Bool) (workerID : WorkerId) (now : Time) : Task :=
  assigned { t with backup := t.backup || backup } workerID now

def handOut (c : Coordinator) (kind : TaskKind) (i : Nat) (t : Task) (backup : Bool) (workerID : WorkerId)
    (now : Time) : Coordinator :=
  { c.setTask kind i (handed t backup workerID now) with
      backupsLaunched := c.backupsLaunched + backup.toNat }

def handReply (c : Coordinator) (t : Task) : RequestTaskReply :=
  { kind := t.kind, taskID := t.id, attempt := t.attempt + 1, inputFiles := t.inputFiles,
    numMappers := c.mapTasks.length, numReducers := c.reduceTasks.length }

@[simp] theorem handOut_tasks (c : Coordinator) (kind other : TaskKind) (i : Nat) (t : Task) (backup : Bool)
    (workerID : WorkerId) (now : Time) :
    (handOut c kind i t backup workerID now).tasks other =
      if other = kind then (c.tasks kind).set i (handed t backup workerID now) else c.tasks other := by
  rw [← tasks_setTask]
  cases other <;> rfl

theorem idle_of_findIdx {list : List Task} {i : Nat}
    (found : list.findIdx? (fun t => t.state == .idle) = some i) :
    ∃ t, list[i]? = some t ∧ t.state = .idle := by
  obtain ⟨inside, selected, _⟩ := List.findIdx?_eq_some_iff_getElem.mp found
  exact ⟨list[i], List.getElem?_eq_getElem inside, by simpa using selected⟩

theorem busy_of_findIdx {list : List Task} (missing : list.findIdx? (fun t => t.state == .idle) = none) :
    ∀ t ∈ list, t.state ≠ .idle := by
  simpa using List.findIdx?_eq_none_iff.mp missing

/-- The candidate the backup loop ends with is one it was allowed to take. -/
theorem weighCandidate_fold (workerID : WorkerId) (limit : Duration) (probe : Nat → Time) (entries : List (Task × Nat))
    (best : Option Nat × Duration) {i : Nat}
    (chosen : (entries.foldl (weighCandidate workerID limit probe) best).1 = some i) :
    best.1 = some i ∨ ∃ t, (t, i) ∈ entries ∧ t.state = .running ∧ t.backup = false ∧ workerID ∉ t.workers := by
  induction entries generalizing best with
  | nil => exact Or.inl chosen
  | cons entry entries ih =>
    obtain ⟨t, j⟩ := entry
    rcases ih _ chosen with kept | ⟨u, member, facts⟩
    · simp only [weighCandidate] at kept
      split at kept
      · exact Or.inl kept
      next eligible =>
        split at kept
        · exact Or.inl kept
        next other =>
          split at kept
          · cases kept
            simp only [ne_eq, not_or, not_not, Bool.not_eq_true] at eligible
            exact Or.inr ⟨t, by simp, eligible.1, eligible.2, other⟩
          · exact Or.inl kept
    · exact Or.inr ⟨u, List.mem_cons_of_mem _ member, facts⟩

theorem pickBackupLocked_some {c c' : Coordinator} {kind : TaskKind} {workerID : WorkerId} {clock : Readings}
    {i : Nat} (picked : c.pickBackupLocked kind workerID clock = (some i, c')) :
    ∃ t, (c.tasks kind)[i]? = some t ∧ t.state = .running ∧ t.backup = false ∧ workerID ∉ t.workers ∧
      c' = { c.setTask kind i { t with backup := true } with backupsLaunched := c.backupsLaunched + 1 } := by
  unfold pickBackupLocked at picked
  simp only at picked
  split at picked
  · cases picked
  · split at picked
    · cases picked
    next j chosen =>
      split at picked
      · cases picked
      next t found =>
        cases picked
        rcases weighCandidate_fold _ _ _ _ _ chosen with impossible | ⟨u, member, state, first, other⟩
        · cases impossible
        · rw [List.mk_mem_zipIdx_iff_getElem?] at member
          cases found.symm.trans member
          exact ⟨t, found, state, first, other, rfl⟩

theorem pickBackupLocked_none {c c' : Coordinator} {kind : TaskKind} {workerID : WorkerId} {clock : Readings}
    (picked : c.pickBackupLocked kind workerID clock = (none, c')) : c' = c := by
  unfold pickBackupLocked at picked
  simp only at picked
  split at picked
  · cases picked; rfl
  · split at picked
    · cases picked; rfl
    · split at picked <;> cases picked
      rfl

theorem pickLocked_none {c c' : Coordinator} {kind : TaskKind} {workerID : WorkerId} {clock : Readings}
    (picked : c.pickLocked kind workerID clock = (none, c')) :
    c' = c ∧ ∀ t ∈ c.tasks kind, t.state ≠ .idle := by
  unfold pickLocked at picked
  split at picked
  · cases picked
  next missing =>
    refine ⟨?_, busy_of_findIdx missing⟩
    split at picked
    · exact pickBackupLocked_none picked
    · cases picked; rfl

/-- Picking and assigning together: the reply names the task as it was found,
and the only change to the table is that one task. -/
theorem pick_then_assign {c c' : Coordinator} {kind : TaskKind} {workerID : WorkerId} {clock : Readings} {i : Nat}
    (picked : c.pickLocked kind workerID clock = (some i, c')) (now : Time) :
    ∃ t backup, (c.tasks kind)[i]? = some t ∧ Free c kind workerID i t backup ∧
      c'.assignLocked kind i workerID now = (handReply c t, handOut c kind i t backup workerID now) := by
  unfold pickLocked at picked
  split at picked
  next j selected =>
    cases picked
    obtain ⟨t, found, idle⟩ := idle_of_findIdx selected
    refine ⟨t, false, found, .idle idle, ?_⟩
    simp only [assignLocked, found, handReply, handOut, handed, Bool.or_false, Bool.toNat_false, Nat.add_zero]
    obtain ⟨_, _, same, _⟩ := setTask_frame c kind i (assigned t workerID now)
    simp only [assigned, same] at *
  next missing =>
    split at picked
    next enabled =>
      obtain ⟨t, found, running, first, other, rfl⟩ := pickBackupLocked_some picked
      refine ⟨t, true, found, .straggler running first other enabled (busy_of_findIdx missing), ?_⟩
      have inside := (List.getElem?_eq_some_iff.mp found).1
      cases kind with
      | map | reduce =>
        simp only [Coordinator.tasks] at found inside
        simp [assignLocked, setTask, Coordinator.tasks, inside, handReply, handOut, handed, assigned]
      | none | exit | unknown _ => simp [Coordinator.tasks] at found
    · cases picked

/-- The table `RequestTask` picks from, after the worker is marked alive and
silent or overdue attempts are reclaimed. -/
def swept (c : Coordinator) (workerID : WorkerId) (clock : Readings) : Coordinator :=
  (c.touch workerID clock.seen).reclaimLocked clock.reclaim

/-- Which list a request is served from: the map list first, the reduce list
only when every map task is done. -/
inductive Opened (c : Coordinator) (workerID : WorkerId) (clock : Readings) : TaskKind → Coordinator → Prop
  | map : Opened c workerID clock .map (swept c workerID clock)
  | reduce (complete : ∀ t ∈ (swept c workerID clock).mapTasks, t.state = .done) :
      Opened c workerID clock .reduce (swept c workerID clock).enterReduce

inductive Requested (c : Coordinator) (workerID : WorkerId) (clock : Readings) :
    RequestTaskReply → Coordinator → Prop
  | aborted (failed : c.jobErr.isSome = true) :
      Requested c workerID clock { kind := .exit } ((c.touch workerID clock.seen).markExited workerID)
  | handed {kind base i t backup} (running : c.jobErr = none) (opened : Opened c workerID clock kind base)
      (found : (base.tasks kind)[i]? = some t) (free : Free base kind workerID i t backup) :
      Requested c workerID clock (handReply base t) (handOut base kind i t backup workerID clock.assign)
  | waiting {kind base} (running : c.jobErr = none) (opened : Opened c workerID clock kind base)
      (busy : ∀ t ∈ base.tasks kind, t.state ≠ .idle) (unfinished : ∃ t ∈ base.tasks kind, t.state ≠ .done) :
      Requested c workerID clock base.waitReply base
  | finished {base} (running : c.jobErr = none) (opened : Opened c workerID clock .reduce base)
      (complete : ∀ t ∈ base.reduceTasks, t.state = .done) :
      Requested c workerID clock { kind := .exit } ((base.finishLocked clock.finish).markExited workerID)

private theorem unfinished_of_not_allDone {list : List Task} (unfinished : (!allDoneLocked list) = true) :
    ∃ t ∈ list, t.state ≠ .done := by
  simpa [allDoneLocked] using unfinished

private theorem requestReduce_cases {c base : Coordinator} {workerID : WorkerId} {clock : Readings}
    (running : c.jobErr = none) (opened : Opened c workerID clock .reduce base) :
    Requested c workerID clock (base.requestReduce workerID clock).1 (base.requestReduce workerID clock).2 := by
  unfold requestReduce
  split
  next i c' picked =>
    obtain ⟨t, backup, found, free, same⟩ := pick_then_assign picked clock.assign
    rw [same]
    exact .handed running opened found free
  next c' picked =>
    obtain ⟨rfl, busy⟩ := pickLocked_none picked
    split
    next unfinished => exact .waiting running opened busy (unfinished_of_not_allDone unfinished)
    next complete =>
      simp only [Bool.not_eq_true, Bool.not_eq_false'] at complete
      exact .finished running opened ((allDoneLocked_iff _).mp complete)

theorem requestTask_cases (c : Coordinator) (workerID : WorkerId) (clock : Readings) :
    Requested c workerID clock (c.requestTask workerID clock).1 (c.requestTask workerID clock).2 := by
  unfold requestTask
  simp only
  split
  next failed => exact .aborted (by simpa using failed)
  next running =>
    have running : c.jobErr = none := by simpa using running
    have opened : Opened c workerID clock .map _ := .map
    split
    next i c' picked =>
      obtain ⟨t, backup, found, free, same⟩ := pick_then_assign picked clock.assign
      rw [same]
      exact .handed running opened found free
    next c' picked =>
      obtain ⟨rfl, busy⟩ := pickLocked_none picked
      split
      next unfinished => exact .waiting running opened busy (unfinished_of_not_allDone unfinished)
      next complete =>
        simp only [Bool.not_eq_true, Bool.not_eq_false'] at complete
        exact requestReduce_cases running (.reduce ((allDoneLocked_iff _).mp complete))

/-- The task a report is about, if it names one. -/
structure Names (c : Coordinator) (args : ReportTaskArgs) (i : Nat) (t : Task) : Prop where
  position : args.taskID = i
  found : (c.tasks args.kind)[i]? = some t

inductive Reported (c : Coordinator) (args : ReportTaskArgs) (clock : Readings) : Bool → Coordinator → Prop
  | ignored (useless : ∀ i t, Names c args i t → t.state = .done) :
      Reported c args clock false (c.touch args.workerID clock.seen)
  | failed {i t} (names : Names c args i t) (unfinished : t.state ≠ .done) (failure : args.success = false) :
      Reported c args clock false ((c.touch args.workerID clock.seen).reportFailure args i t clock.finish)
  | accepted {i t} (names : Names c args i t) (unfinished : t.state ≠ .done) (success : args.success = true) :
      Reported c args clock true ((c.touch args.workerID clock.seen).reportSuccess args i t clock)

theorem reportTask_cases (c : Coordinator) (args : ReportTaskArgs) (clock : Readings) :
    Reported c args clock (c.reportTask args clock).1 (c.reportTask args clock).2 := by
  unfold reportTask
  simp only
  split
  next missing =>
    refine .ignored fun i t names => ?_
    have inside := (List.getElem?_eq_some_iff.mp names.found).1
    have located := lookupLocked_eq_some (c := c.touch args.workerID clock.seen).mpr
      ⟨names.position, by simpa using inside⟩
    rw [missing] at located
    cases located
  next i located =>
    obtain ⟨position, inside⟩ := lookupLocked_eq_some.mp located
    rw [touch_tasks] at inside
    simp only [touch_tasks, List.getElem?_eq_getElem inside]
    have names : Names c args i (c.tasks args.kind)[i] := ⟨position, List.getElem?_eq_getElem inside⟩
    split
    next done =>
      refine .ignored fun j t other => ?_
      have same : j = i := by have := other.position; omega
      subst same
      cases names.found.symm.trans other.found
      exact done
    next unfinished =>
      split
      next failure => exact .failed names unfinished (by simpa using failure)
      next success => exact .accepted names unfinished (by simpa using success)

/-- What no request for a task changes. -/
def standing (c : Coordinator) : Config × Counters × Option String := (c.cfg, c.counters, c.jobErr)

theorem touch_standing (c : Coordinator) (workerID : WorkerId) (now : Time) :
    standing (c.touch workerID now) = standing c := by
  obtain ⟨_, same⟩ := touch_frame c workerID now
  rw [same]
  rfl

theorem requestTask_standing (c : Coordinator) (workerID : WorkerId) (clock : Readings) :
    standing (c.requestTask workerID clock).2 = standing c := by
  have opened {served base} (opened : Opened c workerID clock served base) : standing base = standing c := by
    cases opened with
    | map => exact touch_standing c workerID clock.seen
    | reduce => unfold enterReduce; split <;> exact touch_standing c workerID clock.seen
  have outcome := requestTask_cases c workerID clock
  generalize (c.requestTask workerID clock).1 = reply at outcome
  generalize (c.requestTask workerID clock).2 = last at outcome ⊢
  cases outcome with
  | aborted =>
    obtain ⟨_, same⟩ := markExited_frame (c.touch workerID clock.seen) workerID
    rw [same]
    exact touch_standing c workerID clock.seen
  | waiting _ chosen => exact opened chosen
  | @finished base _ chosen =>
    obtain ⟨_, same⟩ := markExited_frame (base.finishLocked clock.finish) workerID
    rw [same, ← opened chosen]
    unfold finishLocked
    split <;> rfl
  | @handed kind base i t backup _ chosen =>
    obtain ⟨_, _, same, _⟩ := setTask_frame base kind i (handed t backup workerID clock.assign)
    rw [handOut, same, ← opened chosen]
    rfl

theorem reportFailure_frame (c : Coordinator) (args : ReportTaskArgs) (i : Nat) (t : Task) (now : Time) :
    (c.reportFailure args i t now).cfg = c.cfg ∧ (c.reportFailure args i t now).counters = c.counters := by
  obtain ⟨_, _, same, _⟩ := setTask_frame c args.kind i
    { t with failures := t.failures + 1, state := .idle, workers := t.workers.erase args.workerID }
  simp only [reportFailure, same]
  split
  · unfold failLocked
    split <;> exact ⟨rfl, rfl⟩
  · exact ⟨rfl, rfl⟩

theorem reportSuccess_frame (c : Coordinator) (args : ReportTaskArgs) (i : Nat) (t : Task) (clock : Readings) :
    (c.reportSuccess args i t clock).cfg = c.cfg ∧
      (c.reportSuccess args i t clock).counters = c.counters.merge args.counters := by
  obtain ⟨_, _, same, _⟩ := setTask_frame c args.kind i { t with state := .done, finished := clock.assign }
  simp only [reportSuccess, recordResult, same]
  split
  · unfold finishLocked
    split <;> exact ⟨rfl, rfl⟩
  · exact ⟨rfl, rfl⟩

/-! Recording a report and closing the job leave the records of the workers alone. -/

theorem setTask_workers (c : Coordinator) (kind : TaskKind) (i : Nat) (t : Task) :
    (c.setTask kind i t).workers = c.workers := by
  obtain ⟨_, _, same, _⟩ := setTask_frame c kind i t
  rw [same]

theorem finishLocked_workers (c : Coordinator) (now : Time) : (c.finishLocked now).workers = c.workers := by
  unfold finishLocked
  split <;> rfl

theorem reportFailure_workers (c : Coordinator) (args : ReportTaskArgs) (i : Nat) (t : Task) (now : Time) :
    (c.reportFailure args i t now).workers = c.workers := by
  have same := setTask_workers c args.kind i
    { t with failures := t.failures + 1, state := .idle, workers := t.workers.erase args.workerID }
  simp only [reportFailure]
  split
  · unfold failLocked
    split <;> exact same
  · exact same

theorem reportSuccess_workers (c : Coordinator) (args : ReportTaskArgs) (i : Nat) (t : Task) (clock : Readings) :
    (c.reportSuccess args i t clock).workers = c.workers := by
  have same := setTask_workers c args.kind i { t with state := .done, finished := clock.assign }
  simp only [reportSuccess]
  split
  · rw [finishLocked_workers]
    exact same
  · exact same

end FromScratch.Proofs.CoordinatorSteps
