import FromScratch.Proofs.JobOutcome

/-! A worker is told to wait only for attempts that are still going: whatever
was silent or overdue has just been reclaimed, and an idle task is handed out. -/

namespace FromScratch.Proofs.PhaseProgress
open FromScratch.MapReduce Coordinator Lib Machine CoordinatorSteps TaskLifecycle Acceptance JobOutcome

/-- Map while some map task is not done, reduce after. -/
def currentPhase (c : Coordinator) : TaskKind := if allDoneLocked c.mapTasks then .reduce else .map

/-- Someone alive holds the task, and has not held it too long. -/
structure Attended (c : Coordinator) (now : Time) (t : Task) : Prop where
  started : now - t.started ≤ c.cfg.taskTimeout
  attempt : ∃ workerID number w, t.workers.lookup workerID = some number ∧
    c.workers.lookup workerID = some w ∧ w.alive = true ∧ now - w.lastSeen ≤ c.cfg.workerTimeout

private theorem reclaimTask_running {cfg : Config} {workers : FiniteMap WorkerId Worker} {now : Time} {t : Task}
    (running : (reclaimTask cfg workers now t).state = .running) :
    now - (reclaimTask cfg workers now t).started ≤ cfg.taskTimeout ∧
      ∃ workerID number, (reclaimTask cfg workers now t).workers.lookup workerID = some number ∧
        isAlive workers workerID = true := by
  unfold reclaimTask at running ⊢
  split at running
  next elsewhere => exact absurd running elsewhere
  next busy =>
    rw [if_neg busy]
    split at running
    · cases running
    next kept =>
      rw [if_neg kept]
      simp only [ne_eq, not_not] at busy
      simp only [reclaims, busy, beq_self_eq_true, Bool.true_and, Bool.or_eq_true, beq_iff_eq,
        List.length_eq_zero_iff, decide_eq_true_eq, not_or, not_lt] at kept
      obtain ⟨held, intime⟩ := kept
      rw [FiniteMap.keys_eq_nil_iff, not_forall] at held
      obtain ⟨workerID, held⟩ := held
      refine ⟨intime, workerID, ?_⟩
      simp only [liveAttempts, FiniteMap.lookup_keepKeys] at held ⊢
      by_cases alive : isAlive workers workerID = true
      · rw [if_pos alive] at held ⊢
        obtain ⟨number, found⟩ := Option.ne_none_iff_exists'.mp held
        exact ⟨number, found, alive⟩
      · simp [alive] at held

private theorem expireWorkers_alive {c : Coordinator} {now : Time} {workerID : WorkerId}
    (alive : isAlive (c.expireWorkers now) workerID = true) :
    ∃ w, (c.expireWorkers now).lookup workerID = some w ∧ w.alive = true ∧ now - w.lastSeen ≤ c.cfg.workerTimeout := by
  unfold isAlive at alive
  split at alive
  next w found =>
    refine ⟨w, found, alive, ?_⟩
    rw [expireWorkers, FiniteMap.lookup_mapValues, Option.map_eq_some_iff] at found
    obtain ⟨u, _, rfl⟩ := found
    unfold expireWorker at alive ⊢
    split at alive
    · cases alive
    next kept =>
      rw [if_neg kept]
      simp only [alive, Bool.true_and, decide_eq_true_eq, not_lt] at kept
      exact kept
  · cases alive

private theorem opened_attended {c base : Coordinator} {workerID : WorkerId} {clock : Readings} {kind : TaskKind}
    (opened : Opened c workerID clock kind base) {t : Task} (member : t ∈ base.tasks kind)
    (running : t.state = .running) : Attended base clock.reclaim t := by
  obtain ⟨i, inside, rfl⟩ := List.mem_iff_getElem.mp member
  obtain ⟨u, _, same⟩ := opened_task_back opened (List.getElem?_eq_getElem inside)
  rw [← same] at running ⊢
  obtain ⟨intime, holder, number, held, alive⟩ := reclaimTask_running running
  obtain ⟨w, found, alive, seen⟩ := expireWorkers_alive alive
  have frame : base.cfg = c.cfg ∧ base.workers = (c.touch workerID clock.seen).expireWorkers clock.reclaim := by
    cases opened with
    | map => exact ⟨touch_cfg .., rfl⟩
    | reduce => unfold enterReduce; split <;> exact ⟨touch_cfg .., rfl⟩
  rw [touch_cfg] at seen
  exact ⟨by rw [frame.1]; exact intime, holder, number, w, held, by rw [frame.2]; exact found, alive,
    by rw [frame.1]; exact seen⟩

private theorem opened_phase {c base : Coordinator} {workerID : WorkerId} {clock : Readings} {kind : TaskKind}
    (opened : Opened c workerID clock kind base) (unfinished : ∃ t ∈ base.tasks kind, t.state ≠ .done) :
    currentPhase base = kind := by
  cases opened with
  | map =>
    obtain ⟨t, member, pending⟩ := unfinished
    have some_left : ¬ allDoneLocked (swept c workerID clock).mapTasks = true :=
      fun done => pending ((allDoneLocked_iff _).mp done t member)
    simp [currentPhase, some_left]
  | reduce complete =>
    have all_done : allDoneLocked (swept c workerID clock).enterReduce.mapTasks = true :=
      (allDoneLocked_iff _).mpr fun t member => complete t (by simpa [← tasks_map] using member)
    simp [currentPhase, all_done]

theorem opened_maps {c base : Coordinator} {workerID : WorkerId} {clock : Readings} {kind : TaskKind}
    (opened : Opened c workerID clock kind base) :
    (∀ t ∈ base.mapTasks, t.state = .done) ↔ ∀ t ∈ c.mapTasks, t.state = .done := by
  have table : base.mapTasks = c.mapTasks.map
      (reclaimTask c.cfg ((c.touch workerID clock.seen).expireWorkers clock.reclaim) clock.reclaim) := by
    have list : base.tasks .map = (swept c workerID clock).tasks .map := by
      cases opened with
      | map => rfl
      | reduce => exact enterReduce_tasks ..
    rwa [swept, reclaimLocked_tasks, touch_tasks, touch_cfg] at list
  simp only [table, List.mem_map, forall_exists_index, and_imp, forall_apply_eq_imp_iff₂, reclaimTask_done]

private theorem opened_idle {c base : Coordinator} {workerID : WorkerId} {clock : Readings} {served kind : TaskKind}
    (opened : Opened c workerID clock served base) {t : Task} (member : t ∈ c.tasks kind) (idle : t.state = .idle) :
    t ∈ base.tasks kind := by
  obtain ⟨i, inside, rfl⟩ := List.mem_iff_getElem.mp member
  have moved := opened_task opened (List.getElem?_eq_getElem inside)
  have same : ∀ workers now, reclaimTask c.cfg workers now (c.tasks kind)[i] = (c.tasks kind)[i] := by
    intro workers now
    simp [reclaimTask, idle]
  rw [same] at moved
  exact List.mem_of_getElem? moved

/-- While the job has no error nothing is stranded: a worker told to wait waits
for running tasks of the current phase, each with a live, timely attempt, and an
idle task of the current phase is always handed out. -/
theorem no_task_stranded (cfg : Config) (groups : List (List GoString)) (now : Time) (calls : List Call)
    (workerID : WorkerId) (clock : Readings) :
    let c := after serve (new cfg groups now) calls
    let reply := (c.requestTask workerID clock).1
    let last := (c.requestTask workerID clock).2
    c.err = none →
      (reply.kind = .none →
        (∀ t ∈ last.tasks (currentPhase last), t.state ≠ .idle) ∧
        (∃ t ∈ last.tasks (currentPhase last), t.state = .running) ∧
        ∀ t ∈ last.tasks (currentPhase last), t.state = .running → Attended last clock.reclaim t) ∧
      ((∃ t ∈ c.tasks (currentPhase c), t.state = .idle) → reply.kind = currentPhase c) := by
  intro c reply last healthy
  have indexed : Indexed groups c := .after_run cfg groups now calls
  have outcome := requestTask_cases c workerID clock
  change Requested c workerID clock reply last at outcome
  generalize reply = reply at outcome
  generalize last = last at outcome
  cases outcome with
  | aborted failed =>
    rw [err] at healthy
    rw [healthy] at failed
    cases failed
  | @handed kind base i t backup running opened found free =>
    obtain ⟨u, origin, rfl⟩ := opened_task_back opened found
    have sameKind : (handReply base (reclaimTask c.cfg ((c.touch workerID clock.seen).expireWorkers clock.reclaim)
        clock.reclaim u)).kind = kind := by
      simp only [handReply, reclaimTask_identity, (indexed.tasks kind i u origin).2]
    refine ⟨fun waiting => ?_, fun _ => ?_⟩
    · rw [sameKind] at waiting
      cases opened <;> cases waiting
    · rw [sameKind]
      have unfinished := free.state_ne_done
      rw [ne_eq, reclaimTask_done] at unfinished
      unfold currentPhase
      split
      next complete =>
        rw [allDoneLocked_iff] at complete
        cases opened with
        | map => exact absurd (complete u (List.mem_of_getElem? origin)) unfinished
        | reduce => rfl
      next incomplete =>
        rw [allDoneLocked_iff] at incomplete
        cases opened with
        | map => rfl
        | reduce done => exact absurd ((opened_maps .map).mp done) incomplete
  | @waiting kind base running opened busy unfinished =>
    have phase := opened_phase opened unfinished
    refine ⟨fun _ => ?_, ?_⟩
    · rw [phase]
      refine ⟨busy, ?_, fun t member => opened_attended opened member⟩
      obtain ⟨t, member, pending⟩ := unfinished
      refine ⟨t, member, ?_⟩
      have idle := busy t member
      cases state : t.state <;> simp_all
    · rintro ⟨t, member, idle⟩
      have same : currentPhase c = kind := by
        rw [← phase]
        simp only [currentPhase, allDoneLocked_iff, opened_maps opened]
      rw [same] at member
      exact absurd idle (busy t (opened_idle opened member idle))
  | @finished base running opened complete =>
    refine ⟨fun waiting => (by cases waiting), ?_⟩
    rintro ⟨t, member, idle⟩
    have maps : ∀ t ∈ c.mapTasks, t.state = .done := by
      cases opened with
      | reduce done => exact (opened_maps .map).mp done
    have phase : currentPhase c = .reduce := by simp [currentPhase, (allDoneLocked_iff _).mpr maps]
    rw [phase] at member
    have finished := complete t (opened_idle opened member idle)
    rw [idle] at finished
    cases finished

/-- One worker has the only map task, another asks. -/
theorem no_task_stranded_waiting :
    let c := after serve (new oneOfEach [[]] 0)
      [.register "host" 0, .register "host" 0, .requestTask "worker-1" (always 0)]
    let last := (c.requestTask "worker-2" (always 40)).2
    (c.requestTask "worker-2" (always 40)).1.kind = .none ∧ ∃ t ∈ last.mapTasks, t.state = .running ∧ Attended last 40 t := by
  intro c last
  have waits : (c.requestTask "worker-2" (always 40)).1.kind = .none := by decide
  have phase : currentPhase last = .map := by decide
  obtain ⟨waiting, _⟩ := no_task_stranded oneOfEach [[]] 0 _ "worker-2" (always 40) (show c.err = none by decide)
  obtain ⟨_, ⟨t, listed, running⟩, attended⟩ := waiting waits
  have current : t ∈ last.mapTasks := by rwa [phase] at listed
  exact ⟨waits, t, current, running, attended t listed running⟩

end FromScratch.Proofs.PhaseProgress
