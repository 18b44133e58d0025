import FromScratch.MapReduce.Worker
import FromScratch.Proofs.JobOutcome
import FromScratch.Proofs.WorkAccounting

/-! One worker is enough. Whatever happened before, a worker that is left alone
with the coordinator and does what it is given brings the job to its end. -/

namespace FromScratch.Proofs.LoneWorker
open FromScratch.MapReduce Coordinator Lib Machine CoordinatorSteps TaskLifecycle Acceptance JobOutcome WorkAccounting

/-- One turn of the loop of `Run`: the clock of the request and of the report,
and what the attempt counts and how long it takes. -/
structure Turn where
  request : Readings
  report : Readings
  counters : Counters := ∅
  elapsed : Duration := 0

/-- The worker asks for a task, and if it gets one does it and reports. -/
def takeTurn (workerID : WorkerId) (c : Coordinator) (turn : Turn) : Coordinator :=
  let (reply, c) := c.requestTask workerID turn.request
  match reply.kind with
  | .map | .reduce => (c.reportTask (taskReport workerID reply (.ok ()) "" turn.counters turn.elapsed) turn.report).2
  | _ => c

def takeTurns (workerID : WorkerId) (c : Coordinator) (turns : List Turn) : Coordinator := turns.foldl (takeTurn workerID) c

/-- The tasks that are not done. -/
def unfinished (c : Coordinator) : Nat :=
  (c.mapTasks ++ c.reduceTasks).countP fun t => t.state != .done

/-- Every attempt under way is overdue at that reading. -/
def Overdue (c : Coordinator) (reading : Time) : Prop :=
  ∀ kind, ∀ t ∈ c.tasks kind, t.state = .running → c.cfg.taskTimeout < reading - t.started

/-- The calls of a turn. -/
def callsOf (workerID : WorkerId) (c : Coordinator) (turn : Turn) : List Call :=
  let reply := (c.requestTask workerID turn.request).1
  .requestTask workerID turn.request ::
    match reply.kind with
    | .map | .reduce => [.reportTask (taskReport workerID reply (.ok ()) "" turn.counters turn.elapsed) turn.report]
    | _ => []

theorem takeTurn_eq (workerID : WorkerId) (c : Coordinator) (turn : Turn) :
    takeTurn workerID c turn = after serve c (callsOf workerID c turn) := by
  simp only [takeTurn, callsOf]
  split <;> rfl

/-- Sweeping overdue attempts leaves no task running. -/
theorem reclaimTask_overdue {cfg : Config} {workers : FiniteMap WorkerId Worker} {now : Time} {t : Task}
    (overdue : t.state = .running → cfg.taskTimeout < now - t.started) :
    (reclaimTask cfg workers now t).state ≠ .running := by
  unfold reclaimTask
  split
  next elsewhere => exact elsewhere
  next running =>
    have late := overdue (by simpa using running)
    have goes : reclaims cfg workers now t = true := by
      simp only [ne_eq, not_not] at running
      simp [reclaims, running, late]
    rw [if_pos goes]
    simp

private theorem unfinished_eq_zero (c : Coordinator) : unfinished c = 0 ↔ AllDone c := by
  rw [unfinished, List.countP_eq_zero, allDone_iff]
  simp [or_imp, forall_and]

private theorem unfinished_done (c : Coordinator) :
    unfinished c + countDone c.mapTasks + countDone c.reduceTasks = c.mapTasks.length + c.reduceTasks.length := by
  have split (list : List Task) : list.countP (fun t => t.state != .done) + countDone list = list.length := by
    rw [Nat.add_comm, countDone, List.length_eq_countP_add_countP (fun t : Task => t.state == .done)]
    simp [bne, beq_eq_decide]
  have maps := split c.mapTasks
  have reduces := split c.reduceTasks
  rw [unfinished, List.countP_append]
  omega

/-- An accepted report is one task less. -/
theorem unfinished_serve (c : Coordinator) (call : Call) :
    unfinished (c.serve call).2 + ((acceptedReport (event serve c call)).any fun args => args.kind == .map).toNat +
      ((acceptedReport (event serve c call)).any fun args => args.kind == .reduce).toNat = unfinished c := by
  have maps := serve_done c call .map
  have reduces := serve_done c call .reduce
  have before := unfinished_done c
  have after := unfinished_done (c.serve call).2
  have mapCount : ((c.serve call).2.mapTasks).length = c.mapTasks.length := serve_length c call .map
  have reduceCount : ((c.serve call).2.reduceTasks).length = c.reduceTasks.length := serve_length c call .reduce
  simp only [tasks_map, tasks_reduce] at maps reduces
  omega

private theorem reportSuccess_jobErr (c : Coordinator) (args : ReportTaskArgs) (i : Nat) (t : Task) (clock : Readings) :
    (c.reportSuccess args i t clock).jobErr = c.jobErr := by
  obtain ⟨_, _, same, _⟩ := setTask_frame c args.kind i { t with state := .done, finished := clock.assign }
  simp only [reportSuccess, recordResult, same]
  split
  · unfold finishLocked
    split <;> rfl
  · rfl

/-- The task a request hands out: it is the only one that runs. -/
structure Handed (c : Coordinator) (reply : RequestTaskReply) (i : Nat) (t : Task) : Prop where
  work : reply.kind = .map ∨ reply.kind = .reduce
  position : reply.taskID = i
  found : (c.tasks reply.kind)[i]? = some t
  state : t.state = .running
  alone : ∀ kind j u, (c.tasks kind)[j]? = some u → u.state = .running → kind = reply.kind ∧ j = i

/-- Reporting the one task that runs finishes it. -/
theorem report_handed {c : Coordinator} {reply : RequestTaskReply} {i : Nat} {t : Task} (handed : Handed c reply i t)
    (workerID : WorkerId) (counters : Counters) (elapsed : Duration) (clock : Readings) :
    let last := (c.reportTask (taskReport workerID reply (.ok ()) "" counters elapsed) clock).2
    last.jobErr = c.jobErr ∧ unfinished last + 1 = unfinished c ∧ ∀ kind, ∀ t ∈ last.tasks kind, t.state ≠ .running := by
  intro last
  have counted := unfinished_serve c (.reportTask (taskReport workerID reply (.ok ()) "" counters elapsed) clock)
  have named : Names c (taskReport workerID reply (.ok ()) "" counters elapsed) i t := ⟨handed.position, handed.found⟩
  have outcome := reportTask_cases c (taskReport workerID reply (.ok ()) "" counters elapsed) clock
  simp only [event, serve, acceptedReport] at counted
  change _ = unfinished c at counted
  have inside := (List.getElem?_eq_some_iff.mp handed.found).1
  have state := handed.state
  generalize (c.reportTask (taskReport workerID reply (.ok ()) "" counters elapsed) clock).1 = accepted at outcome counted
  change Reported c _ clock accepted last at outcome
  change unfinished last + _ + _ = _ at counted
  generalize last = last at outcome counted ⊢
  cases outcome with
  | ignored useless =>
    rw [useless i t named] at state
    cases state
  | failed _ _ failure => cases failure
  | @accepted j u twin =>
    obtain rfl : i = j := by
      have := twin.position
      have := named.position
      omega
    obtain rfl := Option.some.inj (named.found.symm.trans twin.found)
    refine ⟨?_, ?_, fun kind v member => ?_⟩
    · obtain ⟨_, same⟩ := touch_frame c workerID clock.seen
      refine (reportSuccess_jobErr ..).trans ?_
      change (c.touch workerID clock.seen).jobErr = c.jobErr
      rw [same]
    · have kind : (taskReport workerID reply (.ok ()) "" counters elapsed).kind = reply.kind := rfl
      simp only [Option.any_some, kind] at counted
      have apart : (TaskKind.map == TaskKind.reduce) = false ∧ (TaskKind.reduce == TaskKind.map) = false := ⟨rfl, rfl⟩
      rcases handed.work with work | work <;>
      · simp only [work, apart, beq_self_eq_true, Bool.toNat_true, Bool.toNat_false] at counted
        omega
    · rw [reportSuccess_tasks, touch_tasks, touch_tasks] at member
      obtain ⟨k, found⟩ := List.mem_iff_getElem?.mp member
      split at found
      next same =>
        subst same
        change ((c.tasks reply.kind).set i (acceptedTask t clock.assign))[k]? = some v at found
        by_cases here : i = k
        · subst here
          rw [List.getElem?_set_self inside] at found
          cases found
          simp [acceptedTask]
        · rw [List.getElem?_set_ne here] at found
          exact fun running => here (handed.alone _ k v found running).2.symm
      next other => exact fun running => other (handed.alone kind k v found running).1

section Turn
variable {groups : List (List GoString)} {c : Coordinator} (workerID : WorkerId) (indexed : Indexed groups c)
  (healthy : c.jobErr = none)
include indexed healthy

/-- When nothing under way is in time, a request hands a task out or ends the job. -/
theorem request_overdue {clock : Readings} (overdue : Overdue c clock.reclaim) :
    (unfinished c = 0 ∧ (c.requestTask workerID clock).1.kind = .exit ∧
    ∀ kind, ∀ t ∈ (c.requestTask workerID clock).2.tasks kind,
      t.state ≠ .running) ∨
    ∃ i t, Handed (c.requestTask workerID clock).2 (c.requestTask workerID clock).1 i t := by
  have outcome := requestTask_cases c workerID clock
  generalize (c.requestTask workerID clock).1 = reply at outcome ⊢
  generalize (c.requestTask workerID clock).2 = last at outcome ⊢
  have idle {served base} (opened : Opened c workerID clock served base) (kind : TaskKind) (t : Task)
      (member : t ∈ base.tasks kind) : t.state ≠ .running := by
    obtain ⟨i, found⟩ := List.mem_iff_getElem?.mp member
    obtain ⟨u, origin, rfl⟩ := opened_task_back opened found
    exact reclaimTask_overdue (overdue kind u (List.mem_of_getElem? origin))
  cases outcome with
  | aborted failed => rw [healthy] at failed; cases failed
  | @waiting kind base _ opened busy pending =>
    obtain ⟨t, member, pending⟩ := pending
    have quiet := idle opened kind t member
    have waiting := busy t member
    cases state : t.state <;> simp_all
  | @finished base _ opened complete =>
    refine .inl ⟨?_, rfl, fun kind t member => ?_⟩
    · rw [unfinished_eq_zero, ← opened_allDone opened, allDone_iff]
      refine ⟨fun t member => ?_, complete⟩
      cases opened with
      | reduce done => exact done t (by simpa [← tasks_map] using member)
    · rw [markExited_tasks, finishLocked_tasks] at member
      exact idle opened kind t member
  | @handed served base i t backup _ opened found free =>
    obtain ⟨u, origin, rfl⟩ := opened_task_back opened found
    have inside := (List.getElem?_eq_some_iff.mp found).1
    obtain ⟨id, kind⟩ := indexed.tasks served i u origin
    have sameKind : (handReply base (reclaimTask c.cfg ((c.touch workerID clock.seen).expireWorkers clock.reclaim)
        clock.reclaim u)).kind = served := by simp only [handReply, reclaimTask_identity, kind]
    refine .inr ⟨i, handed (reclaimTask c.cfg ((c.touch workerID clock.seen).expireWorkers clock.reclaim) clock.reclaim u)
      backup workerID clock.assign, ?_, ?_, ?_, rfl, ?_⟩
    · rw [sameKind]
      cases opened with
      | map => exact .inl rfl
      | reduce => exact .inr rfl
    · simp only [handReply, reclaimTask_identity, id]
    · rw [sameKind, handOut_tasks, if_pos rfl, List.getElem?_set_self inside]
    · intro other j v there running
      rw [sameKind]
      rw [handOut_tasks] at there
      split at there
      next same =>
        refine ⟨same, ?_⟩
        by_contra different
        rw [List.getElem?_set_ne (Ne.symm different)] at there
        exact idle opened served v (List.mem_of_getElem? there) running
      next => exact absurd running (idle opened other v (List.mem_of_getElem? there))

theorem takeTurn_progress {turn : Turn} (overdue : Overdue c turn.request.reclaim) :
    (takeTurn workerID c turn).jobErr = none ∧ unfinished (takeTurn workerID c turn) = unfinished c - 1 ∧
      ∀ kind, ∀ t ∈ (takeTurn workerID c turn).tasks kind, t.state ≠ .running := by
  have standing : (c.requestTask workerID turn.request).2.jobErr = none :=
    (congrArg (fun kept => kept.2.2) (requestTask_standing c workerID turn.request)).trans healthy
  have requested := unfinished_serve c (.requestTask workerID turn.request)
  change unfinished (c.requestTask workerID turn.request).2 = unfinished c at requested
  rcases request_overdue workerID indexed healthy overdue with ⟨none, exit, quiet⟩ | ⟨i, t, handed⟩
  · have same : takeTurn workerID c turn = (c.requestTask workerID turn.request).2 := by
      simp only [takeTurn, exit]
    rw [same]
    exact ⟨standing, by omega, quiet⟩
  · have same : takeTurn workerID c turn = ((c.requestTask workerID turn.request).2.reportTask (taskReport workerID
        (c.requestTask workerID turn.request).1 (.ok ()) "" turn.counters turn.elapsed) turn.report).2 := by
      unfold takeTurn
      rcases handed.work with work | work <;> simp only [work]
    obtain ⟨error, fewer, quiet⟩ := report_handed handed workerID turn.counters turn.elapsed turn.report
    rw [same]
    exact ⟨error.trans standing, by omega, quiet⟩

end Turn

section Turns
variable {groups : List (List GoString)}

theorem takeTurns_progress {c : Coordinator} (indexed : Indexed groups c) (healthy : c.jobErr = none) (workerID : WorkerId)
    (turns : List Turn) (overdue : ∀ first ∈ turns.head?, Overdue c first.request.reclaim) :
    (∃ calls, takeTurns workerID c turns = after serve c calls) ∧ (takeTurns workerID c turns).jobErr = none ∧
      unfinished (takeTurns workerID c turns) = unfinished c - turns.length := by
  induction turns generalizing c with
  | nil => exact ⟨⟨[], rfl⟩, healthy, rfl⟩
  | cons turn turns ih =>
    obtain ⟨error, fewer, quiet⟩ := takeTurn_progress workerID indexed healthy (overdue turn rfl)
    have kept : Indexed groups (takeTurn workerID c turn) := by
      rw [takeTurn_eq]
      exact Machine.invariant_after (P := Indexed groups) (fun _ call indexed => indexed.serve call) indexed _
    obtain ⟨⟨calls, same⟩, error, count⟩ := ih kept error fun first _ kind t member running =>
      absurd running (quiet kind t member)
    refine ⟨⟨callsOf workerID c turn ++ calls, ?_⟩, error, ?_⟩
    · rw [after_append, ← takeTurn_eq]
      exact same
    · rw [takeTurns, List.foldl_cons, ← takeTurns, count, fewer, List.length_cons]
      omega

end Turns

/-- From every state a job can be in short of failure, one worker that is left
alone finishes it, in as many turns as tasks are not done, once the attempts of
the others are overdue. Then it is told to exit. -/
theorem lone_worker_finishes (cfg : Config) (groups : List (List GoString)) (now : Time) (calls : List Call)
    (workerID : WorkerId) (turns : List Turn) (nonempty : 0 < groups.length + cfg.numReducers)
    (healthy : (after serve (new cfg groups now) calls).err = none)
    (overdue : ∀ first ∈ turns.head?, Overdue (after serve (new cfg groups now) calls) first.request.reclaim) :
    let c := after serve (new cfg groups now) calls
    let last := takeTurns workerID c turns
    last.err = none ∧ unfinished last = unfinished c - turns.length ∧
      (unfinished c ≤ turns.length → AllDone last ∧ last.doneClosed ∧
        ∀ clock, (last.requestTask workerID clock).1.kind = .exit) := by
  intro c last
  have indexed : Indexed groups c := .after_run cfg groups now calls
  obtain ⟨⟨rest, same⟩, error, count⟩ := takeTurns_progress indexed healthy workerID turns overdue
  refine ⟨error, count, fun enough => ?_⟩
  have reached : last = after serve (new cfg groups now) (calls ++ rest) := by
    rw [after_append]
    exact same
  have settled : Settled last := by
    rw [reached]
    exact settled_after cfg groups now nonempty _
  have done : AllDone last := by
    rw [← unfinished_eq_zero]
    change unfinished last = _ at count
    omega
  have closed := settled.complete done
  refine ⟨done, settled.closed_iff.mpr closed, fun clock => ?_⟩
  have kept : Indexed groups last := by
    rw [reached]
    exact .after_run cfg groups now _
  have still := settled.closed_kept closed (.requestTask workerID clock)
  simp only [verdict, Prod.mk.injEq] at still
  exact (settled.exit_iff kept workerID clock).mpr ((settled.kept (.requestTask workerID clock)).closed_iff.mpr
    (still.2.2.2.trans closed))

/-- The first worker took the map task and was not heard of again. -/
theorem lone_worker_finishes_takeover :
    let last := takeTurns "worker-2" (after serve (new oneOfEach [[]] 0)
      [.register "host" 0, .register "host" 0, .requestTask "worker-1" (always 0)]) [⟨always 200, always 200, ∅, 0⟩,
        ⟨always 201, always 202, ∅, 0⟩]
    AllDone last ∧ last.doneClosed := by
  have finishes := lone_worker_finishes oneOfEach [[]] 0
    [.register "host" 0, .register "host" 0, .requestTask "worker-1" (always 0)] "worker-2"
    [⟨always 200, always 200, ∅, 0⟩, ⟨always 201, always 202, ∅, 0⟩] (by decide) rfl ?_
  · obtain ⟨_, _, done⟩ := finishes
    have all := done (by decide)
    exact ⟨all.1, all.2.1⟩
  · rintro _ ⟨⟩ kind t member running
    cases kind with
    | map =>
      cases List.mem_singleton.mp member
      decide
    | reduce =>
      cases List.mem_singleton.mp member
      cases running
    | none | exit | unknown _ => cases member

end FromScratch.Proofs.LoneWorker
