import FromScratch.Proofs.AttemptBookkeeping

/-! The attempts of a task. Each hand-out is a new attempt with the next number,
and the table of holders is a part of that ledger. -/

namespace FromScratch.Proofs.AttemptLedger
open FromScratch.MapReduce Coordinator Lib Machine CoordinatorSteps TaskLifecycle Acceptance AttemptBookkeeping

/-- The attempt at the task that the event starts. -/
def issued (kind : TaskKind) (id : Int) (e : Event) : Option Assignment :=
  (assignment e).filter fun issue => issue.kind == kind && issue.taskID == id

/-- The attempts at the task so far, in the order they were started. -/
def attempts (kind : TaskKind) (id : Int) (run : List Event) : List Assignment := run.filterMap (issued kind id)

theorem assignment_handed {groups : List (List GoString)} {c base : Coordinator} (indexed : Indexed groups c)
    {workerID : WorkerId} {clock : Readings} {kind : TaskKind} {i : Nat} {t : Task}
    (opened : Opened c workerID clock kind base) (found : (base.tasks kind)[i]? = some t) (e : Event)
    (input : e.input = .requestTask workerID clock) (output : e.output = .task (handReply base t)) :
    assignment e = some ⟨workerID, kind, i, t.attempt + 1⟩ := by
  obtain ⟨u, origin, rfl⟩ := opened_task_back opened found
  obtain ⟨id, sameKind⟩ := indexed.tasks kind i u origin
  simp only [assignment, input, output, handReply, reclaimTask_identity, id, sameKind]
  cases opened <;> rfl

/-- A worker's entry in the table of holders is one it had before. -/
def Fewer (t t' : Task) : Prop :=
  ∀ workerID number, t'.workers.lookup workerID = some number → t.workers.lookup workerID = some number

theorem reclaimTask_fewer (cfg : Config) (workers : FiniteMap WorkerId Worker) (now : Time) (t : Task) :
    Fewer t (reclaimTask cfg workers now t) := by
  intro workerID number held
  unfold reclaimTask at held
  split at held
  · exact held
  · split at held
    · cases held
    · simp only [liveAttempts, FiniteMap.lookup_keepKeys] at held
      split at held
      · exact held
      · cases held

/-- One call and one task: either no attempt at it starts, and nobody new holds
it, or the next attempt starts, and its worker holds it under that number. -/
inductive Entered (kind : TaskKind) (i : Nat) (t t' : Task) : Option Assignment → Prop
  | quiet (attempt : t'.attempt = t.attempt) (held : Fewer t t') : Entered kind i t t' none
  | next (workerID : WorkerId) (attempt : t'.attempt = t.attempt + 1)
      (held : ∀ other number, t'.workers.lookup other = some number →
        if other = workerID then number = t.attempt + 1 else t.workers.lookup other = some number) :
      Entered kind i t t' (some ⟨workerID, kind, i, t.attempt + 1⟩)

private theorem unassigned {e : Event} (silent : assignment e = none) (kind : TaskKind) (id : Int) :
    issued kind id e = none := by
  rw [issued, silent]
  rfl

private theorem request_entered {groups : List (List GoString)} {c : Coordinator} (indexed : Indexed groups c)
    (workerID : WorkerId) (clock : Readings) {kind : TaskKind} {i : Nat} {t : Task}
    (found : (c.tasks kind)[i]? = some t) :
    ∃ t', ((c.serve (.requestTask workerID clock)).2.tasks kind)[i]? = some t' ∧
      Entered kind i t t' (issued kind i (event serve c (.requestTask workerID clock))) := by
  have reclaimed : Entered kind i t (reclaimTask c.cfg ((c.touch workerID clock.seen).expireWorkers clock.reclaim)
      clock.reclaim t) none := .quiet (reclaimTask_identity ..).2.2.2.2 (reclaimTask_fewer _ _ _ _)
  have outcome := requestTask_cases c workerID clock
  simp only [event, serve]
  generalize (c.requestTask workerID clock).1 = reply at outcome ⊢
  generalize (c.requestTask workerID clock).2 = last at outcome ⊢
  cases outcome with
  | aborted =>
    rw [unassigned rfl]
    exact ⟨t, by simpa using found, .quiet rfl fun _ _ held => held⟩
  | waiting _ opened =>
    rw [unassigned rfl]
    exact ⟨_, opened_task opened found, reclaimed⟩
  | finished _ opened =>
    rw [unassigned rfl]
    exact ⟨_, by simpa using opened_task opened found, reclaimed⟩
  | @handed served base j u backup _ opened chosen free =>
    have swept := opened_task opened found
    have entry := assignment_handed indexed opened chosen ⟨c, .requestTask workerID clock, .task (handReply base u),
      handOut base served j u backup workerID clock.assign⟩ rfl rfl
    rw [issued, entry, handOut_tasks]
    by_cases same : kind = served ∧ i = j
    · obtain ⟨rfl, rfl⟩ := same
      obtain rfl := Option.some.inj (swept.symm.trans chosen)
      have inside := (List.getElem?_eq_some_iff.mp chosen).1
      refine ⟨_, by rw [if_pos rfl, List.getElem?_set_self inside], ?_⟩
      simp only [Option.filter_some, beq_self_eq_true, Bool.and_self, if_true]
      rw [(reclaimTask_identity ..).2.2.2.2]
      refine .next workerID ?_ fun other number held => ?_
      · simp [handed, assigned, reclaimTask_identity]
      · simp only [handed, assigned, FiniteMap.lookup_insert_eq, (reclaimTask_identity ..).2.2.2.2] at held
        split at held
        next same => rw [if_pos same]; exact (Option.some.inj held).symm
        next different => rw [if_neg different]; exact reclaimTask_fewer _ _ _ _ _ _ held
    · have elsewhere : (served == kind && (j : Int) == (i : Int)) = false := by
        rw [Bool.and_eq_false_iff, beq_eq_false_iff_ne, beq_eq_false_iff_ne]
        by_cases sameKind : served = kind
        · exact .inr fun position => same ⟨sameKind.symm, by omega⟩
        · exact .inl sameKind
      rw [Option.filter_some, elsewhere]
      refine ⟨_, ?_, reclaimed⟩
      split
      next sameKind =>
        subst sameKind
        rw [List.getElem?_set_ne fun position => same ⟨rfl, position.symm⟩]
        exact swept
      next => exact swept

/-- What one call does to the attempts at one task. -/
theorem serve_entered {groups : List (List GoString)} {c : Coordinator} (indexed : Indexed groups c) (call : Call)
    {kind : TaskKind} {i : Nat} {t : Task} (found : (c.tasks kind)[i]? = some t) :
    ∃ t', ((c.serve call).2.tasks kind)[i]? = some t' ∧ Entered kind i t t' (issued kind i (event serve c call)) := by
  cases request : call with
  | requestTask workerID clock => exact request_entered indexed workerID clock found
  | register | heartbeat | reclaim | reportTask =>
    rw [unassigned (by simp only [assignment, event])]
    obtain ⟨t', after, step⟩ := serve_step call found
    rw [request] at after
    refine ⟨t', after, ?_⟩
    generalize (c.serve call).1 = reply at step
    cases step with
    | kept => exact .quiet rfl fun _ _ held => held
    | reclaimed => exact .quiet (reclaimTask_identity ..).2.2.2.2 (reclaimTask_fewer _ _ _ _)
    | handed => cases request
    | accepted => exact .quiet rfl fun _ _ held => held
    | failed =>
      refine .quiet rfl fun other number held => ?_
      simp only [failedTask, FiniteMap.lookup_erase_eq] at held
      split at held
      · cases held
      · exact held

/-- The ledger agrees with the table: the numbers of the attempts count up from
one, the task holds the last of them, and whoever is on record for the task is
there with the last attempt it was given. -/
structure Agrees (kind : TaskKind) (i : Nat) (ledger : List Assignment) (t : Task) : Prop where
  count : t.attempt = ledger.length
  numbers : ∀ (k : Nat) (issue : Assignment), ledger[k]? = some issue →
    issue.kind = kind ∧ issue.taskID = i ∧ issue.attempt = k + 1
  held : ∀ workerID number, t.workers.lookup workerID = some number →
    (∃ issue ∈ ledger, issue.workerID = workerID ∧ issue.attempt = number) ∧
      ∀ issue ∈ ledger, issue.workerID = workerID → issue.attempt ≤ number

theorem Agrees.entered {kind : TaskKind} {i : Nat} {ledger : List Assignment} {t t' : Task} {entry : Option Assignment}
    (agrees : Agrees kind i ledger t) (entered : Entered kind i t t' entry) :
    Agrees kind i (ledger ++ entry.toList) t' := by
  cases entered with
  | quiet attempt held =>
    rw [Option.toList_none, List.append_nil]
    exact ⟨attempt.trans agrees.count, agrees.numbers, fun workerID number kept => agrees.held _ _ (held _ _ kept)⟩
  | next workerID attempt held =>
    rw [Option.toList_some]
    have count := agrees.count
    refine ⟨?_, fun k issue listed => ?_, fun other number kept => ?_⟩
    · rw [attempt, count, List.length_append, List.length_singleton]
      push_cast
      rfl
    · rcases Nat.lt_trichotomy k ledger.length with earlier | same | later
      · rw [List.getElem?_append_left earlier] at listed
        exact agrees.numbers k issue listed
      · subst same
        rw [List.getElem?_concat_length] at listed
        cases listed
        exact ⟨rfl, rfl, by rw [count]⟩
      · rw [List.getElem?_eq_none (by simp only [List.length_append, List.length_singleton]; omega)] at listed
        cases listed
    · have found := held other number kept
      split at found
      next same =>
        subst same found
        refine ⟨⟨_, List.mem_append_right _ (List.mem_singleton_self _), rfl, rfl⟩, fun issue listed _ => ?_⟩
        rcases List.mem_append.mp listed with old | new
        · obtain ⟨k, listed⟩ := List.mem_iff_getElem?.mp old
          have inside := (List.getElem?_eq_some_iff.mp listed).1
          have := (agrees.numbers k issue listed).2.2
          omega
        · cases List.mem_singleton.mp new
          exact Int.le_refl _
      next different =>
        obtain ⟨⟨issue, listed, names⟩, last⟩ := agrees.held other number found
        refine ⟨⟨issue, List.mem_append_left _ listed, names⟩, fun issue listed same => ?_⟩
        rcases List.mem_append.mp listed with old | new
        · exact last issue old same
        · cases List.mem_singleton.mp new
          exact absurd same.symm different

theorem initial_task {cfg : Config} {groups : List (List GoString)} {now : Time} {kind : TaskKind} {i : Nat} {t : Task}
    (found : ((new cfg groups now).tasks kind)[i]? = some t) :
    t.state = .idle ∧ t.attempt = 0 ∧ t.workers = ∅ ∧ t.backup = false := by
  cases kind with
  | map =>
    simp only [tasks_map, new, List.getElem?_mapIdx, Option.map_eq_some_iff] at found
    obtain ⟨_, _, rfl⟩ := found
    exact ⟨rfl, rfl, rfl, rfl⟩
  | reduce =>
    simp only [tasks_reduce, new, List.getElem?_map, Option.map_eq_some_iff] at found
    obtain ⟨_, _, rfl⟩ := found
    exact ⟨rfl, rfl, rfl, rfl⟩
  | none | exit | unknown _ => simp [Coordinator.tasks] at found

section Runs
variable (cfg : Config) (groups : List (List GoString)) (now : Time)

theorem attempts_agree (calls : List Call) {kind : TaskKind} {i : Nat} {t : Task}
    (found : ((after serve (new cfg groups now) calls).tasks kind)[i]? = some t) :
    Agrees kind i (attempts kind i (history serve (new cfg groups now) calls)) t := by
  induction calls using List.reverseRecOn generalizing t with
  | nil =>
    obtain ⟨_, attempt, workers, _⟩ := initial_task found
    refine ⟨attempt, fun k issue listed => (by cases listed), fun workerID number held => ?_⟩
    rw [workers] at held
    cases held
  | append_singleton calls call ih =>
    rw [after_concat] at found
    obtain ⟨u, before, _⟩ := serve_step_back found
    obtain ⟨t', there, entered⟩ := serve_entered (.after_run cfg groups now calls) call before
    cases found.symm.trans there
    rw [history_concat, attempts, List.filterMap_append]
    have step := (ih before).entered entered
    rwa [show [event serve (after serve (new cfg groups now) calls) call].filterMap (issued kind i) =
      (issued kind i (event serve (after serve (new cfg groups now) calls) call)).toList from by
        cases made : issued kind i (event serve (after serve (new cfg groups now) calls) call) <;> simp [made]]

/-- What a call hands out is the next attempt at a task of the table. -/
theorem assignment_next {c : Coordinator} (indexed : Indexed groups c) {call : Call} {issue : Assignment}
    (made : assignment (event serve c call) = some issue) :
    ∃ (i : Nat) (t : Task), issue.taskID = i ∧ (c.tasks issue.kind)[i]? = some t ∧ issue.attempt = t.attempt + 1 := by
  cases call with
  | register | heartbeat | reclaim | reportTask => cases made
  | requestTask workerID clock =>
    have outcome := requestTask_cases c workerID clock
    simp only [event, serve] at made
    generalize (c.requestTask workerID clock).1 = reply at outcome made
    generalize (c.requestTask workerID clock).2 = last at outcome made
    cases outcome with
    | aborted | waiting | finished => cases made
    | @handed kind base i t backup _ opened found free =>
      rw [assignment_handed indexed opened found _ rfl rfl] at made
      cases made
      obtain ⟨u, origin, rfl⟩ := opened_task_back opened found
      exact ⟨i, u, rfl, origin, by rw [(reclaimTask_identity ..).2.2.2.2]⟩

/-- In every run the attempts at each task are numbered from one in the order
they are handed out, the task's count is the number of them, and its holders are
workers with the last attempt they were given. So no attempt is handed out twice. -/
theorem attempts_numbered (calls : List Call) :
    (∀ (kind : TaskKind) (i : Nat) (t : Task), ((after serve (new cfg groups now) calls).tasks kind)[i]? = some t →
      Agrees kind i (attempts kind i (history serve (new cfg groups now) calls)) t) ∧
    (((history serve (new cfg groups now) calls).filterMap assignment).map fun issue =>
      (issue.kind, issue.taskID, issue.attempt)).Nodup := by
  refine ⟨fun kind i t => attempts_agree cfg groups now calls, ?_⟩
  induction calls using List.reverseRecOn with
  | nil => exact List.nodup_nil
  | append_singleton calls call ih =>
    rw [history_concat, List.filterMap_append, List.map_append, List.nodup_append]
    refine ⟨ih, ?_, ?_⟩
    · cases made : assignment (event serve (after serve (new cfg groups now) calls) call) <;> simp [made]
    intro old earlier new later same
    subst same
    cases made : assignment (event serve (after serve (new cfg groups now) calls) call) with
    | none => simp [made] at later
    | some issue =>
      obtain ⟨i, t, position, found, next⟩ := assignment_next groups (.after_run cfg groups now calls) made
      simp only [made, List.filterMap_cons, List.filterMap_nil, List.map_cons, List.map_nil, List.mem_singleton] at later
      obtain ⟨twin, listed, names⟩ := List.mem_map.mp earlier
      obtain ⟨e, inside, given⟩ := List.mem_filterMap.mp listed
      rw [later] at names
      simp only [Prod.mk.injEq] at names
      obtain ⟨sameKind, sameTask, sameNumber⟩ := names
      have agrees := attempts_agree cfg groups now calls found
      have member : twin ∈ attempts issue.kind i (history serve (new cfg groups now) calls) := by
        refine List.mem_filterMap.mpr ⟨e, inside, ?_⟩
        rw [issued, given, Option.filter_some, if_pos]
        simp [sameKind, sameTask, position]
      obtain ⟨k, there⟩ := List.mem_iff_getElem?.mp member
      have early := (List.getElem?_eq_some_iff.mp there).1
      have number := (agrees.numbers k twin there).2.2
      have count := agrees.count
      omega

end Runs

end FromScratch.Proofs.AttemptLedger
