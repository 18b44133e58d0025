import FromScratch.Proofs.AttemptBookkeeping
import FromScratch.Proofs.WorkerRegistry

/-! Who is presumed lost, and what that costs. The silence of a worker is judged
at the sweeps, and one that calls in often enough keeps its tasks. -/

namespace FromScratch.Proofs.FailureDetector
open FromScratch.MapReduce Coordinator Lib Machine CoordinatorSteps TaskLifecycle Acceptance JobOutcome AttemptBookkeeping
open WorkerRegistry

/-- Some sweep came too long after the last the run had seen of the worker, and
nothing has been seen of it since. -/
def Silent (timeout : Duration) (id : WorkerId) (run : List Event) : Prop :=
  ∃ earlier e later now seen, run = earlier ++ e :: later ∧ sweep e = some now ∧
    ((earlier ++ [e]).filterMap (seenAt id)).getLast? = some seen ∧ timeout < now - seen ∧
    ∀ next ∈ later, seenAt id next = none

theorem silent_concat (timeout : Duration) (id : WorkerId) (run : List Event) (e : Event) :
    Silent timeout id (run ++ [e]) ↔ (∃ now seen, sweep e = some now ∧
      ((run ++ [e]).filterMap (seenAt id)).getLast? = some seen ∧ timeout < now - seen) ∨
      Silent timeout id run ∧ seenAt id e = none := by
  constructor
  · rintro ⟨earlier, middle, later, now, seen, cut, swept, last, long, quiet⟩
    rcases List.eq_nil_or_concat later with rfl | ⟨later, last', rfl⟩
    · obtain ⟨rfl, same⟩ := List.append_inj' cut rfl
      cases same
      exact .inl ⟨now, seen, swept, last, long⟩
    · rw [List.concat_eq_append, ← List.cons_append, ← List.append_assoc] at cut
      obtain ⟨rfl, same⟩ := List.append_inj' cut rfl
      cases same
      rw [List.concat_eq_append] at quiet
      exact .inr ⟨⟨earlier, middle, later, now, seen, rfl, swept, last, long,
        fun next member => quiet next (List.mem_append_left _ member)⟩,
          quiet e (List.mem_append_right _ (List.mem_singleton_self _))⟩
  · rintro (⟨now, seen, swept, last, long⟩ | ⟨⟨earlier, middle, later, now, seen, rfl, swept, last, long, quiet⟩, silent⟩)
    · exact ⟨run, e, [], now, seen, rfl, swept, last, long, fun _ member => by cases member⟩
    · refine ⟨earlier, middle, later ++ [e], now, seen, by simp, swept, last, long, fun next member => ?_⟩
      rcases List.mem_append.mp member with old | new
      · exact quiet next old
      · cases List.mem_singleton.mp new
        exact silent

@[simp] theorem dismiss_alive (w : Worker) (told : Bool) : (dismiss w told).alive = w.alive := by cases told <;> rfl

theorem greet_alive (w : Worker) (met : Option Time) : (greet w met).alive = (w.alive || met.isSome) := by
  cases met <;> simp [greet]

theorem expire_alive (timeout : Duration) (w : Worker) (now : Option Time) : (expire timeout w now).alive = false ↔
    w.alive = false ∨ ∃ reading, now = some reading ∧ timeout < reading - w.lastSeen := by
  cases now with
  | none => simp [expire]
  | some reading =>
    simp only [expire, Option.some.injEq, exists_eq_left']
    cases alive : w.alive with
    | false => simp [alive]
    | true =>
      by_cases long : timeout < reading - w.lastSeen
      · simp [long]
      · simp [alive, long]

section Runs
variable (cfg : Config) (groups : List (List GoString)) (now : Time)

/-- A registered worker is presumed lost exactly when some sweep found it silent
for longer than the worker timeout and it has not been heard of since. -/
theorem presumed_lost_iff (calls : List Call) (id : WorkerId) (w : Worker)
    (known : (after serve (new cfg groups now) calls).workers.lookup id = some w) :
    w.alive = false ↔ Silent cfg.workerTimeout id (history serve (new cfg groups now) calls) := by
  induction calls using List.reverseRecOn generalizing w with
  | nil => cases known
  | append_singleton calls call ih =>
    have registry := registry_after cfg groups now calls
    have indexed := Indexed.after_run cfg groups now calls
    have recorded := (registry_after cfg groups now (calls ++ [call])).known id w known
    rw [after_concat] at known
    rw [history_concat] at recorded ⊢
    rw [silent_concat, recorded.seen]
    by_cases joins : ∃ host reading, call = .register host reading ∧
        id = workerName ((after serve (new cfg groups now) calls).nextID + 1)
    · obtain ⟨host, reading, rfl, rfl⟩ := joins
      rw [register_lookup] at known
      cases known
      simp [register_seenAt, show sweep (event serve (after serve (new cfg groups now) calls) (.register host reading)) =
        none from rfl]
    · have follows := serve_follow indexed call id fun host reading same name => joins ⟨host, reading, same, name⟩
      have kept : seenAt id (event serve (after serve (new cfg groups now) calls) call) = contact id call := by
        cases call with
        | register host reading =>
          rw [register_seenAt, if_neg fun name => joins ⟨host, reading, rfl, name.symm⟩]
          rfl
        | heartbeat | reclaim | requestTask | reportTask => rfl
      rw [follows, Option.map_eq_some_iff] at known
      obtain ⟨u, before, rfl⟩ := known
      rw [kept, ← ih u before, config_after]
      simp only [follow, dismiss_alive, expire_alive, greet_alive, Bool.or_eq_false_iff, dismiss_lastSeen, expire_lastSeen,
        Option.some.injEq, Option.isSome_eq_false_iff, Option.isNone_iff_eq_none, event,
        exists_and_left, exists_eq_left']
      rw [or_comm]

end Runs

private def slowMap : Config := { oneOfEach with numReducers := 0, taskTimeout := 1000 }

private def startMap : List Call := [.register "host" 0, .register "host" 0, .requestTask "worker-1" (always 0)]

private def slowWorker : Worker := { id := "worker-1", host := "host", lastSeen := 0, alive := true }

/-- Nothing is heard of the first worker for 120 ticks. -/
theorem presumed_lost_silent :
    Silent 50 "worker-1" (history serve (new slowMap [[]] 0) (startMap ++ [.heartbeat "worker-2" 100, .reclaim 120])) :=
  (presumed_lost_iff slowMap [[]] 0 _ "worker-1" { slowWorker with alive := false } rfl).mp rfl

/-- No sweep comes longer than the timeout after the worker's last call. -/
def Punctual (timeout : Duration) (id : WorkerId) : Time → List Event → Prop
  | _, [] => True
  | seen, e :: rest =>
    (∀ now, sweep e = some now → now - (contact id e.input).getD seen ≤ timeout) ∧
      Punctual timeout id ((contact id e.input).getD seen) rest

section Held
variable {c : Coordinator} {id : WorkerId} {number : Int} {kind : TaskKind} {i : Nat} {t : Task}

/-- The worker still has the attempt, or the task is done. -/
def Keeps (id : WorkerId) (number : Int) (started : Time) (t : Task) : Prop :=
  t.state = .done ∨ t.state = .running ∧ t.started = started ∧ t.workers.lookup id = some number

theorem reclaimTask_keeps {cfg : Config} {workers : FiniteMap WorkerId Worker} {now : Time}
    (alive : isAlive workers id = true)
    (timely : now - t.started ≤ cfg.taskTimeout) (running : t.state = .running) (held : t.workers.lookup id = some number) :
    (reclaimTask cfg workers now t).state = .running ∧ (reclaimTask cfg workers now t).started = t.started ∧
      (reclaimTask cfg workers now t).workers.lookup id = some number := by
  have live : (liveAttempts workers t).lookup id = some number := by
    rw [liveAttempts, FiniteMap.lookup_keepKeys, if_pos alive, held]
  have occupied : (liveAttempts workers t).keys ≠ [] := by
    intro empty
    rw [(FiniteMap.keys_eq_nil_iff _).mp empty id] at live
    cases live
  have kept : reclaims cfg workers now t = false := by
    simp only [reclaims, running, beq_self_eq_true, Bool.true_and, Bool.or_eq_false_iff, beq_eq_false_iff_ne, ne_eq,
      List.length_eq_zero_iff, decide_eq_false_iff_not]
    exact ⟨occupied, Int.not_lt.mpr timely⟩
  rw [reclaimTask, if_neg (by simp [running]), kept]
  exact ⟨running, rfl, live⟩

private theorem stays_alive {w : Worker} {now : Time} (known : c.workers.lookup id = some w) (alive : w.alive = true)
    (recent : now - w.lastSeen ≤ c.cfg.workerTimeout) : isAlive (c.expireWorkers now) id = true := by
  have expired : (c.expireWorkers now).lookup id = some (c.expireWorker now w) := by
    rw [expireWorkers, FiniteMap.lookup_mapValues, known]
    rfl
  have kept : c.expireWorker now w = w := by
    simp only [expireWorker, alive, Bool.true_and, decide_eq_true_eq, if_neg (Int.not_lt.mpr recent)]
  rw [isAlive, expired, kept]
  exact alive

/-- What the worker has to see to in one call to keep its attempt through it. -/
structure Safe (c : Coordinator) (call : Call) (id : WorkerId) (w : Worker) (started : Time) (kind : TaskKind) (i : Nat) :
    Prop where
  known : c.workers.lookup id = some w
  alive : w.alive = true
  recent : ∀ now, sweep (event serve c call) = some now → now - (contact id call).getD w.lastSeen ≤ c.cfg.workerTimeout
  timely : ∀ now, sweep (event serve c call) = some now → now - started ≤ c.cfg.taskTimeout
  unfailed : ∀ args, failureReport (event serve c call) = some args → ¬ Concerns args kind i

theorem Safe.reported {args : ReportTaskArgs} {clock : Readings} {w : Worker} {started : Time}
    (safe : Safe c (.reportTask args clock) id w started kind i) (found : (c.tasks kind)[i]? = some t)
    (keeps : Keeps id number started t) :
    ∃ t', ((c.serve (.reportTask args clock)).2.tasks kind)[i]? = some t' ∧ Keeps id number started t' := by
  obtain ⟨t', after, step⟩ := serve_step (.reportTask args clock) found
  refine ⟨t', after, ?_⟩
  generalize (c.serve (.reportTask args clock)).1 = reply at step
  cases step with
  | kept => exact keeps
  | reclaimed _ _ silent => exact absurd rfl (silent args clock)
  | accepted => exact .inl rfl
  | failed concerns _ failure =>
    refine absurd concerns (safe.unfailed args ?_)
    simp [failureReport, event, failure]

theorem Safe.requested {workerID : WorkerId} {clock : Readings} {w : Worker} {started : Time}
    (safe : Safe c (.requestTask workerID clock) id w started kind i) (found : (c.tasks kind)[i]? = some t)
    (keeps : Keeps id number started t) :
    ∃ t', ((c.serve (.requestTask workerID clock)).2.tasks kind)[i]? = some t' ∧ Keeps id number started t' := by
  have outcome := requestTask_cases c workerID clock
  have reclaimed (healthy : c.jobErr = none) : Keeps id number started (reclaimTask c.cfg
      ((c.touch workerID clock.seen).expireWorkers clock.reclaim) clock.reclaim t) := by
    rcases keeps with done | ⟨running, rfl, held⟩
    · exact .inl ((reclaimTask_done ..).mpr done)
    have swept : sweep (event serve c (.requestTask workerID clock)) = some clock.reclaim := by
      simp [sweep, event, healthy]
    refine .inr (reclaimTask_keeps ?_ (safe.timely _ swept) running held)
    refine stays_alive (w := greet w (contact id (.requestTask workerID clock))) ?_ ?_ ?_
    · rw [touch_lookup, safe.known]
      rfl
    · rw [greet_alive, safe.alive, Bool.true_or]
    · rw [greet_lastSeen, touch_cfg]
      exact safe.recent _ swept
  simp only [serve]
  generalize (c.requestTask workerID clock).1 = reply at outcome
  generalize (c.requestTask workerID clock).2 = last at outcome ⊢
  cases outcome with
  | aborted => exact ⟨t, by simpa using found, keeps⟩
  | waiting healthy opened => exact ⟨_, opened_task opened found, reclaimed healthy⟩
  | finished healthy opened => exact ⟨_, by simpa using opened_task opened found, reclaimed healthy⟩
  | @handed served base j u backup healthy opened chosen free =>
    have swept := opened_task opened found
    rw [handOut_tasks]
    by_cases same : kind = served ∧ i = j
    · obtain ⟨rfl, rfl⟩ := same
      obtain rfl := Option.some.inj (swept.symm.trans chosen)
      have inside := (List.getElem?_eq_some_iff.mp chosen).1
      refine ⟨_, by rw [if_pos rfl, List.getElem?_set_self inside], ?_⟩
      rcases reclaimed healthy with done | ⟨running, start, held⟩
      · exact absurd done free.state_ne_done
      refine .inr ⟨rfl, ?_, ?_⟩
      · simp [handed, assigned, running, start]
      · -- a backup goes to a worker that does not hold the task
        have other : id ≠ workerID := by
          rintro rfl
          cases free with
          | idle idle => rw [running] at idle; cases idle
          | straggler _ _ other => exact other ((FiniteMap.mem_iff_lookup _ _).mpr ⟨number, held⟩)
        simp only [handed, assigned, FiniteMap.lookup_insert_eq, if_neg other]
        exact held
    · refine ⟨_, ?_, reclaimed healthy⟩
      split
      next sameKind =>
        subst sameKind
        rw [List.getElem?_set_ne fun position => same ⟨rfl, position.symm⟩]
        exact swept
      next => exact swept

theorem Safe.keeps {call : Call} {w : Worker} {started : Time} (safe : Safe c call id w started kind i)
    (found : (c.tasks kind)[i]? = some t) (keeps : Keeps id number started t) :
    ∃ t', ((c.serve call).2.tasks kind)[i]? = some t' ∧ Keeps id number started t' := by
  cases call with
  | register host now => exact ⟨t, by cases kind <;> exact found, keeps⟩
  | heartbeat workerID now => exact ⟨t, by simpa [serve, heartbeat] using found, keeps⟩
  | requestTask workerID clock => exact safe.requested found keeps
  | reportTask args clock => exact safe.reported found keeps
  | reclaim now =>
    refine ⟨reclaimTask c.cfg (c.expireWorkers now) now t, by simp [serve, found], ?_⟩
    rcases keeps with done | ⟨running, rfl, held⟩
    · exact .inl ((reclaimTask_done ..).mpr done)
    · exact .inr (reclaimTask_keeps (stays_alive safe.known safe.alive (safe.recent now rfl))
        (safe.timely now rfl) running held)

/-- Nothing an event holds against the attempt: its task is not overdue at a
sweep, and nobody reports it failed. -/
def Clear (timeout : Duration) (started : Time) (kind : TaskKind) (i : Nat) (e : Event) : Prop :=
  (∀ now, sweep e = some now → now - started ≤ timeout) ∧ ∀ args, failureReport e = some args → ¬ Concerns args kind i

theorem keeps_run {groups : List (List GoString)} {run : List Event} {later : List Call} {w : Worker} {started : Time}
    (registry : Registry run c) (indexed : Indexed groups c) (known : c.workers.lookup id = some w) (alive : w.alive = true)
    (punctual : Punctual c.cfg.workerTimeout id w.lastSeen (history serve c later))
    (found : (c.tasks kind)[i]? = some t) (keeps : Keeps id number started t)
    (clear : ∀ e ∈ history serve c later, Clear c.cfg.taskTimeout started kind i e) :
    isAlive (after serve c later).workers id = true ∧
      ∃ t', ((after serve c later).tasks kind)[i]? = some t' ∧ Keeps id number started t' := by
  induction later generalizing c w t run with
  | nil => exact ⟨by rw [isAlive, after_nil, known]; exact alive, t, found, keeps⟩
  | cons call later ih =>
    obtain ⟨recent, punctual⟩ := punctual
    obtain ⟨timely, unfailed⟩ := clear _ List.mem_cons_self
    obtain ⟨t', found, keeps⟩ :=
      (⟨known, alive, recent, timely, unfailed⟩ : Safe c call id w started kind i).keeps found keeps
    have fresh : ∀ host reading, call = .register host reading → id ≠ workerName (c.nextID + 1) := by
      rintro host reading rfl rfl
      exact registry.fresh (registry.known _ w known).registered
    have next : (c.serve call).2.workers.lookup id = some (follow c.cfg.workerTimeout id w (event serve c call)) := by
      rw [serve_follow indexed call id fresh, known]
      rfl
    have seen : (follow c.cfg.workerTimeout id w (event serve c call)).lastSeen = (contact id call).getD w.lastSeen := by
      simp [follow, event]
    have awake : (follow c.cfg.workerTimeout id w (event serve c call)).alive = true := by
      rw [← Bool.not_eq_false, follow, dismiss_alive, expire_alive, greet_alive, alive, Bool.true_or]
      rintro (impossible | ⟨reading, swept, long⟩)
      · cases impossible
      · rw [greet_lastSeen] at long
        exact absurd long (Int.not_lt.mpr (recent reading swept))
    have config := serve_cfg c call
    refine ih (registry.kept indexed call) (indexed.serve call) next awake ?_ found keeps fun e member => ?_
    · rw [config, seen]
      exact punctual
    · rw [config]
      exact clear e (List.mem_cons_of_mem _ member)

end Held

/-- A worker that calls in often enough is never presumed lost, and keeps its
attempt until somebody's report is accepted, for as long as the task has not
timed out and nobody reports it failed. -/
theorem punctual_keeps_task (cfg : Config) (groups : List (List GoString)) (now : Time) (calls later : List Call)
    {id : WorkerId} {w : Worker} {kind : TaskKind} {i : Nat} {t : Task} {number : Int}
    (known : (after serve (new cfg groups now) calls).workers.lookup id = some w) (alive : w.alive = true)
    (punctual : Punctual cfg.workerTimeout id w.lastSeen (history serve (after serve (new cfg groups now) calls) later))
    (found : ((after serve (new cfg groups now) calls).tasks kind)[i]? = some t) (running : t.state = .running)
    (held : t.workers.lookup id = some number)
    (clear : ∀ e ∈ history serve (after serve (new cfg groups now) calls) later, Clear cfg.taskTimeout t.started kind i e) :
    isAlive (after serve (new cfg groups now) (calls ++ later)).workers id = true ∧
      ∃ t', ((after serve (new cfg groups now) (calls ++ later)).tasks kind)[i]? = some t' ∧
        Keeps id number t.started t' := by
  have config := config_after cfg groups now calls
  rw [after_append]
  exact keeps_run (registry_after cfg groups now calls) (.after_run cfg groups now calls) known alive
    (by rw [config]; exact punctual) found (.inr ⟨running, rfl, held⟩) (by rw [config]; exact clear)

/-- Past the worker timeout, with heartbeats in between, while another worker keeps asking. -/
private def slowly : List Call :=
  [.heartbeat "worker-1" 40, .requestTask "worker-2" (always 60), .heartbeat "worker-1" 80, .reclaim 120]

private def slowTask : Task where
  id := 0
  kind := .map
  state := .running
  attempt := 1
  workers := (∅ : FiniteMap WorkerId Int).insert "worker-1" 1

theorem punctual_keeps_slow_task :
    isAlive (after serve (new slowMap [[]] 0) (startMap ++ slowly)).workers "worker-1" = true := by
  have found : ((after serve (new slowMap [[]] 0) startMap).tasks .map)[0]? = some slowTask := rfl
  have held : slowTask.workers.lookup "worker-1" = some 1 := rfl
  have known : (after serve (new slowMap [[]] 0) startMap).workers.lookup "worker-1" = some slowWorker := rfl
  refine (punctual_keeps_task slowMap [[]] 0 startMap slowly known rfl ?_ found rfl held ?_).1
  · refine ⟨?_, ?_, ?_, ?_, trivial⟩
    all_goals
      intro reading swept
      cases swept
      try decide
  · intro e member
    simp only [slowly, history, List.mem_cons, List.not_mem_nil, or_false] at member
    rcases member with rfl | rfl | rfl | rfl
    all_goals
      refine ⟨fun reading swept => ?_, fun args failure => (by cases failure)⟩
      cases swept
      try decide

end FromScratch.Proofs.FailureDetector
