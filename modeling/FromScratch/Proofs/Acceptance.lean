import Mathlib.Data.List.Induction
import FromScratch.Proofs.TaskLifecycle

/-! Which reports are accepted, and what acceptance settles: the task is done
for good, its counters are in the job's total once, and no reduce task is
handed out before every map task has been accepted. -/

namespace FromScratch.Proofs.Acceptance
open FromScratch.MapReduce Coordinator Lib Machine CoordinatorSteps TaskLifecycle

abbrev Event := Machine.Event Coordinator Call Reply

def acceptedReport (e : Event) : Option ReportTaskArgs :=
  match e.input, e.output with
  | .reportTask args _, .accepted true => some args
  | _, _ => none

def acceptedReports (run : List Event) : List ReportTaskArgs := run.filterMap acceptedReport

def names (kind : TaskKind) (id : Int) (args : ReportTaskArgs) : Bool := args.kind == kind && args.taskID == id

/-- The event replies to `RequestTask` with the task `kind`-`id`. -/
def HandsOut (e : Event) (kind : TaskKind) (id : Int) : Prop :=
  ∃ reply, e.output = .task reply ∧ reply.kind = kind ∧ reply.taskID = id

def IsDone (c : Coordinator) (kind : TaskKind) (id : Int) : Prop :=
  ∃ (i : Nat) (t : Task), id = i ∧ (c.tasks kind)[i]? = some t ∧ t.state = .done

theorem IsDone.kept {c : Coordinator} {kind : TaskKind} {id : Int} (done : IsDone c kind id) (call : Call) :
    IsDone (c.serve call).2 kind id := by
  obtain ⟨i, t, position, found, finished⟩ := done
  obtain ⟨t', after, step⟩ := serve_step call found
  obtain rfl := step.done_kept finished
  exact ⟨i, t', position, after, finished⟩

/-- An accepted report finds its task unfinished and leaves it done. -/
theorem accepted_finishes {c : Coordinator} {call : Call} {args : ReportTaskArgs}
    (accepted : acceptedReport (event serve c call) = some args) :
    ¬ IsDone c args.kind args.taskID ∧ IsDone (c.serve call).2 args.kind args.taskID := by
  cases call with
  | register | heartbeat | requestTask | reclaim => cases accepted
  | reportTask given clock =>
    have outcome := reportTask_cases c given clock
    simp only [acceptedReport, event, serve] at accepted ⊢
    generalize (c.reportTask given clock).1 = reply at outcome accepted
    generalize (c.reportTask given clock).2 = last at outcome ⊢
    cases outcome with
    | ignored | failed => cases accepted
    | @accepted i t named unfinished success =>
      cases accepted
      have inside := (List.getElem?_eq_some_iff.mp named.found).1
      refine ⟨?_, i, acceptedTask t clock.assign, named.position, by simp [inside], rfl⟩
      rintro ⟨j, u, position, found, finished⟩
      obtain rfl : i = j := by have := named.position; omega
      cases named.found.symm.trans found
      exact unfinished finished

theorem done_not_handed {groups : List (List GoString)} {c : Coordinator} (indexed : Indexed groups c)
    {kind : TaskKind} {id : Int} (done : IsDone c kind id) (call : Call) :
    ¬ HandsOut (event serve c call) kind id := by
  obtain ⟨i, t, position, found, finished⟩ := done
  rintro ⟨reply, answer, sameKind, sameId⟩
  cases call with
  | register | heartbeat | reportTask | reclaim => cases answer
  | requestTask workerID clock =>
    have outcome := requestTask_cases c workerID clock
    simp only [event, serve, Reply.task.injEq] at answer
    rw [answer] at outcome
    generalize (c.requestTask workerID clock).2 = last at outcome
    cases outcome with
    | aborted | waiting | finished => subst sameKind; simp [Coordinator.tasks, waitReply] at found
    | @handed served base j u backup running opened chosen free =>
      have before := opened_task_back opened chosen
      obtain ⟨v, origin, rfl⟩ := before
      obtain ⟨uid, ukind⟩ := indexed.tasks served j v origin
      obtain ⟨keptId, keptKind, _⟩ := reclaimTask_identity c.cfg
        ((c.touch workerID clock.seen).expireWorkers clock.reclaim) clock.reclaim v
      simp only [handReply] at sameKind sameId
      obtain rfl : served = kind := by rw [← ukind, ← keptKind, sameKind]
      obtain rfl : i = j := by
        rw [keptId, uid] at sameId
        omega
      cases found.symm.trans origin
      exact free.state_ne_done ((reclaimTask_done ..).mpr finished)

private theorem merge_entries (entries : List (Sigma fun _ : String => Int64)) (distinct : entries.NodupKeys)
    (set : Counters) (name : String) :
    (entries.foldl (fun set entry => set.inc entry.1 entry.2) set).get name =
      set.get name + (entries.dlookup name).getD 0 := by
  induction entries generalizing set with
  | nil => simp
  | cons entry entries ih =>
    obtain ⟨key, value⟩ := entry
    rw [List.foldl_cons, ih distinct.of_cons]
    by_cases same : name = key
    · subst same
      have absent : entries.dlookup name = none := List.dlookup_eq_none.mpr (List.notMem_keys_of_nodupKeys_cons distinct)
      simp [absent, Counters.inc, Counters.get]
    · have skipped : ((⟨key, value⟩ : Sigma fun _ : String => Int64) :: entries).dlookup name = entries.dlookup name :=
        List.dlookup_cons_ne entries ⟨key, value⟩ same
      simp [Counters.inc, Counters.get, skipped, AList.lookup_insert_ne same]

/-- Folding another set in adds it name by name. -/
theorem merge_get (set other : Counters) (name : String) :
    (set.merge other).get name = set.get name + other.get name :=
  merge_entries other.entries other.nodupKeys set name

private theorem mem_merge_entries (entries : List (Sigma fun _ : String => Int64)) (set : Counters) (name : String) :
    name ∈ entries.foldl (fun set entry => set.inc entry.1 entry.2) set ↔ name ∈ set ∨ name ∈ entries.keys := by
  induction entries generalizing set with
  | nil => simp
  | cons entry entries ih =>
    rw [List.foldl_cons, ih]
    simp only [Counters.inc, AList.mem_insert, List.keys_cons, List.mem_cons]
    tauto

theorem mem_merge (set other : Counters) (name : String) : name ∈ set.merge other ↔ name ∈ set ∨ name ∈ other :=
  mem_merge_entries other.entries set name

/-- Only an accepted report changes the coordinator's counters. -/
theorem serve_counters (c : Coordinator) (call : Call) : (c.serve call).2.counters =
    match acceptedReport (event serve c call) with
    | some args => c.counters.merge args.counters
    | none => c.counters := by
  have touched (workerID : WorkerId) (now : Time) : (c.touch workerID now).counters = c.counters :=
    congrArg (fun kept => kept.2.1) (touch_standing c workerID now)
  cases call with
  | register | reclaim => rfl
  | heartbeat workerID now => exact touched ..
  | requestTask workerID clock => exact congrArg (fun kept => kept.2.1) (requestTask_standing c workerID clock)
  | reportTask args clock =>
    have outcome := reportTask_cases c args clock
    simp only [acceptedReport, event, serve]
    generalize (c.reportTask args clock).1 = reply at outcome ⊢
    generalize (c.reportTask args clock).2 = last at outcome ⊢
    cases outcome with
    | ignored => exact touched ..
    | failed => exact (reportFailure_frame ..).2.trans (touched ..)
    | accepted => rw [(reportSuccess_frame ..).2, touched]

section Runs
variable (cfg : Config) (groups : List (List GoString)) (now : Time)

private theorem acceptedReports_concat (calls : List Call) (call : Call) :
    acceptedReports (history serve (new cfg groups now) (calls ++ [call])) =
      acceptedReports (history serve (new cfg groups now) calls) ++
        (acceptedReport (event serve (after serve (new cfg groups now) calls) call)).toList := by
  rw [history_concat, acceptedReports, List.filterMap_append]
  cases accepted : acceptedReport (event serve (after serve (new cfg groups now) calls) call) <;>
    simp [acceptedReports, accepted]

/-- The number of accepted reports of a task is 0 until it is done and 1 after. -/
theorem accepted_count (calls : List Call) (kind : TaskKind) (id : Int) :
    let accepted := (acceptedReports (history serve (new cfg groups now) calls)).countP (names kind id)
    accepted ≤ 1 ∧ (accepted = 1 → IsDone (after serve (new cfg groups now) calls) kind id) := by
  induction calls using List.reverseRecOn with
  | nil => simp [history, acceptedReports]
  | append_singleton calls call ih =>
    simp only [acceptedReports_concat, after_concat, List.countP_append]
    cases accepted : acceptedReport (event serve (after serve (new cfg groups now) calls) call) with
    | none =>
      simp only [Option.toList_none, List.countP_nil, Nat.add_zero]
      exact ⟨ih.1, fun one => (ih.2 one).kept call⟩
    | some args =>
      obtain ⟨unfinished, finished⟩ := accepted_finishes accepted
      by_cases named : names kind id args = true
      · obtain ⟨rfl, rfl⟩ : args.kind = kind ∧ args.taskID = id := by simpa [names] using named
        have fresh := mt ih.2 unfinished
        have bound := ih.1
        simp only [Option.toList_some, List.countP_singleton, named, if_true]
        exact ⟨by omega, fun _ => finished⟩
      · simp only [Option.toList_some, List.countP_singleton, named]
        exact ⟨ih.1, fun one => (ih.2 one).kept call⟩

theorem counters_sum (calls : List Call) (name : String) :
    (after serve (new cfg groups now) calls).counters.get name =
        ((acceptedReports (history serve (new cfg groups now) calls)).map fun args => args.counters.get name).sum ∧
      (name ∈ (after serve (new cfg groups now) calls).counters ↔
        ∃ args ∈ acceptedReports (history serve (new cfg groups now) calls), name ∈ args.counters) := by
  induction calls using List.reverseRecOn with
  | nil => simp [history, acceptedReports, new, Counters.get]
  | append_singleton calls call ih =>
    rw [acceptedReports_concat, after_concat, serve_counters]
    cases acceptedReport (event serve (after serve (new cfg groups now) calls) call) with
    | none => simpa using ih
    | some args =>
      obtain ⟨total, domain⟩ := ih
      simp only [merge_get, mem_merge, total, domain, Option.toList_some, List.map_append, List.map_cons,
        List.map_nil, List.sum_append, List.sum_cons, List.sum_nil, Int64.add_zero, List.mem_append,
        List.mem_singleton, true_and]
      constructor
      · rintro (⟨args, member, inside⟩ | inside)
        · exact ⟨args, Or.inl member, inside⟩
        · exact ⟨args, Or.inr rfl, inside⟩
      · rintro ⟨found, member | rfl, inside⟩
        · exact Or.inl ⟨found, member, inside⟩
        · exact Or.inr inside

/-- Once a task is done no later event hands it out or undoes it. -/
theorem done_for_good (calls later : List Call) (kind : TaskKind) (id : Int)
    (done : IsDone (after serve (new cfg groups now) calls) kind id) :
    ∀ next ∈ history serve (after serve (new cfg groups now) calls) later,
      ¬ HandsOut next kind id ∧ IsDone next.after kind id := by
  have indexed := Indexed.after_run cfg groups now calls
  refine invariant_history (P := fun c => IsDone c kind id ∧ Indexed groups c) ?_ ?_ ⟨done, indexed⟩
  · rintro c call ⟨done, indexed⟩
    exact ⟨done.kept call, indexed.serve call⟩
  · rintro c call ⟨done, indexed⟩
    exact ⟨done_not_handed indexed done call, done.kept call⟩

/-- Every task has at most one accepted report. Acceptance retires the task for
good, and the job's counters are the sums over exactly the accepted reports. -/
theorem exactly_once_acceptance (calls : List Call) :
    (∀ kind id, (acceptedReports (history serve (new cfg groups now) calls)).countP (names kind id) ≤ 1) ∧
    (∀ earlier e later args, history serve (new cfg groups now) calls = earlier ++ e :: later →
      acceptedReport e = some args →
        IsDone e.after args.kind args.taskID ∧
        ∀ next ∈ later, ¬ HandsOut next args.kind args.taskID ∧ IsDone next.after args.kind args.taskID) ∧
    ∀ name, (after serve (new cfg groups now) calls).counters.get name =
        ((acceptedReports (history serve (new cfg groups now) calls)).map fun args => args.counters.get name).sum ∧
      (name ∈ (after serve (new cfg groups now) calls).counters ↔
        ∃ args ∈ acceptedReports (history serve (new cfg groups now) calls), name ∈ args.counters) := by
  refine ⟨fun kind id => (accepted_count cfg groups now calls kind id).1, ?_, counters_sum cfg groups now calls⟩
  intro earlier e later args cut accepted
  obtain ⟨before, call, rest, rfl, _, rfl, rfl⟩ := history_split serve cut
  have done := (accepted_finishes accepted).2
  refine ⟨done, ?_⟩
  have reached := done_for_good cfg groups now (before ++ [call]) rest args.kind args.taskID
  rw [after_concat] at reached
  exact reached done

/-- Done means accepted: the run so far holds a successful report of the task. -/
theorem done_accepted (calls : List Call) {kind : TaskKind} {id : Int}
    (done : IsDone (after serve (new cfg groups now) calls) kind id) :
    ∃ args ∈ acceptedReports (history serve (new cfg groups now) calls), args.kind = kind ∧ args.taskID = id := by
  induction calls using List.reverseRecOn with
  | nil =>
    obtain ⟨i, t, _, found, finished⟩ := done
    cases kind with
    | map =>
      simp only [after_nil, tasks_map, new, List.getElem?_mapIdx, Option.map_eq_some_iff] at found
      obtain ⟨_, _, rfl⟩ := found
      cases finished
    | reduce =>
      simp only [after_nil, tasks_reduce, new, List.getElem?_map, Option.map_eq_some_iff] at found
      obtain ⟨_, _, rfl⟩ := found
      cases finished
    | none | exit | unknown _ => simp [Coordinator.tasks] at found
  | append_singleton calls call ih =>
    rw [acceptedReports_concat]
    rw [after_concat] at done
    obtain ⟨i, t', rfl, found, finished⟩ := done
    obtain ⟨t, before, step⟩ := serve_step_back found
    by_cases already : t.state = .done
    · obtain ⟨args, member, facts⟩ := ih ⟨i, t, rfl, before, already⟩
      exact ⟨args, List.mem_append_left _ member, facts⟩
    · obtain ⟨args, clock, rfl, reply, concerns⟩ := step.becomes_done already finished
      refine ⟨args, List.mem_append_right _ ?_, concerns⟩
      simp [acceptedReport, event, reply]

/-- A reduce task is only ever handed out over a map list that is all done. -/
theorem reduce_needs_maps {c : Coordinator} (indexed : Indexed groups c) {call : Call} {reply : RequestTaskReply}
    (answer : (event serve c call).output = .task reply) (reduce : reply.kind = .reduce) :
    ∀ m < groups.length, IsDone c .map m := by
  cases call with
  | register | heartbeat | reportTask | reclaim => cases answer
  | requestTask workerID clock =>
    have outcome := requestTask_cases c workerID clock
    simp only [event, serve, Reply.task.injEq] at answer
    rw [answer] at outcome
    generalize (c.requestTask workerID clock).2 = last at outcome
    cases outcome with
    | aborted | waiting | finished => cases reduce
    | @handed served base j u backup running opened chosen free =>
      obtain ⟨v, origin, rfl⟩ := opened_task_back opened chosen
      have served_reduce : served = .reduce := by
        rw [← (indexed.tasks served j v origin).2, ← (reclaimTask_identity ..).2.1]
        exact reduce
      cases opened with
      | map => cases served_reduce
      | reduce complete =>
        intro m inside
        rw [← indexed.maps] at inside
        have found : (c.tasks .map)[m]? = some c.mapTasks[m] := List.getElem?_eq_getElem inside
        have swept := opened_task (.map : Opened c workerID clock .map _) found
        exact ⟨m, c.mapTasks[m], rfl, found, (reclaimTask_done ..).mp (complete _ (List.mem_of_getElem? swept))⟩

/-- The barrier: when a reduce task is handed out every map task has been
accepted, and from then on every map task is done and is not handed out again. -/
theorem map_reduce_barrier (calls : List Call) {earlier later : List Event} {e : Event} {reply : RequestTaskReply}
    (cut : history serve (new cfg groups now) calls = earlier ++ e :: later)
    (answer : e.output = .task reply) (reduce : reply.kind = .reduce) :
    ∀ m < groups.length,
      (∃ args ∈ acceptedReports earlier, args.kind = .map ∧ args.taskID = m) ∧
      IsDone e.after .map m ∧ ∀ next ∈ later, IsDone next.after .map m ∧ ¬ HandsOut next .map m := by
  obtain ⟨before, call, rest, rfl, rfl, rfl, rfl⟩ := history_split serve cut
  intro m inside
  have done := reduce_needs_maps groups (.after_run cfg groups now before) answer reduce m inside
  refine ⟨done_accepted cfg groups now before done, done.kept call, ?_⟩
  have reached := done_for_good cfg groups now (before ++ [call]) rest .map m
  rw [after_concat] at reached
  exact fun next member => (reached (done.kept call) next member).symm

end Runs

/-- The clock does not move during a call. -/
def always (now : Time) : Readings := ⟨now, now, fun _ _ => now, now, now⟩

def oneOfEach : Config where
  numReducers := 1
  taskTimeout := 100
  heartbeatInterval := 10
  workerTimeout := 50
  enableBackupTasks := true
  backupThreshold := 3 / 2
  maxTaskAttempts := 3

private def throughTheMaps : List Call :=
  [.register "host" 0, .requestTask "worker-1" (always 0),
   .reportTask { workerID := "worker-1", kind := .map, taskID := 0, attempt := 1, success := true } (always 0)]

theorem map_reduce_barrier_reached :
    IsDone ((after serve (new oneOfEach [[]] 0) throughTheMaps).serve (.requestTask "worker-1" (always 0))).2 .map
      (0 : Nat) :=
  (map_reduce_barrier oneOfEach [[]] 0 (throughTheMaps ++ [Call.requestTask "worker-1" (always 0)])
    (history_concat serve _ throughTheMaps _) rfl rfl 0 (by decide)).2.1

end FromScratch.Proofs.Acceptance
