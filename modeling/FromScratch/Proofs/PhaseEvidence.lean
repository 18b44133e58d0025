import FromScratch.Proofs.PhaseProgress
import FromScratch.Proofs.AttemptBookkeeping

/-! What the coordinator knows of durations. They are forgotten when the reduce
phase begins, in another handler than the one that records them; in between they
are those of the reports accepted in the phase, and of its kind. -/

namespace FromScratch.Proofs.PhaseEvidence
open FromScratch.MapReduce Coordinator Lib Machine CoordinatorSteps TaskLifecycle Acceptance JobOutcome AttemptBookkeeping

/-- The phase, the error and the durations. -/
def ledger (c : Coordinator) : Phase × Option String × List Duration := (c.phase, c.jobErr, c.durations)

@[simp] theorem touch_ledger (c : Coordinator) (workerID : WorkerId) (now : Time) :
    ledger (c.touch workerID now) = ledger c := by
  obtain ⟨_, same⟩ := touch_frame c workerID now
  rw [same]
  rfl

@[simp] theorem markExited_ledger (c : Coordinator) (workerID : WorkerId) : ledger (c.markExited workerID) = ledger c := by
  obtain ⟨_, same⟩ := markExited_frame c workerID
  rw [same]
  rfl

@[simp] theorem setTask_ledger (c : Coordinator) (kind : TaskKind) (i : Nat) (t : Task) :
    ledger (c.setTask kind i t) = ledger c := by
  obtain ⟨_, _, same, _⟩ := setTask_frame c kind i t
  rw [same]
  rfl

@[simp] theorem handOut_ledger (c : Coordinator) (kind : TaskKind) (i : Nat) (t : Task) (backup : Bool)
    (workerID : WorkerId) (now : Time) : ledger (handOut c kind i t backup workerID now) = ledger c :=
  setTask_ledger ..

@[simp] theorem swept_ledger (c : Coordinator) (workerID : WorkerId) (clock : Readings) :
    ledger (swept c workerID clock) = ledger c :=
  touch_ledger c workerID clock.seen

/-- Serving from the reduce list may begin the phase. -/
theorem opened_ledger {c base : Coordinator} {workerID : WorkerId} {clock : Readings} {kind : TaskKind}
    (opened : Opened c workerID clock kind base) : ledger base = ledger c ∨
      c.phase = .map ∧ (∀ t ∈ c.mapTasks, t.state = .done) ∧ ledger base = (.reduce, c.jobErr, []) := by
  have swept := swept_ledger c workerID clock
  cases opened with
  | map => exact Or.inl swept
  | reduce complete =>
    simp only [ledger, Prod.mk.injEq] at swept
    obtain ⟨phase, error, durations⟩ := swept
    unfold enterReduce
    split
    next before =>
      refine Or.inr ⟨phase.symm.trans before, (PhaseProgress.opened_maps .map).mp complete, ?_⟩
      simp only [ledger, error]
    next => exact Or.inl (by simp only [ledger, phase, error, durations])

/-- What a call makes of the phase and the durations. -/
inductive PhaseStep (c last : Coordinator) (accepted : Option ReportTaskArgs) : Prop
  | same (kept : ledger last = (c.phase, c.jobErr, c.durations ++ accepted.toList.map ReportTaskArgs.elapsed))
  | switched (before : c.phase = .map) (complete : ∀ t ∈ c.mapTasks, t.state = .done) (quiet : accepted = none)
      (begun : ledger last = (.reduce, c.jobErr, []))
  | finished (complete : AllDone last) (phase : last.phase = .done)
  | failed (phase : last.phase = .failed) (error : last.jobErr.isSome = true)

theorem PhaseStep.of_ledger {c last : Coordinator} (kept : ledger last = ledger c) : PhaseStep c last none :=
  .same (kept.trans (by simp [ledger]))

theorem PhaseStep.of_opened {c base last : Coordinator} {workerID : WorkerId} {clock : Readings} {kind : TaskKind}
    (opened : Opened c workerID clock kind base) (kept : ledger last = ledger base) : PhaseStep c last none := by
  rcases opened_ledger opened with same | ⟨before, complete, begun⟩
  · exact .of_ledger (kept.trans same)
  · exact .switched before complete rfl (kept.trans begun)

theorem requestTask_phase (c : Coordinator) (workerID : WorkerId) (clock : Readings) :
    PhaseStep c (c.requestTask workerID clock).2 none := by
  have outcome := requestTask_cases c workerID clock
  generalize (c.requestTask workerID clock).1 = reply at outcome
  generalize (c.requestTask workerID clock).2 = last at outcome ⊢
  cases outcome with
  | aborted => exact .of_ledger (by rw [markExited_ledger, touch_ledger])
  | handed _ opened => exact .of_opened opened (handOut_ledger ..)
  | waiting _ opened => exact .of_opened opened rfl
  | @finished base _ opened complete =>
    by_cases closed : base.closeOnce = true
    · have kept : base.finishLocked clock.finish = base := if_pos closed
      exact .of_opened opened (by rw [markExited_ledger, kept])
    · refine .finished ?_ ?_
      · have maps : ∀ t ∈ base.mapTasks, t.state = .done := by
          cases opened with
          | reduce done => exact (PhaseProgress.opened_maps (.reduce done)).mpr ((PhaseProgress.opened_maps .map).mp done)
        simpa [AllDone] using (allDone_iff base).mpr ⟨maps, complete⟩
      · have same := markExited_verdict (base.finishLocked clock.finish) workerID
        simp only [verdict, Prod.mk.injEq] at same
        rw [same.1, finishLocked, if_neg closed]

theorem reportTask_phase (c : Coordinator) (args : ReportTaskArgs) (clock : Readings) :
    PhaseStep c (c.reportTask args clock).2 (if (c.reportTask args clock).1 then some args else none) := by
  have outcome := reportTask_cases c args clock
  generalize (c.reportTask args clock).1 = reply at outcome ⊢
  generalize (c.reportTask args clock).2 = last at outcome ⊢
  cases outcome with
  | ignored => exact .of_ledger (touch_ledger ..)
  | @failed i t =>
    have kept : ledger ((c.touch args.workerID clock.seen).setTask args.kind i (failedTask t args.workerID)) = ledger c := by
      rw [setTask_ledger, touch_ledger]
    simp only [failedTask] at kept
    simp only [reportFailure]
    split
    · unfold failLocked
      split
      · exact .of_ledger kept
      · exact .failed rfl rfl
    · exact .of_ledger kept
  | @accepted i t =>
    have kept : ledger ((c.touch args.workerID clock.seen).setTask args.kind i (acceptedTask t clock.assign)) = ledger c := by
      rw [setTask_ledger, touch_ledger]
    simp only [acceptedTask] at kept
    simp only [ledger, Prod.mk.injEq] at kept
    obtain ⟨phase, error, durations⟩ := kept
    have recorded : PhaseStep c (((c.touch args.workerID clock.seen).setTask args.kind i
        { t with state := .done, finished := clock.assign }).recordResult args) (some args) :=
      .same (by simp only [ledger, recordResult, phase, error, durations]; rfl)
    simp only [reportSuccess]
    split
    next complete =>
      rw [Bool.and_eq_true, allDoneLocked_iff, allDoneLocked_iff] at complete
      have complete := (allDone_iff _).mpr complete
      by_cases closed : (((c.touch args.workerID clock.seen).setTask args.kind i
          { t with state := .done, finished := clock.assign }).recordResult args).closeOnce = true
      · rw [finishLocked, if_pos closed]
        exact recorded
      · refine .finished ?_ ?_
        · intro kind u member
          exact complete kind u (by rwa [finishLocked_tasks] at member)
        · rw [finishLocked, if_neg closed]
    next => exact recorded

theorem serve_phase (c : Coordinator) (call : Call) :
    PhaseStep c (c.serve call).2 (acceptedReport (event serve c call)) := by
  cases call with
  | register host now => exact .of_ledger rfl
  | heartbeat workerID now => exact .of_ledger (touch_ledger ..)
  | requestTask workerID clock => exact requestTask_phase c workerID clock
  | reportTask args clock =>
    have step := reportTask_phase c args clock
    have accepted : acceptedReport (event serve c (.reportTask args clock)) =
        if (c.reportTask args clock).1 then some args else none := by
      simp only [acceptedReport, event, serve]
      cases (c.reportTask args clock).1 <;> rfl
    rw [accepted]
    exact step
  | reclaim now => exact .of_ledger rfl

/-- What the phase promises of the tasks. -/
def Phased (c : Coordinator) : Prop :=
  match c.phase with
  | .map => True
  | .reduce => ∀ t ∈ c.mapTasks, t.state = .done
  | .done => AllDone c
  | .failed => c.jobErr.isSome = true

theorem done_kept {c : Coordinator} {kind : TaskKind} (complete : ∀ t ∈ c.tasks kind, t.state = .done) (call : Call) :
    ∀ t ∈ (c.serve call).2.tasks kind, t.state = .done := by
  intro t' member
  obtain ⟨i, found⟩ := List.mem_iff_getElem?.mp member
  obtain ⟨t, before, step⟩ := serve_step_back found
  have done := complete t (List.mem_of_getElem? before)
  rw [step.done_kept done]
  exact done

theorem Phased.kept {c : Coordinator} (phased : Phased c) (call : Call) : Phased (c.serve call).2 := by
  have step := serve_phase c call
  have maps (complete : ∀ t ∈ c.mapTasks, t.state = .done) := @done_kept c .map complete call
  have all (complete : AllDone c) : AllDone (c.serve call).2 := fun kind => done_kept (complete kind) call
  generalize (c.serve call).2 = last at step maps all
  unfold Phased
  cases step with
  | same kept =>
    simp only [ledger, Prod.mk.injEq] at kept
    obtain ⟨phase, error, _⟩ := kept
    rw [phase]
    unfold Phased at phased
    cases held : c.phase with
    | map => trivial
    | reduce =>
      rw [held] at phased
      exact maps phased
    | done =>
      rw [held] at phased
      exact all phased
    | failed =>
      rw [held] at phased
      rw [error]
      exact phased
  | switched _ complete _ begun =>
    simp only [ledger, Prod.mk.injEq] at begun
    rw [begun.1]
    exact maps complete
  | finished complete phase =>
    rw [phase]
    exact complete
  | failed phase error =>
    rw [phase]
    exact error

/-- The phases come one after the other. -/
def rank : Phase → Nat
  | .map => 0
  | .reduce => 1
  | .done | .failed => 2

theorem rank_le (phase : Phase) : rank phase ≤ 2 := by cases phase <;> decide

theorem eq_map_of_rank {phase : Phase} (early : rank phase ≤ rank .map) : phase = .map := by
  cases phase with
  | map => rfl
  | reduce | done | failed => exact absurd early (by decide)

theorem rank_kept (c : Coordinator) (call : Call) : rank c.phase ≤ rank (c.serve call).2.phase := by
  have step := serve_phase c call
  generalize (c.serve call).2 = last at step ⊢
  cases step with
  | same kept =>
    simp only [ledger, Prod.mk.injEq] at kept
    rw [kept.1]
  | switched before =>
    rw [before]
    exact Nat.zero_le _
  | finished _ phase | failed phase =>
    rw [phase]
    exact rank_le _

/-- No later state is in an earlier phase. -/
theorem rank_history {c : Coordinator} {calls : List Call} {past : Event} (member : past ∈ history serve c calls) :
    rank past.before.phase ≤ rank past.after.phase ∧ rank past.after.phase ≤ rank (after serve c calls).phase := by
  obtain ⟨before, call, rest, rfl, rfl⟩ := mem_history serve member
  refine ⟨rank_kept _ _, ?_⟩
  rw [after_append, after_cons]
  exact invariant_after (P := fun last : Coordinator => rank (serve (after serve c before) call).2.phase ≤ rank last.phase)
    (fun _ next reached => reached.trans (rank_kept _ next)) le_rfl rest

/-- The reports accepted while the job was in the phase. -/
def acceptedIn (phase : Phase) (run : List Event) : List ReportTaskArgs :=
  acceptedReports (run.filter fun past => past.before.phase = phase)

theorem acceptedIn_concat (phase : Phase) (run : List Event) (last : Event) : acceptedIn phase (run ++ [last]) =
    acceptedIn phase run ++ if last.before.phase = phase then (acceptedReport last).toList else [] := by
  simp only [acceptedIn, acceptedReports, List.filter_append, List.filterMap_append]
  congr 1
  by_cases here : last.before.phase = phase
  · rw [if_pos here, List.filter_singleton, decide_eq_true here, cond_true, List.filterMap_cons]
    cases acceptedReport last <;> rfl
  · rw [if_neg here, List.filter_singleton, decide_eq_false here, cond_false]
    rfl

section Runs
variable (cfg : Config) (groups : List (List GoString)) (now : Time)

theorem phased_after (calls : List Call) : Phased (after serve (new cfg groups now) calls) :=
  have initial : Phased (new cfg groups now) := trivial
  invariant_after (P := Phased) (fun _ call phased => phased.kept call) initial calls

/-- While tasks are being done the durations are those reported in the phase. -/
theorem durations_in_phase (calls : List Call) (working : rank (after serve (new cfg groups now) calls).phase < 2) :
    (after serve (new cfg groups now) calls).durations =
      (acceptedIn (after serve (new cfg groups now) calls).phase (history serve (new cfg groups now) calls)).map
        ReportTaskArgs.elapsed := by
  induction calls using List.reverseRecOn with
  | nil => rfl
  | append_singleton calls call ih =>
    have past {e : Event} (member : e ∈ history serve (new cfg groups now) calls) := rank_history member
    have ih := ih ((rank_kept _ call).trans_lt (by rwa [after_concat] at working))
    rw [history_concat, acceptedIn_concat]
    rw [after_concat] at working ⊢
    generalize after serve (new cfg groups now) calls = c at ih working past ⊢
    have step := serve_phase c call
    have before : (event serve c call).before = c := rfl
    rw [before]
    generalize acceptedReport (event serve c call) = accepted at step ⊢
    generalize (c.serve call).2 = last at step working ⊢
    cases step with
    | same kept =>
      simp only [ledger, Prod.mk.injEq] at kept
      obtain ⟨phase, _, durations⟩ := kept
      rw [durations, phase, if_pos rfl, List.map_append, ih]
    | switched before _ quiet begun =>
      simp only [ledger, Prod.mk.injEq] at begun
      obtain ⟨phase, _, durations⟩ := begun
      have empty : acceptedIn .reduce (history serve (new cfg groups now) calls) = [] := by
        have blank : (history serve (new cfg groups now) calls).filter (fun e => e.before.phase = .reduce) = [] := by
          refine List.filter_eq_nil_iff.mpr fun e member reduce => ?_
          have bounds := past member
          rw [before, of_decide_eq_true reduce] at bounds
          exact absurd (bounds.1.trans bounds.2) (by decide)
        rw [acceptedIn, blank]
        rfl
      rw [durations, phase, empty, quiet, before]
      rfl
    | finished _ phase | failed phase =>
      rw [phase] at working
      exact absurd working (by decide)

/-- What is reported was handed out before. -/
theorem reported_issued {issued : List Assignment} {earlier later : List Event} {e : Event} {args : ReportTaskArgs}
    {clock : Readings} (honest : reportsAssigned issued (earlier ++ e :: later) = true)
    (report : e.input = .reportTask args clock) : reported args ∈ issued ++ earlier.filterMap assignment := by
  induction earlier generalizing issued with
  | nil =>
    rw [List.nil_append, reportsAssigned, report, Bool.and_eq_true] at honest
    rw [List.filterMap_nil, List.append_nil]
    exact of_decide_eq_true honest.1
  | cons first earlier ih =>
    rw [List.cons_append, reportsAssigned, Bool.and_eq_true] at honest
    have found := ih honest.2
    rw [List.filterMap_cons]
    cases answer : assignment first with
    | none => simpa [answer] using found
    | some issue => simpa [answer] using found

theorem assigned_earlier {issued : List Assignment} {earlier later : List Event}
    (honest : reportsAssigned issued (earlier ++ later) = true) : reportsAssigned issued earlier = true := by
  induction earlier generalizing issued with
  | nil => rfl
  | cons first earlier ih =>
    rw [List.cons_append, reportsAssigned, Bool.and_eq_true] at honest
    rw [reportsAssigned, Bool.and_eq_true]
    exact ⟨honest.1, ih honest.2⟩

variable {cfg groups now}

/-- A reduce task is handed out when the map phase is behind. -/
theorem reduce_assigned {c : Coordinator} (indexed : Indexed groups c) {call : Call} {issue : Assignment}
    (answer : assignment (event serve c call) = some issue) (reduce : issue.kind = .reduce) :
    (c.serve call).2.phase ≠ .map := by
  cases call with
  | register | heartbeat | reportTask | reclaim => cases answer
  | requestTask workerID clock =>
    have outcome := requestTask_cases c workerID clock
    simp only [assignment, event, serve] at answer ⊢
    generalize (c.requestTask workerID clock).1 = reply at outcome answer
    generalize (c.requestTask workerID clock).2 = last at outcome ⊢
    cases outcome with
    | aborted | waiting | finished => cases answer
    | @handed kind base i t backup _ opened found =>
      obtain ⟨u, origin, rfl⟩ := opened_task_back opened found
      have same : (handReply base (reclaimTask c.cfg ((c.touch workerID clock.seen).expireWorkers clock.reclaim)
          clock.reclaim u)).kind = kind := by
        simp only [handReply, reclaimTask_identity, (indexed.tasks kind i u origin).2]
      rw [same] at answer
      have kept := handOut_ledger base kind i
        (reclaimTask c.cfg ((c.touch workerID clock.seen).expireWorkers clock.reclaim) clock.reclaim u) backup workerID
        clock.assign
      simp only [ledger, Prod.mk.injEq] at kept
      rw [kept.1]
      cases opened with
      | map =>
        cases answer
        cases reduce
      | reduce =>
        unfold enterReduce
        split
        · intro early
          cases early
        next elsewhere => exact elsewhere

theorem accepted_input {e : Event} {args : ReportTaskArgs} (accepted : acceptedReport e = some args) :
    ∃ clock, e.input = .reportTask args clock := by
  unfold acceptedReport at accepted
  split at accepted
  next clock input _ =>
    cases accepted
    exact ⟨clock, input⟩
  next => cases accepted

/-- An accepted report names a map or a reduce task, and after the map phase no map task. -/
theorem accepted_named {c : Coordinator} (phased : Phased c) {call : Call} {args : ReportTaskArgs}
    (accepted : acceptedReport (event serve c call) = some args) :
    (args.kind = .map ∨ args.kind = .reduce) ∧ (c.phase = .reduce → args.kind ≠ .map) := by
  obtain ⟨fresh, i, t, position, found, _⟩ := accepted_finishes accepted
  constructor
  · cases named : args.kind with
    | map => exact Or.inl rfl
    | reduce => exact Or.inr rfl
    | none | exit | unknown _ =>
      rw [named] at found
      cases found
  · intro reduce map
    rw [Phased, reduce] at phased
    obtain ⟨u, before, _⟩ := serve_step_back found
    rw [map] at before
    exact fresh ⟨i, u, position, by rwa [map], phased u (List.mem_of_getElem? before)⟩

/-- In an honest run the reports accepted in a phase are of its kind. -/
theorem accepted_kind {calls : List Call} (honest : reportsAssigned [] (history serve (new cfg groups now) calls) = true)
    {past : Event} (member : past ∈ history serve (new cfg groups now) calls) {args : ReportTaskArgs}
    (accepted : acceptedReport past = some args) :
    (past.before.phase = .map → args.kind = .map) ∧ (past.before.phase = .reduce → args.kind = .reduce) := by
  obtain ⟨earlier, later, cut⟩ := List.append_of_mem member
  obtain ⟨clock, report⟩ := accepted_input accepted
  rw [cut] at honest
  have issued := reported_issued honest report
  obtain ⟨before, call, rest, _, rfl, rfl, _⟩ := history_split serve cut
  obtain ⟨named, late⟩ := accepted_named (phased_after cfg groups now before) accepted
  constructor
  · intro phase
    refine named.resolve_right fun reduce => ?_
    rw [List.nil_append, List.mem_filterMap] at issued
    obtain ⟨issue, member, answer⟩ := issued
    have bound := (rank_history member).2
    obtain ⟨first, request, _, _, rfl⟩ := mem_history serve member
    have behind := reduce_assigned (Indexed.after_run cfg groups now first) answer reduce
    have early : rank (serve (after serve (new cfg groups now) first) request).2.phase ≤ rank .map := by
      rw [← phase]
      exact bound
    exact behind (eq_map_of_rank early)
  · exact fun phase => named.resolve_left (late phase)

/-- The kind of the tasks a phase is for. -/
def phaseKind : Phase → TaskKind
  | .map => .map
  | .reduce => .reduce
  | .done | .failed => .none

/-- While tasks are being done, the reports accepted in the phase are those accepted for its kind of task. -/
theorem acceptedIn_kind {calls : List Call} (honest : reportsAssigned [] (history serve (new cfg groups now) calls) = true)
    (working : rank (after serve (new cfg groups now) calls).phase < 2) :
    acceptedIn (after serve (new cfg groups now) calls).phase (history serve (new cfg groups now) calls) =
      (acceptedReports (history serve (new cfg groups now) calls)).filter fun args =>
        args.kind = phaseKind (after serve (new cfg groups now) calls).phase := by
  have each : ∀ past ∈ history serve (new cfg groups now) calls, ∀ args, acceptedReport past = some args →
      (past.before.phase = (after serve (new cfg groups now) calls).phase ↔
        args.kind = phaseKind (after serve (new cfg groups now) calls).phase) := by
    intro past member args accepted
    obtain ⟨maps, reduces⟩ := accepted_kind honest member accepted
    have bounds := rank_history member
    have bound := bounds.1.trans bounds.2
    generalize (after serve (new cfg groups now) calls).phase = phase at working bound
    cases phase with
    | map => exact iff_of_true (eq_map_of_rank bound) (maps (eq_map_of_rank bound))
    | reduce =>
      refine ⟨reduces, fun reduce => ?_⟩
      cases held : past.before.phase with
      | map => exact absurd ((maps held).symm.trans reduce) (by decide)
      | reduce => rfl
      | done | failed =>
        rw [held] at bound
        exact absurd bound (by decide)
    | done | failed => exact absurd working (by decide)
  rw [acceptedIn, acceptedReports, acceptedReports, List.filterMap_filter, List.filter_filterMap]
  refine List.filterMap_congr fun past member => ?_
  cases accepted : acceptedReport past with
  | none => simp
  | some args =>
    have same := each past member args accepted
    by_cases here : past.before.phase = (after serve (new cfg groups now) calls).phase
    · rw [Option.filter_some, if_pos (decide_eq_true here), if_pos (decide_eq_true (same.mp here))]
    · rw [Option.filter_some, if_neg (by simpa using here), if_neg (by simpa using same.not.mp here)]

end Runs
end FromScratch.Proofs.PhaseEvidence
