import FromScratch.Proofs.PhaseEvidence

/-! When a backup is launched: for a task that has run longer than the threshold
allows, by what the current phase has shown so far, and longer than every other
candidate. A task gets no second backup before it was reclaimed. -/

namespace FromScratch.Proofs.BackupEvidence
open FromScratch.MapReduce Coordinator Lib Machine CoordinatorSteps TaskLifecycle Acceptance JobOutcome AttemptBookkeeping
  PhaseEvidence

section Weighing
variable {workerID : WorkerId} {limit : Duration} {probe : Nat → Time}

/-- A task the worker may back up. -/
structure Eligible (workerID : WorkerId) (t : Task) : Prop where
  running : t.state = .running
  first : t.backup = false
  other : workerID ∉ t.workers

/-- What the candidate loop knows of the entries it has seen. -/
structure Weighed (workerID : WorkerId) (limit : Duration) (probe : Nat → Time) (entries : List (Task × Nat))
    (best : Option Nat × Duration) : Prop where
  longest : ∀ t i, (t, i) ∈ entries → Eligible workerID t → probe i - t.started ≤ max limit best.2
  candidate : ∀ i, best.1 = some i → ∃ t, (t, i) ∈ entries ∧ Eligible workerID t ∧ best.2 = probe i - t.started ∧
    limit < best.2 ∧ 0 < best.2

theorem weighCandidate_grows (best : Option Nat × Duration) (entry : Task × Nat) :
    best.2 ≤ (weighCandidate workerID limit probe best entry).2 := by
  rw [weighCandidate]
  split
  · rfl
  · split
    · rfl
    · dsimp only
      split
      next longer => exact longer.2.le
      next => rfl

theorem weighed_nonneg (entries : List (Task × Nat)) :
    0 ≤ (entries.foldl (weighCandidate workerID limit probe) (none, 0)).2 := by
  induction entries using List.reverseRecOn with
  | nil => exact le_rfl
  | append_singleton entries entry ih =>
    rw [List.foldl_concat]
    exact ih.trans (weighCandidate_grows _ entry)

theorem weighed (entries : List (Task × Nat)) :
    Weighed workerID limit probe entries (entries.foldl (weighCandidate workerID limit probe) (none, 0)) := by
  induction entries using List.reverseRecOn with
  | nil =>
    constructor
    · intro t i member
      cases member
    · intro i chosen
      cases chosen
  | append_singleton entries entry ih =>
    obtain ⟨t, i⟩ := entry
    rw [List.foldl_concat]
    have nonneg := @weighed_nonneg workerID limit probe entries
    generalize entries.foldl (weighCandidate workerID limit probe) (none, 0) = best at ih nonneg ⊢
    obtain ⟨longest, candidate⟩ := ih
    -- the entry is passed by
    have passed (short : Eligible workerID t → probe i - t.started ≤ max limit best.2) :
        Weighed workerID limit probe (entries ++ [(t, i)]) best := by
      constructor
      · intro u j member eligible
        rcases List.mem_append.mp member with earlier | last
        · exact longest u j earlier eligible
        · cases List.mem_singleton.mp last
          exact short eligible
      · intro j chosen
        obtain ⟨u, member, facts⟩ := candidate j chosen
        exact ⟨u, List.mem_append_left _ member, facts⟩
    simp only [weighCandidate]
    split
    next unfit =>
      refine passed fun eligible => ?_
      rcases unfit with idle | again
      · exact absurd eligible.running idle
      · rw [eligible.first] at again
        cases again
    next fit =>
      split
      next held => exact passed fun eligible => absurd held eligible.other
      next other =>
        split
        next longer =>
          simp only [ne_eq, not_or, not_not, Bool.not_eq_true] at fit
          constructor
          · intro u j member eligible
            rcases List.mem_append.mp member with earlier | last
            · exact (longest u j earlier eligible).trans (max_le_max le_rfl (Int.le_of_lt longer.2))
            · cases List.mem_singleton.mp last
              exact le_max_right _ _
          · rintro j ⟨⟩
            exact ⟨t, List.mem_append_right _ (List.mem_singleton_self _), ⟨fit.1, fit.2, other⟩, rfl, longer.1,
              nonneg.trans_lt longer.2⟩
        next shorter =>
          rcases not_and_or.mp shorter with short | short
          · exact passed fun _ => (Int.not_lt.mp short).trans (le_max_left _ _)
          · exact passed fun _ => (Int.not_lt.mp short).trans (le_max_right _ _)

end Weighing

section Launching
variable {c base : Coordinator} {kind : TaskKind} {workerID : WorkerId} {clock : Readings} {i : Nat} {t : Task}

/-- The task is the one to back up: it has run longer than `BackupThreshold` times the duration in the
middle, and no candidate has run longer. -/
structure Straggler (base : Coordinator) (kind : TaskKind) (workerID : WorkerId) (clock : Readings) (i : Nat) (t : Task) :
    Prop where
  eligible : Eligible workerID t
  enough : 2 ≤ base.durations.length
  overdue : ∃ median, (base.durations.insertionSort (· ≤ ·))[base.durations.length / 2]? = some median ∧
    (median : ℚ) * base.cfg.backupThreshold < ((clock.probe kind i - t.started : Duration) : ℚ)
  longest : ∀ u j, (base.tasks kind)[j]? = some u → Eligible workerID u →
    clock.probe kind j - u.started ≤ clock.probe kind i - t.started

/-- The task is the one that the loop over the candidates leaves. -/
structure Picked (base : Coordinator) (kind : TaskKind) (workerID : WorkerId) (clock : Readings) (i : Nat) (t : Task) :
    Prop where
  eligible : Eligible workerID t
  enough : 2 ≤ base.durations.length
  late : toDuration ((base.medianDurationLocked : ℚ) * base.cfg.backupThreshold) < clock.probe kind i - t.started
  positive : 0 < clock.probe kind i - t.started
  longest : ∀ u j, (base.tasks kind)[j]? = some u → Eligible workerID u →
    clock.probe kind j - u.started ≤ clock.probe kind i - t.started

/-- As long as the product fits an int64 only what has run longer than it is past the limit. -/
theorem toDuration_lt {x : ℚ} (fits : x < 0x8000000000000000) {elapsed : Duration} (positive : 0 < elapsed)
    (late : toDuration x < elapsed) : x < (elapsed : ℚ) := by
  by_cases sign : 0 ≤ x
  · have small : ⌊x⌋ < 0x8000000000000000 := Int.floor_lt.mpr (by exact_mod_cast fits)
    have low : -0x8000000000000000 ≤ ⌊x⌋ := le_trans (by decide) (Int.floor_nonneg.mpr sign)
    rw [toDuration, if_pos sign, if_pos ⟨low, small⟩] at late
    exact Int.floor_lt.mp late
  · exact (not_le.mp sign).trans (by exact_mod_cast positive)

theorem median_mem (enough : 2 ≤ base.durations.length) :
    (base.durations.insertionSort (· ≤ ·))[base.durations.length / 2]? = some base.medianDurationLocked := by
  have inside : base.durations.length / 2 < (base.durations.insertionSort (· ≤ ·)).length := by
    rw [List.length_insertionSort]
    omega
  rw [medianDurationLocked, if_neg (not_lt.mpr enough), List.getD_eq_getElem?_getD,
    List.getElem?_eq_getElem inside, Option.getD_some]

/-- What is picked is a straggler if the product fits an int64. Otherwise the limit is
below every duration. -/
theorem Picked.straggler (picked : Picked base kind workerID clock i t)
    (fits : (base.medianDurationLocked : ℚ) * base.cfg.backupThreshold < 0x8000000000000000) :
    Straggler base kind workerID clock i t where
  eligible := picked.eligible
  enough := picked.enough
  overdue := ⟨base.medianDurationLocked, median_mem picked.enough, toDuration_lt fits picked.positive picked.late⟩
  longest := picked.longest

theorem Straggler.fits (straggler : Straggler base kind workerID clock i t)
    (short : clock.probe kind i - t.started < 0x8000000000000000) :
    (base.medianDurationLocked : ℚ) * base.cfg.backupThreshold < 0x8000000000000000 := by
  obtain ⟨median, here, late⟩ := straggler.overdue
  cases (median_mem straggler.enough).symm.trans here
  exact late.trans (by exact_mod_cast short)

theorem pickBackupLocked_picked {c' : Coordinator} (picked : base.pickBackupLocked kind workerID clock = (some i, c')) :
    ∃ t, (base.tasks kind)[i]? = some t ∧ Picked base kind workerID clock i t := by
  unfold pickBackupLocked at picked
  simp only at picked
  split at picked
  · cases picked
  next positive =>
    have enough : 2 ≤ base.durations.length := by
      by_contra few
      exact positive (by rw [medianDurationLocked, if_pos (not_le.mp few)])
    split at picked
    · cases picked
    next j chosen =>
      split at picked
      · cases picked
      next t found =>
        cases picked
        obtain ⟨longest, candidate⟩ := @weighed workerID
          (toDuration ((base.medianDurationLocked : ℚ) * base.cfg.backupThreshold)) (clock.probe kind)
          (base.tasks kind).zipIdx
        obtain ⟨u, member, eligible, elapsed, late, positive⟩ := candidate i chosen
        rw [List.mk_mem_zipIdx_iff_getElem?] at member
        cases found.symm.trans member
        rw [elapsed] at late positive
        refine ⟨t, found, eligible, enough, late, positive, fun u j other fit => ?_⟩
        have bound := longest u j (List.mk_mem_zipIdx_iff_getElem?.mpr other) fit
        rwa [elapsed, max_eq_right late.le] at bound

@[simp] theorem touch_backupsLaunched (c : Coordinator) (workerID : WorkerId) (now : Time) :
    (c.touch workerID now).backupsLaunched = c.backupsLaunched := by
  obtain ⟨_, same⟩ := touch_frame c workerID now
  rw [same]

@[simp] theorem markExited_backupsLaunched (c : Coordinator) (workerID : WorkerId) :
    (c.markExited workerID).backupsLaunched = c.backupsLaunched := by
  obtain ⟨_, same⟩ := markExited_frame c workerID
  rw [same]

@[simp] theorem finishLocked_backupsLaunched (c : Coordinator) (now : Time) :
    (c.finishLocked now).backupsLaunched = c.backupsLaunched := by
  unfold finishLocked
  split <;> rfl

theorem opened_backupsLaunched (opened : Opened c workerID clock kind base) : base.backupsLaunched = c.backupsLaunched := by
  cases opened with
  | map => exact touch_backupsLaunched ..
  | reduce =>
    unfold enterReduce
    split <;> exact touch_backupsLaunched ..

/-- A request either launches nothing or hands out what it picked. -/
theorem requestTask_picked (c : Coordinator) (workerID : WorkerId) (clock : Readings) :
    (c.requestTask workerID clock).2.backupsLaunched = c.backupsLaunched ∨
      ∃ kind base i c', c.jobErr = none ∧ Opened c workerID clock kind base ∧
        base.pickLocked kind workerID clock = (some i, c') ∧
          c.requestTask workerID clock = c'.assignLocked kind i workerID clock.assign := by
  have swept_same : (swept c workerID clock).backupsLaunched = c.backupsLaunched := opened_backupsLaunched .map
  unfold requestTask
  simp only
  split
  next => exact Or.inl (by simp)
  next healthy =>
    have healthy : c.jobErr = none := by simpa using healthy
    split
    next i c' picked => exact Or.inr ⟨.map, _, i, c', healthy, .map, picked, rfl⟩
    next c' picked =>
      obtain ⟨rfl, _⟩ := pickLocked_none picked
      split
      next => exact Or.inl swept_same
      next complete =>
        simp only [Bool.not_eq_true, Bool.not_eq_false'] at complete
        have opened : Opened c workerID clock .reduce _ := .reduce ((allDoneLocked_iff _).mp complete)
        have opened_same := opened_backupsLaunched opened
        unfold requestReduce
        split
        next i c' picked => exact Or.inr ⟨.reduce, _, i, c', healthy, opened, picked, rfl⟩
        next c' picked =>
          obtain ⟨rfl, _⟩ := pickLocked_none picked
          split
          next => exact Or.inl opened_same
          next =>
            refine Or.inl ?_
            rw [markExited_backupsLaunched, finishLocked_backupsLaunched]
            exact opened_same

/-- The list a request was served from, if it launched a backup, and the task it was launched for. -/
theorem requestTask_launch (launched : c.backupsLaunched < (c.requestTask workerID clock).2.backupsLaunched) :
    ∃ kind base i t, c.jobErr = none ∧ Opened c workerID clock kind base ∧ (base.tasks kind)[i]? = some t ∧
      Picked base kind workerID clock i t ∧ c.requestTask workerID clock =
        (handReply base t, handOut base kind i t true workerID clock.assign) := by
  rcases requestTask_picked c workerID clock with same | ⟨kind, base, i, c', healthy, opened, picked, handed⟩
  · rw [same] at launched
    exact absurd launched (lt_irrefl _)
  · obtain ⟨t, backup, found, free, result⟩ := pick_then_assign picked clock.assign
    rw [result] at handed
    cases free with
    | idle =>
      rw [handed, ← opened_backupsLaunched opened] at launched
      exact absurd launched (lt_irrefl _)
    | straggler running first other enabled busy =>
      unfold pickLocked at picked
      split at picked
      next j found =>
        obtain ⟨u, member, idle⟩ := idle_of_findIdx found
        exact absurd idle (busy u (List.mem_of_getElem? member))
      next =>
        rw [if_pos enabled] at picked
        obtain ⟨u, again, chosen⟩ := pickBackupLocked_picked picked
        cases again.symm.trans found
        exact ⟨kind, base, i, t, healthy, opened, found, chosen, handed⟩

/-- Only a request launches a backup. -/
theorem launch_input {call : Call} (launched : c.backupsLaunched < (c.serve call).2.backupsLaunched) :
    ∃ workerID clock, call = .requestTask workerID clock := by
  cases call with
  | register | reclaim => exact absurd launched (lt_irrefl _)
  | heartbeat workerID now =>
    simp only [serve, heartbeat, touch_backupsLaunched] at launched
    exact absurd launched (lt_irrefl _)
  | requestTask workerID clock => exact ⟨workerID, clock, rfl⟩
  | reportTask args clock =>
    have outcome := reportTask_cases c args clock
    simp only [serve] at launched
    generalize (c.reportTask args clock).1 = reply at outcome
    generalize (c.reportTask args clock).2 = last at outcome launched
    have set_same (i : Nat) (t : Task) :
        ((c.touch args.workerID clock.seen).setTask args.kind i t).backupsLaunched = c.backupsLaunched := by
      obtain ⟨_, _, same, _⟩ := setTask_frame (c.touch args.workerID clock.seen) args.kind i t
      rw [same]
      exact touch_backupsLaunched ..
    cases outcome with
    | ignored =>
      rw [touch_backupsLaunched] at launched
      exact absurd launched (lt_irrefl _)
    | @failed i t =>
      simp only [reportFailure] at launched
      split at launched
      · unfold failLocked at launched
        split at launched <;> exact absurd (launched.trans_eq (set_same ..)) (lt_irrefl _)
      · exact absurd (launched.trans_eq (set_same ..)) (lt_irrefl _)
    | @accepted i t =>
      simp only [reportSuccess] at launched
      split at launched
      · rw [finishLocked_backupsLaunched] at launched
        exact absurd (launched.trans_eq (set_same ..)) (lt_irrefl _)
      · exact absurd (launched.trans_eq (set_same ..)) (lt_irrefl _)

/-- A backup is launched in the phase its task is for, and that phase is under way. -/
theorem launch_phase (phased : Phased c) (healthy : c.jobErr = none) (opened : Opened c workerID clock kind base)
    (found : (base.tasks kind)[i]? = some t) (picked : Picked base kind workerID clock i t) :
    ledger base = ledger c ∧ phaseKind c.phase = kind ∧ rank c.phase < 2 := by
  have running := picked.eligible.running
  have same : ledger base = ledger c := by
    refine (opened_ledger opened).resolve_right ?_
    rintro ⟨_, _, begun⟩
    simp only [ledger, Prod.mk.injEq] at begun
    have enough := picked.enough
    rw [begun.2.2] at enough
    exact absurd enough (by decide)
  have unfinished : ¬AllDone c := by
    intro complete
    have done := (opened_allDone opened).mpr complete kind t (List.mem_of_getElem? found)
    rw [running] at done
    cases done
  have phase : base.phase = c.phase := congrArg Prod.fst same
  refine ⟨same, ?_⟩
  unfold Phased at phased
  cases held : c.phase with
  | map =>
    cases opened with
    | map => exact ⟨rfl, by decide⟩
    | reduce =>
      rw [held] at phase
      unfold enterReduce at phase
      split at phase
      · cases phase
      next elsewhere => exact absurd phase elsewhere
  | reduce =>
    rw [held] at phased
    cases opened with
    | map =>
      have done := (PhaseProgress.opened_maps .map).mpr phased t (List.mem_of_getElem? found)
      rw [running] at done
      cases done
    | reduce => exact ⟨rfl, by decide⟩
  | done =>
    rw [held] at phased
    exact absurd phased unfinished
  | failed =>
    rw [held, healthy] at phased
    cases phased

end Launching
section Flags
variable {c : Coordinator} {kind : TaskKind} {i : Nat} {t t' : Task} {call : Call}

/-- A sweep takes the flag away only with the task. -/
theorem reclaimTask_backup (cfg : Config) (workers : FiniteMap WorkerId Worker) (now : Time) (t : Task) :
    (reclaimTask cfg workers now t).backup = t.backup ∨
      t.state = .running ∧ (reclaimTask cfg workers now t).state = .idle := by
  unfold reclaimTask
  split
  next => exact Or.inl rfl
  next running =>
    simp only [ne_eq, not_not] at running
    split
    next => exact Or.inr ⟨running, rfl⟩
    next => exact Or.inl rfl

/-- Handing out a task takes the flag from none. -/
theorem handOut_backup {base : Coordinator} {served : TaskKind} {j : Nat} {u v : Task} {backup : Bool}
    {workerID : WorkerId} {now : Time} (chosen : (base.tasks served)[j]? = some v)
    (place : (base.tasks kind)[i]? = some u) (flag : u.backup = true)
    (later : ((handOut base served j v backup workerID now).tasks kind)[i]? = some t') : t'.backup = true := by
  rw [handOut_tasks] at later
  split at later
  next same =>
    rw [same] at place
    rw [List.getElem?_set] at later
    split at later
    next here =>
      rw [here] at chosen
      cases place.symm.trans chosen
      split at later
      · cases later
        simp [handed, assigned, flag]
      · cases later
    next =>
      cases place.symm.trans later
      exact flag
  next =>
    cases place.symm.trans later
    exact flag

/-- Only being reclaimed takes the flag from a task. -/
theorem backup_kept (found : (c.tasks kind)[i]? = some t) (flag : t.backup = true)
    (calm : ¬Reclaimed (event serve c call) kind i) (later : ((c.serve call).2.tasks kind)[i]? = some t') :
    t'.backup = true := by
  have swept_flag {base : Coordinator} {cfg : Config} {workers : FiniteMap WorkerId Worker} {now : Time}
      (by_sweep : sweptBy c call = some base) (place : (base.tasks kind)[i]? = some (reclaimTask cfg workers now t)) :
      (reclaimTask cfg workers now t).backup = true := by
    rcases reclaimTask_backup cfg workers now t with same | ⟨running, idle⟩
    · rw [same, flag]
    · exact absurd ⟨base, t, _, by_sweep, found, running, place, idle⟩ calm
  cases call with
  | register host now =>
    have same : ((c.serve (.register host now)).2.tasks kind)[i]? = (c.tasks kind)[i]? := by cases kind <;> rfl
    cases (same.trans found).symm.trans later
    exact flag
  | heartbeat workerID now =>
    have same : ((c.serve (.heartbeat workerID now)).2.tasks kind)[i]? = (c.tasks kind)[i]? := by simp [serve, heartbeat]
    cases (same.trans found).symm.trans later
    exact flag
  | reclaim now =>
    have place : ((c.reclaimLocked now).tasks kind)[i]? = some (reclaimTask c.cfg (c.expireWorkers now) now t) := by
      simp [found]
    cases place.symm.trans later
    exact swept_flag rfl place
  | reportTask args clock =>
    obtain ⟨u, place, step⟩ := serve_step (.reportTask args clock) found
    cases place.symm.trans later
    generalize (c.serve (.reportTask args clock)).1 = reply at step
    cases step with
    | kept | failed | accepted => exact flag
    | reclaimed _ _ silent => exact absurd rfl (silent args clock)
  | requestTask workerID clock =>
    have outcome := requestTask_cases c workerID clock
    simp only [serve] at later
    generalize (c.requestTask workerID clock).1 = reply at outcome
    generalize (c.requestTask workerID clock).2 = last at outcome later
    have opened_flag {served base} (healthy : c.jobErr = none) (opened : Opened c workerID clock served base) :
        ∃ u, (base.tasks kind)[i]? = some u ∧ u.backup = true := by
      have by_sweep : sweptBy c (.requestTask workerID clock) = some (swept c workerID clock) := by simp [sweptBy, healthy]
      exact ⟨_, opened_task opened found, swept_flag by_sweep (opened_task .map found)⟩
    cases outcome with
    | aborted =>
      rw [markExited_tasks, touch_tasks, found] at later
      cases later
      exact flag
    | waiting healthy opened =>
      obtain ⟨u, place, kept⟩ := opened_flag healthy opened
      cases place.symm.trans later
      exact kept
    | finished healthy opened =>
      obtain ⟨u, place, kept⟩ := opened_flag healthy opened
      rw [markExited_tasks, finishLocked_tasks, place] at later
      cases later
      exact kept
    | @handed served base j v backup healthy opened chosen =>
      obtain ⟨u, place, kept⟩ := opened_flag healthy opened
      exact handOut_backup chosen place kept later

/-- The call launches a backup of the task. -/
def Launches (e : Event) (kind : TaskKind) (i : Nat) : Prop :=
  e.before.backupsLaunched < e.after.backupsLaunched ∧ HandsOut e kind i

theorem handReply_names {base : Coordinator} {workerID : WorkerId} {clock : Readings} {groups : List (List GoString)}
    (indexed : Indexed groups c) (opened : Opened c workerID clock kind base) (found : (base.tasks kind)[i]? = some t) :
    (handReply base t).kind = kind ∧ (handReply base t).taskID = i := by
  obtain ⟨u, origin, rfl⟩ := opened_task_back opened found
  obtain ⟨id, named⟩ := indexed.tasks kind i u origin
  simp only [handReply, reclaimTask_identity, id, named, and_self]

theorem launches_flag {groups : List (List GoString)} (indexed : Indexed groups c)
    (launches : Launches (event serve c call) kind i) :
    ∃ t, ((c.serve call).2.tasks kind)[i]? = some t ∧ t.backup = true := by
  obtain ⟨launched, reply, answer, sameKind, sameId⟩ := launches
  obtain ⟨workerID, clock, rfl⟩ := launch_input launched
  have launched : c.backupsLaunched < (c.requestTask workerID clock).2.backupsLaunched := launched
  obtain ⟨served, base, j, t, _, opened, found, _, result⟩ := requestTask_launch launched
  have handed_reply : handReply base t = reply := (congrArg Prod.fst result).symm.trans (Reply.task.inj answer)
  obtain ⟨named, place⟩ := handReply_names indexed opened found
  rw [handed_reply] at named place
  obtain rfl : served = kind := named.symm.trans sameKind
  obtain rfl : j = i := Int.ofNat.inj (place.symm.trans sameId)
  have inside := (List.getElem?_eq_some_iff.mp found).1
  refine ⟨handed t true workerID clock.assign, ?_, by simp [handed, assigned]⟩
  change ((c.requestTask workerID clock).2.tasks served)[j]? = _
  rw [result, handOut_tasks, if_pos rfl, List.getElem?_set_self inside]

/-- Without being reclaimed the task keeps its flag. -/
theorem flag_kept_run {calls : List Call} (found : (c.tasks kind)[i]? = some t) (flag : t.backup = true)
    (calm : ∀ e ∈ history serve c calls, ¬Reclaimed e kind i) :
    ∃ t', ((after serve c calls).tasks kind)[i]? = some t' ∧ t'.backup = true := by
  induction calls generalizing c t with
  | nil => exact ⟨t, found, flag⟩
  | cons call calls ih =>
    obtain ⟨first, others⟩ := List.forall_mem_cons.mp calm
    obtain ⟨u, later, _⟩ := serve_step call found
    exact ih later (backup_kept found flag first later) others

/-- A task that has no flag was reclaimed after every backup of it. -/
theorem reclaimed_since {cfg : Config} {groups : List (List GoString)} {now : Time} {calls : List Call}
    (found : ((after serve (new cfg groups now) calls).tasks kind)[i]? = some t) (unflagged : t.backup = false)
    {first second : List Event} {launch : Event} (cut : history serve (new cfg groups now) calls = first ++ launch :: second)
    (launches : Launches launch kind i) : ∃ reclaim ∈ second, Reclaimed reclaim kind i := by
  by_contra never
  obtain ⟨before, call, rest, rfl, rfl, rfl, rfl⟩ := history_split serve cut
  obtain ⟨u, place, flag⟩ := launches_flag (.after_run cfg groups now before) launches
  obtain ⟨v, later, kept⟩ := flag_kept_run place flag fun e member reclaimed => never ⟨e, member, reclaimed⟩
  rw [after_append, after_cons, later] at found
  cases found
  rw [unflagged] at kept
  cases kept

end Flags

section Runs
variable {cfg : Config} {groups : List (List GoString)} {now : Time} {calls : List Call}

/-- What the durations are when a backup is launched. -/
structure Evidence (earlier : List Event) (c : Coordinator) (kind : TaskKind) : Prop where
  enough : 2 ≤ c.durations.length
  ofPhase : c.durations = (acceptedIn c.phase earlier).map ReportTaskArgs.elapsed
  ofKind : c.durations = ((acceptedReports earlier).filter fun args => args.kind = kind).map ReportTaskArgs.elapsed

/-- The backup is launched on the evidence of the phase, and for the task that has run longest of those
that run too long; if the task had a backup before, it was reclaimed since. -/
def Justified (earlier : List Event) (e : Event) : Prop :=
  ∃ workerID clock kind base, ∃ (i : Nat) (t : Task), e.input = .requestTask workerID clock ∧
    Opened e.before workerID clock kind base ∧ (base.tasks kind)[i]? = some t ∧ HandsOut e kind i ∧
    Straggler base kind workerID clock i t ∧ base.durations = e.after.durations ∧ Evidence earlier e.after kind ∧
    ∀ first launch second, earlier = first ++ launch :: second → Launches launch kind i →
      ∃ reclaim ∈ second, Reclaimed reclaim kind i

/-- What `time.Since` gives for a task fits an int64. -/
def Representable (e : Event) : Prop :=
  ∀ workerID clock kind i t, e.input = .requestTask workerID clock → (e.before.tasks kind)[i]? = some t →
    clock.probe kind i - t.started < 0x8000000000000000

theorem opened_cfg {c base : Coordinator} {workerID : WorkerId} {clock : Readings} {kind : TaskKind}
    (opened : Opened c workerID clock kind base) : base.cfg = c.cfg := by
  cases opened with
  | map => exact touch_cfg ..
  | reduce =>
    unfold enterReduce
    split <;> exact touch_cfg ..

theorem reclaimTask_started (cfg : Config) (workers : FiniteMap WorkerId Worker) (now : Time) (t : Task) :
    (reclaimTask cfg workers now t).started = t.started := by
  unfold reclaimTask
  split
  · rfl
  · split <;> rfl

/-- A backup is launched as it should be exactly if the median times the threshold fits an int64 when the request
comes in. -/
theorem backup_on_evidence (honest : reportsAssigned [] (history serve (new cfg groups now) calls) = true)
    {earlier later : List Event} {e : Event} (cut : history serve (new cfg groups now) calls = earlier ++ e :: later)
    (launched : e.before.backupsLaunched < e.after.backupsLaunched) :
    ((e.before.medianDurationLocked : ℚ) * cfg.backupThreshold < 0x8000000000000000 → Justified earlier e) ∧
      (Representable e → Justified earlier e →
        (e.before.medianDurationLocked : ℚ) * cfg.backupThreshold < 0x8000000000000000) := by
  obtain ⟨before, call, rest, rfl, rfl, rfl, _⟩ := history_split serve cut
  have indexed := Indexed.after_run cfg groups now before
  have phased := phased_after cfg groups now before
  have durations := durations_in_phase cfg groups now before
  have configured := config_after cfg groups now before
  rw [cut] at honest
  have kinds := acceptedIn_kind (assigned_earlier honest)
  have since {kind i t} := @reclaimed_since kind i t cfg groups now before
  generalize history serve (new cfg groups now) before = earlier at *
  generalize after serve (new cfg groups now) before = c at *
  obtain ⟨workerID, clock, rfl⟩ := launch_input launched
  have launched : c.backupsLaunched < (c.requestTask workerID clock).2.backupsLaunched := launched
  obtain ⟨kind, base, i, t, healthy, opened, found, picked, result⟩ := requestTask_launch launched
  obtain ⟨same, serves, working⟩ := launch_phase phased healthy opened found picked
  have last : ledger (c.requestTask workerID clock).2 = ledger base := by rw [result, handOut_ledger]
  have median {other : Coordinator} (same : other.durations = c.durations) :
      other.medianDurationLocked = c.medianDurationLocked := by
    rw [medianDurationLocked, same, medianDurationLocked]
  simp only [ledger, Prod.mk.injEq] at same last
  refine ⟨fun fits => ?_, fun representable justified => ?_⟩
  · obtain ⟨u, origin, swept⟩ := opened_task_back opened found
    have unflagged : u.backup = false := by
      rcases reclaimTask_backup c.cfg ((c.touch workerID clock.seen).expireWorkers clock.reclaim) clock.reclaim u with
        kept | ⟨_, idle⟩
      · rw [← kept, swept]
        exact picked.eligible.first
      · rw [swept, picked.eligible.running] at idle
        cases idle
    refine ⟨workerID, clock, kind, base, i, t, rfl, opened, found, ?_, picked.straggler ?_, last.2.2.symm, ?_, ?_⟩
    · obtain ⟨named, place⟩ := handReply_names indexed opened found
      exact ⟨handReply base t, congrArg (Reply.task ∘ Prod.fst) result, named, place⟩
    · rw [median same.2.2, opened_cfg opened, configured]
      exact fits
    · constructor
      · exact picked.enough.trans_eq (congrArg List.length last.2.2.symm)
      · change (c.requestTask workerID clock).2.durations = (acceptedIn (c.requestTask workerID clock).2.phase _).map _
        rw [last.2.2, last.1, same.2.2, same.1]
        exact durations working
      · change (c.requestTask workerID clock).2.durations = _
        rw [last.2.2, same.2.2, durations working, kinds working, serves]
    · intro first launch second split launches
      exact since origin unflagged split launches
  · obtain ⟨other, again, served, opening, j, u, asked, opens, here, _, straggler, evidence, _⟩ := justified
    cases asked
    obtain ⟨v, origin, swept⟩ := opened_task_back opens here
    have short := representable workerID clock served j v rfl origin
    rw [← reclaimTask_started, swept] at short
    have fits := straggler.fits short
    have kept : opening.durations = c.durations := evidence.trans (last.2.2.trans same.2.2)
    have settings : opening.cfg = cfg := (opened_cfg opens).trans configured
    rwa [median kept, settings] at fits

/-- The run up to the backup. -/
def twoDone : List Call := backedUp.dropLast

/-- Two map tasks took five units each when the third worker comes, and the first task has run for a hundred. -/
theorem backup_on_evidence_third : Justified (history serve (new eagerBackups [[], [], []] 0) twoDone)
    (event serve (after serve (new eagerBackups [[], [], []] 0) twoDone) (.requestTask "worker-3" (always 100))) := by
  have cut := history_concat serve (new eagerBackups [[], [], []] 0) twoDone (.requestTask "worker-3" (always 100))
  have honest : reportsAssigned [] (history serve (new eagerBackups [[], [], []] 0)
      (twoDone ++ [.requestTask "worker-3" (always 100)])) = true := by decide +kernel
  have launched : (after serve (new eagerBackups [[], [], []] 0) twoDone).backupsLaunched <
      ((after serve (new eagerBackups [[], [], []] 0) twoDone).serve
        (.requestTask "worker-3" (always 100))).2.backupsLaunched := by
    decide +kernel
  exact (backup_on_evidence honest cut launched).1 (by decide +kernel)

/-- A second for the median, and a factor the flag accepts. -/
private def hugeFactor : Config := { eagerBackups with backupThreshold := 10000000000 }

private def secondSuccess (taskID : Int) : ReportTaskArgs := { quickSuccess "worker-2" taskID 1 with elapsed := 1000000000 }

private def secondsDone : List Call :=
  [.register "host" 0, .register "host" 0, .register "host" 0, .requestTask "worker-1" (always 0),
   .requestTask "worker-2" (always 0), .reportTask (secondSuccess 1) (always 5),
   .requestTask "worker-2" (always 5), .reportTask (secondSuccess 2) (always 10)]

/-- The limit is ten milliards of seconds, and a task that has run for ninety nanoseconds is backed up. -/
theorem backup_on_evidence_fails : ¬ ∀ (cfg : Config) (groups : List (List GoString)) (now : Time) (calls : List Call),
    reportsAssigned [] (history serve (new cfg groups now) calls) = true →
      ∀ earlier e later, history serve (new cfg groups now) calls = earlier ++ e :: later →
        e.before.backupsLaunched < e.after.backupsLaunched → Justified earlier e := by
  intro every
  have cut := history_concat serve (new hugeFactor [[], [], []] 0) secondsDone (.requestTask "worker-3" (always 100))
  have honest : reportsAssigned [] (history serve (new hugeFactor [[], [], []] 0)
      (secondsDone ++ [.requestTask "worker-3" (always 100)])) = true := by decide +kernel
  have launched : (after serve (new hugeFactor [[], [], []] 0) secondsDone).backupsLaunched <
      ((after serve (new hugeFactor [[], [], []] 0) secondsDone).serve
        (.requestTask "worker-3" (always 100))).2.backupsLaunched := by
    decide +kernel
  obtain ⟨_, _, kind, base, i, t, asked, opened, found, _, straggler, kept, _⟩ := every _ _ _ _ honest _ _ _ cut launched
  cases asked
  have far : ¬(base.medianDurationLocked : ℚ) * base.cfg.backupThreshold < 0x8000000000000000 := by
    have median : base.medianDurationLocked =
        ((after serve (new hugeFactor [[], [], []] 0) secondsDone).serve
          (.requestTask "worker-3" (always 100))).2.medianDurationLocked := by
      rw [medianDurationLocked, kept, medianDurationLocked]
      rfl
    rw [median, opened_cfg opened]
    decide +kernel
  obtain ⟨u, origin, swept⟩ := opened_task_back opened found
  have started : 0 ≤ u.started := by
    have all : ∀ u ∈ (after serve (new hugeFactor [[], [], []] 0) secondsDone).tasks kind, 0 ≤ u.started := by
      cases kind with
      | map => decide +kernel
      | reduce => decide +kernel
      | _ => exact fun u member => absurd member List.not_mem_nil
    exact all u (List.mem_of_getElem? origin)
  refine far (straggler.fits ?_)
  rw [← swept, reclaimTask_started]
  have low : (0 : Int) ≤ u.started := started
  have short : (100 : Int) - u.started < 0x8000000000000000 := by omega
  exact short

end Runs
end FromScratch.Proofs.BackupEvidence
