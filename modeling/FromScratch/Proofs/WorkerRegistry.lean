import FromScratch.Proofs.JobOutcome

/-! The coordinator's records of its workers. A record follows from the worker's
own calls and the sweeps alone, whatever the other workers do. -/

namespace FromScratch.Proofs.WorkerRegistry
open FromScratch.MapReduce Coordinator Lib Machine CoordinatorSteps TaskLifecycle Acceptance JobOutcome

def workerName (n : Nat) : WorkerId := "worker-" ++ toString n

theorem workerName_injective : Function.Injective workerName := by
  intro m n same
  have digits : (toString m).toList = (toString n).toList := by simpa [workerName] using congrArg String.toList same
  simp only [toString, Nat.repr, String.toList_ofList] at digits
  rw [← Nat.ofDigitChars_ten_toDigits (n := m), digits, Nat.ofDigitChars_ten_toDigits]

/-- The reading at which a call shows that the worker is there. -/
def contact (id : WorkerId) : Call → Option Time
  | .heartbeat workerID now => if workerID = id then some now else none
  | .requestTask workerID clock => if workerID = id then some clock.seen else none
  | .reportTask args clock => if args.workerID = id then some clock.seen else none
  | _ => none

/-- The reading against which an event holds every worker. -/
def sweep (e : Event) : Option Time :=
  match e.input with
  | .reclaim now => some now
  | .requestTask _ clock => if e.before.jobErr.isSome then none else some clock.reclaim
  | _ => none

/-- The worker is told to exit. -/
def dismisses (id : WorkerId) (e : Event) : Bool :=
  match e.input, e.output with
  | .requestTask workerID _, .task reply => workerID == id && reply.kind == .exit
  | _, _ => false

def greet (w : Worker) : Option Time → Worker
  | some now => { w with lastSeen := now, alive := true }
  | none => w

def expire (timeout : Duration) (w : Worker) : Option Time → Worker
  | some now => if w.alive && decide (timeout < now - w.lastSeen) then { w with alive := false } else w
  | none => w

def dismiss (w : Worker) (told : Bool) : Worker := if told then { w with exited := true } else w

@[simp] theorem greet_lastSeen (w : Worker) (met : Option Time) : (greet w met).lastSeen = met.getD w.lastSeen := by
  cases met <;> rfl

@[simp] theorem greet_exited (w : Worker) (met : Option Time) : (greet w met).exited = w.exited := by cases met <;> rfl

@[simp] theorem expire_lastSeen (timeout : Duration) (w : Worker) (now : Option Time) :
    (expire timeout w now).lastSeen = w.lastSeen := by
  cases now with
  | none => rfl
  | some now => simp only [expire]; split <;> rfl

@[simp] theorem expire_exited (timeout : Duration) (w : Worker) (now : Option Time) :
    (expire timeout w now).exited = w.exited := by
  cases now with
  | none => rfl
  | some now => simp only [expire]; split <;> rfl

@[simp] theorem dismiss_lastSeen (w : Worker) (told : Bool) : (dismiss w told).lastSeen = w.lastSeen := by
  cases told <;> rfl

@[simp] theorem dismiss_exited (w : Worker) (told : Bool) : (dismiss w told).exited = (w.exited || told) := by
  cases told <;> simp [dismiss]

/-- What an event makes of a record. -/
def follow (timeout : Duration) (id : WorkerId) (w : Worker) (e : Event) : Worker :=
  dismiss (expire timeout (greet w (contact id e.input)) (sweep e)) (dismisses id e)

section Lookup
variable (c : Coordinator) (id : WorkerId)

theorem touch_lookup (workerID : WorkerId) (now : Time) : (c.touch workerID now).workers.lookup id =
    (c.workers.lookup id).map fun w => greet w (if workerID = id then some now else none) := by
  unfold touch
  by_cases same : workerID = id
  · subst same
    cases found : c.workers.lookup workerID with
    | none => simpa using found
    | some w => simp [greet]
  · cases c.workers.lookup workerID with
    | none => simp [same, greet]
    | some w => simp [same, greet, Ne.symm same]

theorem markExited_lookup (workerID : WorkerId) : (c.markExited workerID).workers.lookup id =
    (c.workers.lookup id).map fun w => dismiss w (workerID == id) := by
  unfold markExited
  by_cases same : workerID = id
  · subst same
    cases found : c.workers.lookup workerID with
    | none => simpa using found
    | some w => simp [dismiss]
  · cases c.workers.lookup workerID with
    | none => simp [same, dismiss]
    | some w => simp [same, dismiss, Ne.symm same]

theorem reclaimLocked_lookup (now : Time) : (c.reclaimLocked now).workers.lookup id =
    (c.workers.lookup id).map fun w => expire c.cfg.workerTimeout w (some now) := by
  have table : (c.reclaimLocked now).workers = FiniteMap.mapValues (fun _ => c.expireWorker now) c.workers := rfl
  rw [table, FiniteMap.lookup_mapValues]
  rfl

end Lookup

private theorem opened_lookup {c base : Coordinator} {workerID : WorkerId} {clock : Readings} {kind : TaskKind}
    (opened : Opened c workerID clock kind base) (id : WorkerId) :
    base.workers.lookup id = (c.workers.lookup id).map fun w =>
      expire c.cfg.workerTimeout (greet w (if workerID = id then some clock.seen else none)) (some clock.reclaim) := by
  have swept : (swept c workerID clock).workers.lookup id = (c.workers.lookup id).map fun w =>
      expire c.cfg.workerTimeout (greet w (if workerID = id then some clock.seen else none)) (some clock.reclaim) := by
    rw [CoordinatorSteps.swept, reclaimLocked_lookup, touch_lookup, Option.map_map, touch_cfg]
    rfl
  cases opened with
  | map => exact swept
  | reduce =>
    unfold enterReduce
    split <;> exact swept

private theorem handReply_kind {groups : List (List GoString)} {c base : Coordinator} (indexed : Indexed groups c)
    {workerID : WorkerId} {clock : Readings} {kind : TaskKind} {i : Nat} {t : Task}
    (opened : Opened c workerID clock kind base) (found : (base.tasks kind)[i]? = some t) :
    (handReply base t).kind ≠ .exit := by
  obtain ⟨u, origin, rfl⟩ := opened_task_back opened found
  simp only [handReply, reclaimTask_identity, (indexed.tasks kind i u origin).2]
  cases opened <;> simp

/-- A record after a call, if the call does not register a worker of that name. -/
theorem serve_follow {groups : List (List GoString)} {c : Coordinator} (indexed : Indexed groups c) (call : Call)
    (id : WorkerId) (other : ∀ host now, call = .register host now → id ≠ workerName (c.nextID + 1)) :
    (c.serve call).2.workers.lookup id =
      (c.workers.lookup id).map fun w => follow c.cfg.workerTimeout id w (event serve c call) := by
  cases call with
  | register host now =>
    have table : (c.serve (.register host now)).2.workers.lookup id = c.workers.lookup id := by
      simp only [serve, register, FiniteMap.lookup_insert_eq]
      exact if_neg (other host now rfl)
    rw [table]
    cases c.workers.lookup id <;> rfl
  | heartbeat workerID now =>
    simp only [serve, heartbeat, touch_lookup]
    rfl
  | reclaim now =>
    simp only [serve, reclaimLocked_lookup]
    rfl
  | requestTask workerID clock =>
    have outcome := requestTask_cases c workerID clock
    simp only [event, serve]
    generalize (c.requestTask workerID clock).1 = reply at outcome ⊢
    generalize (c.requestTask workerID clock).2 = last at outcome ⊢
    cases outcome with
    | aborted failed =>
      rw [markExited_lookup, touch_lookup, Option.map_map]
      cases c.workers.lookup id with
      | none => rfl
      | some w => simp [follow, contact, sweep, dismisses, failed, expire]
    | waiting running opened =>
      rw [opened_lookup opened]
      cases c.workers.lookup id with
      | none => rfl
      | some w => simp [follow, contact, sweep, dismisses, running, dismiss, waitReply]
    | finished running opened =>
      rw [markExited_lookup, finishLocked_workers, opened_lookup opened, Option.map_map]
      cases c.workers.lookup id with
      | none => rfl
      | some w => simp [follow, contact, sweep, dismisses, running]
    | @handed kind base i t backup running opened found free =>
      have working := handReply_kind indexed opened found
      have table : (handOut base kind i t backup workerID clock.assign).workers = base.workers := setTask_workers ..
      rw [table, opened_lookup opened]
      cases c.workers.lookup id with
      | none => rfl
      | some w => simp [follow, contact, sweep, dismisses, running, dismiss, working]
  | reportTask args clock =>
    have outcome := reportTask_cases c args clock
    simp only [event, serve]
    generalize (c.reportTask args clock).1 = reply at outcome ⊢
    generalize (c.reportTask args clock).2 = last at outcome ⊢
    cases outcome with
    | ignored => rw [touch_lookup]; rfl
    | failed => rw [reportFailure_workers, touch_lookup]; rfl
    | accepted => rw [reportSuccess_workers, touch_lookup]; rfl

private theorem opened_nextID {c base : Coordinator} {workerID : WorkerId} {clock : Readings} {kind : TaskKind}
    (opened : Opened c workerID clock kind base) : base.nextID = c.nextID := by
  have touched : (c.touch workerID clock.seen).nextID = c.nextID := by
    obtain ⟨_, same⟩ := touch_frame c workerID clock.seen
    rw [same]
  cases opened with
  | map => exact touched
  | reduce =>
    unfold enterReduce
    split <;> exact touched

private theorem markExited_nextID (c : Coordinator) (workerID : WorkerId) : (c.markExited workerID).nextID = c.nextID := by
  obtain ⟨_, same⟩ := markExited_frame c workerID
  rw [same]

private theorem finishLocked_nextID (c : Coordinator) (now : Time) : (c.finishLocked now).nextID = c.nextID := by
  unfold finishLocked
  split <;> rfl

private theorem setTask_nextID (c : Coordinator) (kind : TaskKind) (i : Nat) (t : Task) :
    (c.setTask kind i t).nextID = c.nextID := by
  obtain ⟨_, _, same, _⟩ := setTask_frame c kind i t
  rw [same]

/-- Only a registration uses up a number. -/
theorem serve_nextID (c : Coordinator) {call : Call} (other : ∀ host now, call ≠ .register host now) :
    (c.serve call).2.nextID = c.nextID := by
  have touched (workerID : WorkerId) (now : Time) : (c.touch workerID now).nextID = c.nextID := by
    obtain ⟨_, same⟩ := touch_frame c workerID now
    rw [same]
  cases call with
  | register host now => exact absurd rfl (other host now)
  | heartbeat workerID now => exact touched workerID now
  | reclaim now => rfl
  | requestTask workerID clock =>
    have outcome := requestTask_cases c workerID clock
    simp only [serve]
    generalize (c.requestTask workerID clock).1 = reply at outcome
    generalize (c.requestTask workerID clock).2 = last at outcome ⊢
    cases outcome with
    | aborted => rw [markExited_nextID, touched]
    | waiting _ opened => exact opened_nextID opened
    | finished _ opened => rw [markExited_nextID, finishLocked_nextID, opened_nextID opened]
    | handed _ opened => exact (setTask_nextID ..).trans (opened_nextID opened)
  | reportTask args clock =>
    have outcome := reportTask_cases c args clock
    simp only [serve]
    generalize (c.reportTask args clock).1 = reply at outcome
    generalize (c.reportTask args clock).2 = last at outcome ⊢
    cases outcome with
    | ignored => exact touched ..
    | failed =>
      simp only [reportFailure]
      split
      · unfold failLocked
        split <;> exact (setTask_nextID ..).trans (touched ..)
      · exact (setTask_nextID ..).trans (touched ..)
    | accepted =>
      simp only [reportSuccess]
      split
      · exact (finishLocked_nextID ..).trans ((setTask_nextID ..).trans (touched ..))
      · exact (setTask_nextID ..).trans (touched ..)

/-- The name a registration is answered with. -/
def registration (e : Event) : Option WorkerId :=
  match e.output with
  | .registered reply => some reply.workerID
  | _ => none

def registrations (run : List Event) : List WorkerId := run.filterMap registration

/-- The reading at which an event shows that the worker is there. -/
def seenAt (id : WorkerId) (e : Event) : Option Time :=
  match e.input with
  | .register _ now => if registration e = some id then some now else none
  | call => contact id call

/-- A worker on record is told to exit. -/
def dismissed (id : WorkerId) (e : Event) : Bool := dismisses id e && decide (id ∈ e.before.workers)

/-- A worker's record and what the run says of the worker. -/
structure Recorded (run : List Event) (id : WorkerId) (w : Worker) : Prop where
  registered : id ∈ registrations run
  seen : (run.filterMap (seenAt id)).getLast? = some w.lastSeen
  exited : w.exited = run.any (dismissed id)

theorem Recorded.followed {run : List Event} {id : WorkerId} {w : Worker} (recorded : Recorded run id w) {e : Event}
    (timeout : Duration) (known : id ∈ e.before.workers) (kept : seenAt id e = contact id e.input) :
    Recorded (run ++ [e]) id (follow timeout id w e) := by
  have seen : (follow timeout id w e).lastSeen = (contact id e.input).getD w.lastSeen := by simp [follow]
  have exited : (follow timeout id w e).exited = (w.exited || dismisses id e) := by simp [follow]
  constructor
  · rw [registrations, List.filterMap_append]
    exact List.mem_append_left _ recorded.registered
  · rw [List.filterMap_append, seen, List.getLast?_append, recorded.seen]
    cases met : contact id e.input <;> simp [kept, met]
  · rw [exited, recorded.exited, List.any_append]
    simp [dismissed, known]

theorem register_lookup (c : Coordinator) (host : String) (now : Time) :
    (c.serve (.register host now)).2.workers.lookup (workerName (c.nextID + 1)) =
      some { id := workerName (c.nextID + 1), host := host, lastSeen := now, alive := true } :=
  AList.lookup_insert c.workers

theorem register_seenAt (c : Coordinator) (host : String) (now : Time) (id : WorkerId) :
    seenAt id (event serve c (.register host now)) = if workerName (c.nextID + 1) = id then some now else none := by
  have name : registration (event serve c (.register host now)) = some (workerName (c.nextID + 1)) := rfl
  change (if registration (event serve c (.register host now)) = some id then some now else none) = _
  rw [name]
  simp only [Option.some.injEq]

/-- What the table of workers says of a run. -/
structure Registry (run : List Event) (c : Coordinator) : Prop where
  names : registrations run = (List.range c.nextID).map fun n => workerName (n + 1)
  known : ∀ id w, c.workers.lookup id = some w → Recorded run id w
  present : ∀ id ∈ registrations run, id ∈ c.workers
  earlier : ∀ e ∈ run, ∀ id ∈ e.before.workers, id ∈ registrations run

theorem Registry.fresh {run : List Event} {c : Coordinator} (registry : Registry run c) :
    workerName (c.nextID + 1) ∉ registrations run := by
  rw [registry.names]
  intro used
  obtain ⟨n, inside, same⟩ := List.mem_map.mp used
  have := workerName_injective same
  have := List.mem_range.mp inside
  omega

private theorem Registry.known_listed {run : List Event} {c : Coordinator} (registry : Registry run c) {id : WorkerId}
    (known : id ∈ c.workers) : id ∈ registrations run := by
  obtain ⟨w, found⟩ := (FiniteMap.mem_iff_lookup _ _).mp known
  exact (registry.known id w found).registered

private theorem Registry.registered {run : List Event} {c : Coordinator} (registry : Registry run c) (host : String)
    (now : Time) :
    Registry (run ++ [event serve c (.register host now)]) (c.serve (.register host now)).2 := by
  have name : registration (event serve c (.register host now)) = some (workerName (c.nextID + 1)) := rfl
  have table : (c.serve (.register host now)).2.workers = c.workers.insert (workerName (c.nextID + 1))
      { id := workerName (c.nextID + 1), host := host, lastSeen := now, alive := true } := rfl
  have count : (c.serve (.register host now)).2.nextID = c.nextID + 1 := rfl
  have list : registrations (run ++ [event serve c (.register host now)]) =
      registrations run ++ [workerName (c.nextID + 1)] := by
    simp [registrations, name]
  have stays {id : WorkerId} (known : id ∈ c.workers) :
      id ∈ registrations (run ++ [event serve c (.register host now)]) := by
    rw [list]
    exact List.mem_append_left _ (registry.known_listed known)
  constructor
  · rw [list, count, List.range_succ, List.map_append, registry.names]
    rfl
  · intro id w found
    rw [table, FiniteMap.lookup_insert_eq] at found
    split at found
    next same =>
      cases found
      subst same
      refine ⟨by rw [list]; exact List.mem_append_right _ (List.mem_singleton_self _), ?_, ?_⟩
      · rw [List.filterMap_append, List.getLast?_append]
        simp [register_seenAt]
      · symm
        rw [List.any_eq_false]
        intro e member told
        simp only [dismissed, Bool.and_eq_true, decide_eq_true_eq] at told
        rcases List.mem_append.mp member with old | new
        · exact registry.fresh (registry.earlier e old _ told.2)
        · cases List.mem_singleton.mp new
          exact registry.fresh (registry.known_listed told.2)
    next different =>
      have recorded := registry.known id w found
      have silent : seenAt id (event serve c (.register host now)) = none := by
        rw [register_seenAt, if_neg (Ne.symm different)]
      refine ⟨by rw [list]; exact List.mem_append_left _ recorded.registered, ?_, ?_⟩
      · rw [List.filterMap_append, ← recorded.seen]
        simp [silent]
      · rw [List.any_append, recorded.exited]
        simp [dismissed, dismisses, event]
  · intro id listed
    rw [list] at listed
    rw [table, AList.mem_insert]
    rcases List.mem_append.mp listed with old | new
    · exact .inr (registry.present id old)
    · exact .inl (List.mem_singleton.mp new)
  · intro e member id known
    rcases List.mem_append.mp member with old | new
    · rw [list]
      exact List.mem_append_left _ (registry.earlier e old id known)
    · cases List.mem_singleton.mp new
      exact stays known

theorem Registry.kept {groups : List (List GoString)} {run : List Event} {c : Coordinator} (registry : Registry run c)
    (indexed : Indexed groups c) (call : Call) : Registry (run ++ [event serve c call]) (c.serve call).2 := by
  by_cases joins : ∃ host now, call = .register host now
  · obtain ⟨host, now, rfl⟩ := joins
    exact registry.registered host now
  have other : ∀ host now, call ≠ .register host now := fun host now same => joins ⟨host, now, same⟩
  have follows (id : WorkerId) := serve_follow indexed call id fun host now same => absurd same (other host now)
  have unnamed : registration (event serve c call) = none := by
    cases call with
    | register host now => exact absurd rfl (other host now)
    | heartbeat | reclaim | requestTask | reportTask => rfl
  have list : registrations (run ++ [event serve c call]) = registrations run := by simp [registrations, unnamed]
  constructor
  · rw [list, serve_nextID c other, registry.names]
  · intro id w found
    rw [follows, Option.map_eq_some_iff] at found
    obtain ⟨u, before, rfl⟩ := found
    have known : id ∈ c.workers := (FiniteMap.mem_iff_lookup _ _).mpr ⟨u, before⟩
    refine (registry.known id u before).followed _ known ?_
    cases call with
    | register host now => exact absurd rfl (other host now)
    | heartbeat | reclaim | requestTask | reportTask => rfl
  · intro id listed
    rw [list] at listed
    obtain ⟨w, found⟩ := (FiniteMap.mem_iff_lookup _ _).mp (registry.present id listed)
    refine (FiniteMap.mem_iff_lookup _ _).mpr ⟨follow c.cfg.workerTimeout id w (event serve c call), ?_⟩
    rw [follows, found]
    rfl
  · intro e member id known
    rw [list]
    rcases List.mem_append.mp member with old | new
    · exact registry.earlier e old id known
    · cases List.mem_singleton.mp new
      exact registry.known_listed known

section Runs
variable (cfg : Config) (groups : List (List GoString)) (now : Time)

theorem registry_after (calls : List Call) :
    Registry (history serve (new cfg groups now) calls) (after serve (new cfg groups now) calls) := by
  induction calls using List.reverseRecOn with
  | nil =>
    refine ⟨rfl, fun id w found => ?_, fun id listed => ?_, fun e member => ?_⟩
    · cases found
    · cases listed
    · cases member
  | append_singleton calls call ih =>
    rw [history_concat, after_concat]
    exact ih.kept (.after_run cfg groups now calls) call

/-- The worker was told to exit, or has not called in for longer than the
worker timeout. -/
def Gone (run : List Event) (clock : WorkerId → Time) (id : WorkerId) : Prop :=
  (∃ e ∈ run, dismissed id e = true) ∨
    ∃ seen, (run.filterMap (seenAt id)).getLast? = some seen ∧ cfg.workerTimeout < clock id - seen

theorem pendingExits_eq_zero (calls : List Call) (clock : WorkerId → Time) :
    let run := history serve (new cfg groups now) calls
    (after serve (new cfg groups now) calls).pendingExits clock = 0 ↔ ∀ id ∈ registrations run, Gone cfg run clock id := by
  intro run
  have registry := registry_after cfg groups now calls
  have gone (id : WorkerId) (w : Worker) (found : (after serve (new cfg groups now) calls).workers.lookup id = some w) :
      Gone cfg run clock id ↔ w.exited = true ∨ cfg.workerTimeout < clock id - w.lastSeen := by
    have recorded := registry.known id w found
    simp only [Gone, recorded.exited, recorded.seen, List.any_eq_true, Option.some.injEq, run, exists_eq_left']
  rw [pendingExits, List.countP_eq_zero, config_after]
  constructor
  · intro nobody id listed
    obtain ⟨w, found⟩ := (FiniteMap.mem_iff_lookup _ _).mp (registry.present id listed)
    have entry := nobody ⟨id, w⟩ (AList.mem_lookup_iff.mp found)
    rw [gone id w found, or_iff_not_imp_left]
    intro staying
    by_contra recent
    exact entry (Bool.and_eq_true_iff.mpr ⟨by simpa using staying, decide_eq_true (Int.not_lt.mp recent)⟩)
  · rintro all ⟨id, w⟩ member
    have found : (after serve (new cfg groups now) calls).workers.lookup id = some w := AList.mem_lookup_iff.mpr member
    intro waiting
    obtain ⟨staying, recent⟩ := Bool.and_eq_true_iff.mp waiting
    rcases (gone id w found).mp (all id (registry.known id w found).registered) with told | silent
    · simp [told] at staying
    · exact absurd silent (Int.not_lt.mpr (of_decide_eq_true recent))

/-- The calls that were served during some turns. -/
def servedIn (polls : List Poll) : List Call := polls.flatMap Poll.served

/-- The turn ends the loop, or leaves it polling. -/
def Ends (c : Coordinator) (front : List Poll) (poll : Poll) : Prop :=
  (after serve c (servedIn (front ++ [poll]))).pendingExits poll.clock = 0 ∨ poll.expired = true

theorem servedIn_cons (poll : Poll) (polls : List Poll) : servedIn (poll :: polls) = poll.served ++ servedIn polls :=
  List.flatMap_cons

theorem ends_cons {c : Coordinator} {first poll : Poll} {front : List Poll} :
    Ends c (first :: front) poll ↔ Ends (after serve c first.served) front poll := by
  rw [Ends, List.cons_append, servedIn_cons, after_append, Ends]

theorem ends_first {c : Coordinator} {poll : Poll} :
    Ends c [] poll ↔ (after serve c poll.served).pendingExits poll.clock = 0 ∨ poll.expired = true := by
  rw [Ends, servedIn, List.nil_append, List.flatMap_singleton]

/-- The loop returns at the first turn that ends it, what it has counted there. -/
theorem drained {c last : Coordinator} {polls : List Poll} {pending : Nat}
    (ended : c.drainWorkers polls = some (pending, last)) :
    ∃ earlier poll later, polls = earlier ++ poll :: later ∧ last = after serve c (servedIn (earlier ++ [poll])) ∧
      pending = last.pendingExits poll.clock ∧ Ends c earlier poll ∧
      ∀ front p back, earlier = front ++ p :: back → ¬Ends c front p := by
  induction polls generalizing c with
  | nil => cases ended
  | cons first polls ih =>
    simp only [drainWorkers] at ended
    split at ended
    next ends =>
      cases ended
      refine ⟨[], first, polls, rfl, ?_, rfl, ends_first.mpr ends, fun front p back empty => ?_⟩
      · rw [servedIn, List.nil_append, List.flatMap_singleton]
      · simp at empty
    next polling =>
      obtain ⟨earlier, poll, later, rfl, rfl, same, ends, before⟩ := ih ended
      refine ⟨first :: earlier, poll, later, rfl, ?_, ?_, ends_cons.mpr ends, fun front p back cut => ?_⟩
      · rw [List.cons_append, servedIn_cons, after_append]
      · rw [same]
      · cases front with
        | nil =>
          cases cut
          rw [ends_first]
          exact polling
        | cons head front =>
          cases cut
          rw [ends_cons]
          exact before front p back rfl

/-- The loop goes on as long as no turn ends it. -/
theorem drainWorkers_none {c : Coordinator} {polls : List Poll} :
    c.drainWorkers polls = none ↔ ∀ front p back, polls = front ++ p :: back → ¬Ends c front p := by
  induction polls generalizing c with
  | nil => simp [drainWorkers]
  | cons first polls ih =>
    simp only [drainWorkers]
    split
    next ends =>
      refine ⟨nofun, fun never => ?_⟩
      exact absurd (ends_first.mpr ends) (never [] first polls rfl)
    next polling =>
      rw [ih]
      constructor
      · intro never front p back cut
        cases front with
        | nil =>
          cases cut
          rw [ends_first]
          exact polling
        | cons head front =>
          cases cut
          rw [ends_cons]
          exact never front p back rfl
      · intro never front p back cut
        rw [← ends_cons]
        exact never (first :: front) p back (congrArg (first :: ·) cut)

/-- A worker that asks for a task after the end of the job is told to exit. -/
private theorem dismissed_after_end (nonempty : 0 < groups.length + cfg.numReducers) (calls : List Call)
    (closed : (after serve (new cfg groups now) calls).doneClosed) {served before rest : List Call} {id : WorkerId}
    {clock : Readings} (cut : served = before ++ .requestTask id clock :: rest)
    (known : id ∈ (after serve (after serve (new cfg groups now) calls) before).workers) :
    ∃ e ∈ history serve (new cfg groups now) (calls ++ served), dismissed id e = true := by
  have settled := settled_after cfg groups now nonempty
  rw [← after_append] at known
  have ended : (after serve (new cfg groups now) (calls ++ before)).closeOnce = true := by
    rw [after_append]
    refine (Machine.invariant_after (P := fun c => Settled c ∧ c.closeOnce = true) ?_
      ⟨settled calls, (settled calls).closed_iff.mp closed⟩ before).2
    rintro c call ⟨settled, closed⟩
    have same := settled.closed_kept closed call
    simp only [verdict, Prod.mk.injEq] at same
    exact ⟨settled.kept call, same.2.2.2.trans closed⟩
  have exit : ((after serve (new cfg groups now) (calls ++ before)).requestTask id clock).1.kind = .exit := by
    refine ((settled _).exit_iff (.after_run cfg groups now _) id clock).mpr ?_
    have still := ((settled (calls ++ before)).closed_kept ended (.requestTask id clock))
    simp only [verdict, Prod.mk.injEq] at still
    exact ((settled _).kept (.requestTask id clock)).closed_iff.mpr (still.2.2.2.trans ended)
  refine ⟨event serve (after serve (new cfg groups now) (calls ++ before)) (.requestTask id clock), ?_, ?_⟩
  · rw [cut, ← List.append_assoc, history_append]
    exact List.mem_append_right _ List.mem_cons_self
  · simp [dismissed, dismisses, event, serve, exit, known]

/-- Each worker that ever registered has been told to exit, or was silent for too long when it was looked at. -/
def AllGone (cfg : Config) (groups : List (List GoString)) (now : Time) (calls : List Call) (clock : WorkerId → Time) :
    Prop :=
  ∀ id ∈ registrations (history serve (new cfg groups now) calls),
    Gone cfg (history serve (new cfg groups now) calls) clock id

/-- Draining never cuts a worker off. Names are never given twice, and the loop ends at
the first turn that finds all workers gone or comes after the deadline, with 0 exactly
if it finds them gone. Once the job is over it is enough that each worker asks for a task
once more. -/
theorem drain_outcome (nonempty : 0 < groups.length + cfg.numReducers) (calls : List Call) :
    let c := after serve (new cfg groups now) calls
    (∀ served, (registrations (history serve (new cfg groups now) (calls ++ served))).Nodup) ∧
    (∀ polls pending last, c.drainWorkers polls = some (pending, last) →
      ∃ earlier poll later, polls = earlier ++ poll :: later ∧
        last = after serve (new cfg groups now) (calls ++ servedIn (earlier ++ [poll])) ∧
        (pending = 0 ↔ AllGone cfg groups now (calls ++ servedIn (earlier ++ [poll])) poll.clock) ∧
        (pending = 0 ∨ poll.expired = true) ∧
        ∀ front p back, earlier = front ++ p :: back →
          p.expired = false ∧ ¬AllGone cfg groups now (calls ++ servedIn (front ++ [p])) p.clock) ∧
    (∀ polls, c.drainWorkers polls = none → ∀ front p back, polls = front ++ p :: back →
      p.expired = false ∧ ¬AllGone cfg groups now (calls ++ servedIn (front ++ [p])) p.clock) ∧
    (c.doneClosed → ∀ poll polls, (∀ id ∈ registrations (history serve (new cfg groups now) (calls ++ poll.served)),
        ∃ before clock rest, poll.served = before ++ .requestTask id clock :: rest ∧
          id ∈ (after serve c before).workers) →
      ∃ last, c.drainWorkers (poll :: polls) = some (0, last)) := by
  intro c
  have counts (served : List Call) (clock : WorkerId → Time) :
      (after serve c served).pendingExits clock = 0 ↔ AllGone cfg groups now (calls ++ served) clock := by
    rw [← after_append]
    exact pendingExits_eq_zero cfg groups now _ clock
  have polling {front : List Poll} {p : Poll} (goes : ¬Ends c front p) :
      p.expired = false ∧ ¬AllGone cfg groups now (calls ++ servedIn (front ++ [p])) p.clock := by
    obtain ⟨waiting, early⟩ := not_or.mp goes
    exact ⟨Bool.eq_false_iff.mpr early, fun gone => waiting ((counts _ _).mpr gone)⟩
  refine ⟨fun served => ?_, fun polls pending last ended => ?_, fun polls running front p back cut => ?_,
    fun closed poll polls asks => ?_⟩
  · rw [(registry_after cfg groups now _).names]
    exact (List.nodup_range).map fun m n same => Nat.succ_injective (workerName_injective same)
  · obtain ⟨earlier, poll, later, rfl, rfl, rfl, ends, before⟩ := drained ended
    refine ⟨earlier, poll, later, rfl, (after_append ..).symm, counts _ _, ends, fun front p back cut => ?_⟩
    exact polling (before front p back cut)
  · exact polling (drainWorkers_none.mp running front p back cut)
  · have drained : (after serve c poll.served).pendingExits poll.clock = 0 := by
      refine (counts _ _).mpr fun id listed => ?_
      obtain ⟨before, clock, rest, cut, known⟩ := asks id listed
      exact .inl (dismissed_after_end cfg groups now nonempty calls closed cut known)
    refine ⟨after serve c poll.served, ?_⟩
    simp only [drainWorkers, drained, true_or, if_true]

end Runs

private def oneMap : Config := { oneOfEach with numReducers := 0 }

private def oneMapDone : List Call :=
  [.register "host" 0, .requestTask "worker-1" (always 0),
   .reportTask { workerID := "worker-1", kind := .map, taskID := 0, attempt := 1, success := true } (always 0)]

theorem drain_outcome_one : ∃ last, (after serve (new oneMap [[]] 0) oneMapDone).drainWorkers
    [⟨[.requestTask "worker-1" (always 0)], fun _ => 0, false⟩] = some (0, last) := by
  refine (drain_outcome oneMap [[]] 0 (by decide) oneMapDone).2.2.2 (by decide) _ _ fun id listed => ?_
  have only : registrations (history serve (new oneMap [[]] 0) (oneMapDone ++ [.requestTask "worker-1" (always 0)])) =
      ["worker-1"] := rfl
  rw [only, List.mem_singleton] at listed
  subst listed
  exact ⟨[], always 0, [], rfl, by decide⟩

end FromScratch.Proofs.WorkerRegistry
