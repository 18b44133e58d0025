import FromScratch.Proofs.GroupExecution

/-! What comes out of a group, and that the pool does not get stuck. An exception is
with the thread that caught it or in the group until `runAll` rethrows one, and
a worker sleeps only while the queue is empty or somebody is about to notify. -/

namespace FromScratch.Inference
open Lib (FiniteMap)
open Lib.Interleaving (tally)
open Lib.Machine (outputs after)

namespace TaskPool
variable {P ε : Type} {pool next : TaskPool P ε} {event : PoolEvent P ε} {events : List (PoolEvent P ε)} {group : Nat}
    {error : ε}

section Exceptions

/-- The exceptions that a thread has caught and not handed over. -/
def carries (thread : Thread P ε) : List (Nat × ε) :=
  match thread.control with
  | .caught group error => [(group, error)]
  | .waiting group callerError _ _ | .dozing group callerError _ _ => callerError.toList.map fun error => (group, error)
  | _ => []

def Recorded (groups : FiniteMap Nat (TaskGroup ε)) (group : Nat) (error : ε) : Prop :=
  ∃ found, groups.lookup group = some found ∧ found.error = some error

/-- An exception of the group that can still be rethrown. -/
def Held (pool : TaskPool P ε) (group : Nat) (error : ε) : Prop :=
  Recorded pool.groups group error ∨ ∃ thread ∈ pool.threads, (group, error) ∈ carries thread

theorem carries_plain {thread : Thread P ε} (plain : Plain thread.control) : carries thread = [] := by
  obtain ⟨worker, control⟩ := thread
  cases control with
  | caught => cases plain
  | waiting => cases plain
  | dozing => cases plain
  | _ => rfl

theorem carries_wake (condition : Condition) (thread : Thread P ε) : carries (thread.wake condition) = carries thread :=
  wake_same condition thread rfl fun _ _ _ _ => rfl

theorem held_wake (condition : Condition) :
    Held { pool with threads := pool.threads.map (Thread.wake condition) } group error ↔ Held pool group error := by
  apply or_congr_right
  constructor
  · rintro ⟨_, member, carried⟩
    obtain ⟨thread, inside, rfl⟩ := List.mem_map.mp member
    exact ⟨thread, inside, carries_wake condition thread ▸ carried⟩
  · rintro ⟨thread, member, carried⟩
    exact ⟨thread.wake condition, List.mem_map_of_mem member, (carries_wake condition thread).symm ▸ carried⟩

section Moves
variable {k : Nat} {thread moved : Thread P ε} {queue : List (Job P)} {groups : FiniteMap Nat (TaskGroup ε)} {opened : Nat}

/-- What is held after a step was held before, or is new. -/
theorem held_before {new : Prop} (here : pool.threads[k]? = some thread)
    (taken : (group, error) ∈ carries moved → (group, error) ∈ carries thread ∨ new)
    (written : Recorded groups group error → Recorded pool.groups group error ∨ (group, error) ∈ carries thread)
    (held : Held ⟨pool.threads.set k moved, queue, groups, opened⟩ group error) : Held pool group error ∨ new := by
  have member := List.mem_of_getElem? here
  rcases held with recorded | ⟨other, inside, carried⟩
  · rcases written recorded with before | carried
    · exact .inl (.inl before)
    · exact .inl (.inr ⟨thread, member, carried⟩)
  · rcases List.mem_or_eq_of_mem_set inside with old | rfl
    · exact .inl (.inr ⟨other, old, carried⟩)
    · exact (taken carried).imp_left fun carried => .inr ⟨thread, member, carried⟩

/-- What was held before a step is held, or is recorded with another in its place. -/
theorem held_after (here : pool.threads[k]? = some thread)
    (given : (group, error) ∈ carries thread → (group, error) ∈ carries moved ∨ ∃ other, Recorded groups group other)
    (kept : Recorded pool.groups group error → Recorded groups group error) (held : Held pool group error) :
    ∃ other, Held ⟨pool.threads.set k moved, queue, groups, opened⟩ group other := by
  rcases held with recorded | carried
  · exact ⟨error, .inl (kept recorded)⟩
  · by_cases handed : ∃ other, Recorded groups group other
    · obtain ⟨other, recorded⟩ := handed
      exact ⟨other, .inl recorded⟩
    · exact ⟨error, .inr (Lib.Interleaving.exists_set here carried fun mine => (given mine).resolve_right handed)⟩

end Moves

theorem recorded_insert {groups : FiniteMap Nat (TaskGroup ε)} {inserted : Nat} {written : TaskGroup ε} :
    Recorded (groups.insert inserted written) group error ↔
      if group = inserted then written.error = some error else Recorded groups group error := by
  rw [Recorded, Lib.FiniteMap.lookup_insert_eq]
  split
  · exact ⟨fun ⟨found, same, holds⟩ => Option.some.inj same ▸ holds, fun holds => ⟨written, rfl, holds⟩⟩
  · rfl

theorem recorded_erase {groups : FiniteMap Nat (TaskGroup ε)} {erased : Nat} :
    Recorded (groups.erase erased) group error ↔ group ≠ erased ∧ Recorded groups group error := by
  rw [Recorded, Lib.FiniteMap.lookup_erase_eq]
  split
  next same => exact ⟨nofun, fun ⟨other, _⟩ => absurd same other⟩
  next other => exact ⟨fun recorded => ⟨other, recorded⟩, fun ⟨_, recorded⟩ => recorded⟩

/-- The exceptions that are new are those of the task that ends. -/
theorem Stepped.held_before (stepped : Stepped pool event next) (held : Held next group error) :
    Held pool group error ∨ ∃ index, event = .ran group index (some error) := by
  have nothing {control : Control P ε} {worker : Bool} (plain : carries (⟨worker, control⟩ : Thread P ε) = []) {A : Prop} :
      (group, error) ∈ carries (⟨worker, control⟩ : Thread P ε) → A := by
    rw [plain]
    exact fun member => absurd member List.not_mem_nil
  cases stepped with
  | blocked => exact .inl held
  | dangling => exact .inl held
  | @wakes k thread condition here =>
    exact TaskPool.held_before here (fun carried => .inl (carries_wake condition thread ▸ carried)) .inl held
  | shift control here before after => exact TaskPool.held_before here (nothing (carries_plain after)) .inl held
  | take here => exact TaskPool.held_before here (nothing rfl) .inl held
  | opens first rest resume here =>
    refine TaskPool.held_before here (nothing rfl) (fun recorded => ?_) held
    rw [recorded_insert] at recorded
    split at recorded
    · cases recorded
    · exact .inl recorded
  | @waits k thread program ended resume stack outcome here =>
    refine TaskPool.held_before here (fun carried => .inr ⟨0, ?_⟩) .inl held
    obtain ⟨thrown, same, equal⟩ := List.mem_map.mp carried
    cases equal
    rw [Option.mem_toList.mp same]
  | @counts k thread program ended index stack outcome here =>
    refine TaskPool.held_before here (fun carried => .inr ⟨index, ?_⟩) .inl held
    cases outcome with
    | none => cases carried
    | some thrown =>
      cases List.mem_singleton.mp carried
      rfl
  | notify here =>
    exact TaskPool.held_before here (nothing rfl) .inl ((held_wake .tasks).mp held)
  | @dozes k thread waited error resume stack found here waits =>
    refine TaskPool.held_before here (fun carried => .inl ?_) .inl held
    rw [carries, waits]
    exact carried
  | returns here =>
    exact TaskPool.held_before here (nothing rfl) (fun recorded => .inl (recorded_erase.mp recorded).2) held
  | @record k thread written thrown found here caught lookup =>
    refine TaskPool.held_before here (nothing rfl) (fun recorded => ?_) held
    rw [recorded_insert] at recorded
    split at recorded
    next same =>
      subst same
      cases first : found.error with
      | none =>
        rw [first] at recorded
        cases recorded
        right
        rw [carries, caught]
        exact List.mem_singleton_self _
      | some other =>
        rw [first] at recorded
        exact .inl ⟨found, lookup, first.trans recorded⟩
    next => exact .inl recorded
  | @countdown k thread counted found here counting lookup =>
    have moved : Held ⟨pool.threads.set k { thread with control := .polling }, pool.queue,
        pool.groups.insert counted { found with remaining := found.remaining - 1 }, pool.opened⟩ group error := by
      dsimp only [setControl] at held
      split at held
      · exact (held_wake (.done counted)).mp held
      · exact held
    refine TaskPool.held_before here (nothing rfl) (fun recorded => ?_) moved
    rw [recorded_insert] at recorded
    split at recorded
    next same =>
      subst same
      exact .inl ⟨found, lookup, recorded⟩
    next => exact .inl recorded

/-- As long as the group is there an exception of it is. -/
theorem Stepped.held_after (stepped : Stepped pool event next) (unfinished : group ∈ next.groups) (old : group < pool.opened)
    (held : Held pool group error) : ∃ other, Held next group other := by
  have nothing {thread : Thread P ε} (plain : carries thread = []) {A : Prop} : (group, error) ∈ carries thread → A := by
    rw [plain]
    exact fun member => absurd member List.not_mem_nil
  cases stepped with
  | blocked => exact ⟨error, held⟩
  | dangling => exact ⟨error, held⟩
  | @wakes k thread condition here =>
    exact TaskPool.held_after here (fun carried => .inl ((carries_wake condition thread).symm ▸ carried)) id held
  | shift control here before after => exact TaskPool.held_after here (nothing (carries_plain before)) id held
  | take here idle => exact TaskPool.held_after here (nothing (carries_plain (by rw [idle]; trivial))) id held
  | opens first rest resume here runs =>
    refine TaskPool.held_after here (nothing
      (carries_plain (by rw [runs]; trivial))) (fun recorded => recorded_insert.mpr ?_) held
    rw [if_neg (Nat.ne_of_lt old)]
    exact recorded
  | @waits k thread program ended resume stack outcome here runs =>
    exact TaskPool.held_after here (nothing (carries_plain (by rw [runs]; trivial))) id held
  | @counts k thread program ended index stack outcome here runs =>
    exact TaskPool.held_after here (nothing (carries_plain (by rw [runs]; trivial))) id held
  | notify here notifies =>
    obtain ⟨other, moved⟩ := TaskPool.held_after here (nothing (by rw [carries, notifies])) id held
    exact ⟨other, (held_wake .tasks).mpr moved⟩
  | @dozes k thread waited thrown resume stack found here waits =>
    refine TaskPool.held_after here (fun carried => .inl ?_) id held
    rw [carries, waits] at carried
    exact carried
  | @returns k thread returned thrown resume stack found here waits =>
    obtain ⟨apart, _⟩ := AList.mem_erase.mp unfinished
    refine TaskPool.held_after here (fun carried => ?_) (fun recorded => recorded_erase.mpr ⟨apart, recorded⟩) held
    rw [carries, waits] at carried
    obtain ⟨_, _, equal⟩ := List.mem_map.mp carried
    cases equal
    exact absurd rfl apart
  | @record k thread written thrown found here caught lookup =>
    refine TaskPool.held_after here (fun carried => .inr ?_) (fun recorded => ?_) held
    · rw [carries, caught] at carried
      cases List.mem_singleton.mp carried
      refine ⟨found.error.getD error, recorded_insert.mpr ?_⟩
      rw [if_pos rfl]
      cases found.error with
      | none => rfl
      | some first => rfl
    · rw [recorded_insert]
      split
      next same =>
        subst same
        obtain ⟨_, again, first⟩ := recorded
        cases lookup.symm.trans again
        rw [first]
        rfl
      next => exact recorded
  | @countdown k thread counted found here counting lookup =>
    obtain ⟨other, moved⟩ : ∃ other, Held ⟨pool.threads.set k { thread with control := .polling }, pool.queue,
        pool.groups.insert counted { found with remaining := found.remaining - 1 }, pool.opened⟩ group other := by
      refine TaskPool.held_after here (nothing (by rw [carries, counting])) (fun recorded => ?_) held
      rw [recorded_insert]
      split
      next same =>
        subst same
        obtain ⟨_, again, first⟩ := recorded
        cases lookup.symm.trans again
        exact first
      next => exact recorded
    refine ⟨other, ?_⟩
    dsimp only [setControl]
    split
    · exact (held_wake (.done counted)).mpr moved
    · exact moved

/-- A task that throws leaves its exception with the thread. -/
theorem Stepped.throws {index : Nat} (stepped : Stepped pool (.ran group index (some error)) next) :
    Held next group error := by
  cases stepped with
  | waits outcome here => exact .inr ⟨_, Lib.Interleaving.mem_set_self here _, List.mem_singleton_self _⟩
  | counts outcome here => exact .inr ⟨_, Lib.Interleaving.mem_set_self here _, List.mem_singleton_self _⟩

/-- Groups that are there have been there or have just been opened. -/
theorem Stepped.groups (stepped : Stepped pool event next) (unfinished : group ∈ next.groups) :
    group ∈ pool.groups ∨ group = pool.opened := by
  cases stepped with
  | opens => exact (AList.mem_insert _).mp unfinished |>.symm
  | returns => exact .inl (AList.mem_erase.mp unfinished).2
  | record here caught held =>
    rcases (AList.mem_insert _).mp unfinished with rfl | old
    · exact .inl ((Lib.FiniteMap.mem_iff_lookup _ _).mpr ⟨_, held⟩)
    · exact .inl old
  | countdown here counting held =>
    rcases (AList.mem_insert _).mp unfinished with rfl | old
    · exact .inl ((Lib.FiniteMap.mem_iff_lookup _ _).mpr ⟨_, held⟩)
    · exact .inl old
  | _ => exact .inl unfinished

/-- Where the exceptions of the tasks are. -/
structure Reported (events : List (PoolEvent P ε)) (pool : TaskPool P ε) : Prop where
  thrown : ∀ {group error}, Held pool group error → ∃ index, .ran group index (some error) ∈ events
  kept : ∀ {group index error}, .ran group index (some error) ∈ events → group ∈ pool.groups → ∃ other, Held pool group other

theorem Accounted.ran_opened (accounted : Accounted events pool) {index : Nat} {outcome : Option ε}
    (ran : .ran group index outcome ∈ events) : group < pool.opened := by
  have one : 0 < (ended events).count (group, index) :=
    List.count_pos_iff.mpr (List.mem_filterMap.mpr ⟨_, ran, rfl⟩)
  have running := accounted.running (group, index)
  have tasks := accounted.tasks (group, index)
  have task : (group, index) ∈ tasksOf events := List.count_pos_iff.mp (by omega)
  obtain ⟨opening, opened, inside⟩ := List.mem_flatMap.mp task
  obtain ⟨_, _, same⟩ := List.mem_map.mp inside
  have number : opening.1 ∈ List.range pool.opened := accounted.numbered ▸ List.mem_map_of_mem opened
  cases same
  exact List.mem_range.mp number

theorem Reported.stepped (reported : Reported events pool) (accounted : Accounted events pool)
    (stepped : Stepped pool event next) :
    Reported (events ++ [event]) next := by
  constructor
  · intro group error held
    rcases stepped.held_before held with before | ⟨index, rfl⟩
    · obtain ⟨index, ran⟩ := reported.thrown before
      exact ⟨index, List.mem_append_left _ ran⟩
    · exact ⟨index, List.mem_append_right _ (List.mem_singleton_self _)⟩
  · intro group index error ran unfinished
    rcases List.mem_append.mp ran with before | now
    · have old := accounted.ran_opened before
      have there := (stepped.groups unfinished).resolve_right (Nat.ne_of_lt old)
      obtain ⟨other, held⟩ := reported.kept before there
      exact stepped.held_after unfinished old held
    · cases List.mem_singleton.mp now
      exact ⟨error, stepped.throws⟩

end Exceptions
section Sleepers

def Notifies (thread : Thread P ε) : Prop :=
  match thread.control with
  | .notifying .. => True
  | _ => False

/-- The group whose `done` the thread is in. -/
def dozesOn (thread : Thread P ε) : Option Nat :=
  match thread.control with
  | .dozing group .. => some group
  | _ => none

/-- Who sleeps, and why. -/
structure Rested (pool : TaskPool P ε) : Prop where
  staffed : pool.opened ≠ 0 → pool.size ≠ 0
  roused : pool.queue ≠ [] → (∃ thread ∈ pool.threads, thread.control = .asleep) → ∃ thread ∈ pool.threads, Notifies thread
  dozing : ∀ thread ∈ pool.threads, ∀ {group found}, dozesOn thread = some group → pool.groups.lookup group = some found →
    found.remaining ≠ 0

theorem notifies_plain {thread : Thread P ε} (plain : Plain thread.control) : ¬Notifies thread := by
  obtain ⟨worker, control⟩ := thread
  cases control with
  | notifying => cases plain
  | _ => exact id

theorem dozesOn_plain {thread : Thread P ε} (plain : Plain thread.control) : dozesOn thread = none := by
  obtain ⟨worker, control⟩ := thread
  cases control with
  | dozing => cases plain
  | _ => rfl

theorem notifies_wake (condition : Condition) (thread : Thread P ε) : Notifies (thread.wake condition) = Notifies thread :=
  wake_same condition thread rfl fun _ _ _ _ => rfl

theorem asleep_wake {condition : Condition} {thread : Thread P ε} (asleep : (thread.wake condition).control = .asleep) :
    condition ≠ .tasks ∧ thread.control = .asleep := by
  obtain ⟨worker, control⟩ := thread
  rw [Thread.wake] at asleep
  cases control with
  | asleep =>
    refine ⟨fun tasks => ?_, rfl⟩
    rw [if_pos tasks] at asleep
    cases asleep
  | dozing =>
    dsimp only at asleep
    split at asleep <;> cases asleep
  | _ => cases asleep

theorem dozesOn_wake {condition : Condition} {thread : Thread P ε} (dozes : dozesOn (thread.wake condition) = some group) :
    condition ≠ .done group ∧ dozesOn thread = some group := by
  obtain ⟨worker, control⟩ := thread
  rw [Thread.wake] at dozes
  cases control with
  | dozing waited error resume stack =>
    dsimp only at dozes
    split at dozes
    · cases dozes
    next other =>
      cases dozes
      exact ⟨other, rfl⟩
  | asleep =>
    dsimp only at dozes
    split at dozes <;> cases dozes
  | _ => cases dozes

theorem dozesOn_owned {thread : Thread P ε} (dozes : dozesOn thread = some group) : group ∈ owned thread := by
  obtain ⟨worker, control⟩ := thread
  cases control with
  | dozing =>
    cases dozes
    exact List.mem_cons_self
  | _ => cases dozes

section Moves
variable {k : Nat} {thread moved : Thread P ε} {queue : List (Job P)} {groups : FiniteMap Nat (TaskGroup ε)} {opened : Nat}

/-- A step of one thread that leaves the sleepers where they are. -/
theorem Rested.move (rested : Rested pool) (here : pool.threads[k]? = some thread) (kind : moved.worker = thread.worker)
    (staffed : opened ≠ 0 → pool.size ≠ 0) (queued : queue ≠ [] → pool.queue ≠ [])
    (asleep : moved.control = .asleep → queue = [] ∨ thread.control = .asleep)
    (notifies : (∃ other ∈ pool.threads, other.control = .asleep) → Notifies thread → Notifies moved)
    (dozing : ∀ {found group}, dozesOn moved = some group → groups.lookup group = some found → found.remaining ≠ 0)
    (counts : ∀ {found group}, (∃ thread ∈ pool.threads, dozesOn thread = some group) → groups.lookup group = some found →
      ∃ old, pool.groups.lookup group = some old ∧ (old.remaining ≠ 0 → found.remaining ≠ 0)) :
    Rested ⟨pool.threads.set k moved, queue, groups, opened⟩ := by
  have member := List.mem_of_getElem? here
  refine ⟨fun begun => ?_, fun more sleepers => ?_, fun other inside group found dozes lookup => ?_⟩
  · rw [size, Lib.Interleaving.countP_set here kind]
    exact staffed begun
  · have before : ∃ thread ∈ pool.threads, thread.control = .asleep := by
      obtain ⟨other, inside, sleeps⟩ := sleepers
      rcases List.mem_or_eq_of_mem_set inside with old | rfl
      · exact ⟨other, old, sleeps⟩
      · exact ⟨thread, member, (asleep sleeps).resolve_left more⟩
    exact Lib.Interleaving.exists_set here (rested.roused (queued more) before) (notifies before)
  · rcases List.mem_or_eq_of_mem_set inside with old | rfl
    · obtain ⟨before, held, positive⟩ := counts ⟨other, old, dozes⟩ lookup
      exact positive (rested.dozing other old dozes held)
    · exact dozing dozes lookup

/-- A thread that is not asleep goes on without touching a group. -/
theorem Rested.goes (rested : Rested pool) {control : Control P ε} (here : pool.threads[k]? = some thread)
    (staffed : opened ≠ 0 → pool.size ≠ 0) (queued : queue ≠ [] → pool.queue ≠ []) (asleep : control = .asleep → queue = [])
    (silent : ¬Notifies thread) (awake : dozesOn (⟨thread.worker, control⟩ : Thread P ε) = none) :
    Rested ⟨pool.threads.set k { thread with control }, queue, pool.groups, opened⟩ := by
  refine rested.move here rfl staffed queued (fun sleeps => .inl (asleep sleeps))
    (fun _ notifies => absurd notifies silent) ?_
    fun _ lookup => ⟨_, lookup, id⟩
  intro found group dozes
  rw [awake] at dozes
  cases dozes

theorem size_wake (condition : Condition) : size { pool with threads := pool.threads.map (Thread.wake condition) } =
    pool.size := by
  have same : Thread.worker ∘ Thread.wake condition = (Thread.worker : Thread P ε → Bool) :=
    funext fun thread => wake_same condition thread rfl fun _ _ _ _ => rfl
  rw [size, List.countP_map, same, size]

theorem Rested.wake (rested : Rested pool) (condition : Condition) :
    Rested { pool with threads := pool.threads.map (Thread.wake condition) } := by
  refine ⟨fun begun => ?_, fun more sleepers => ?_, fun other inside group found dozes lookup => ?_⟩
  · rw [size_wake]
    exact rested.staffed begun
  · obtain ⟨_, inside, sleeps⟩ := sleepers
    obtain ⟨other, old, rfl⟩ := List.mem_map.mp inside
    obtain ⟨notifier, member, notifies⟩ := rested.roused more ⟨other, old, (asleep_wake sleeps).2⟩
    exact ⟨notifier.wake condition, List.mem_map_of_mem member, by rw [notifies_wake]; exact notifies⟩
  · obtain ⟨old, member, rfl⟩ := List.mem_map.mp inside
    exact rested.dozing old member (dozesOn_wake dozes).2 lookup

end Moves

theorem Rested.stepped (rested : Rested pool) (accounted : Accounted events pool) (stepped : Stepped pool event next) :
    Rested next := by
  cases stepped with
  | blocked => exact rested
  | dangling => exact rested
  | @wakes k thread condition here =>
    refine rested.move here ?_ rested.staffed id (fun sleeps => .inr (asleep_wake sleeps).2) (fun _ notifies => ?_)
      (fun dozes lookup => ?_) fun _ lookup => ⟨_, lookup, id⟩
    · exact wake_same condition thread rfl fun _ _ _ _ => rfl
    · rw [notifies_wake]
      exact notifies
    · exact rested.dozing thread (List.mem_of_getElem? here) (dozesOn_wake dozes).2 lookup
  | shift control here before after task debt group calls manned drowsy =>
    exact rested.goes here rested.staffed id drowsy (notifies_plain before) (dozesOn_plain after)
  | take here idle queued =>
    exact rested.goes here rested.staffed (fun _ => queued ▸ List.cons_ne_nil _ _) nofun
      (notifies_plain (by rw [idle]; trivial)) rfl
  | @opens k thread program stack first rest resume here runs staffed =>
    refine ⟨fun _ => ?_, fun _ _ => ⟨_, Lib.Interleaving.mem_set_self here _, trivial⟩,
      fun other inside group found dozes lookup => ?_⟩
    · have kind : Thread.worker { thread with control := .notifying pool.opened first resume stack } = thread.worker := rfl
      have same := Lib.Interleaving.countP_set here kind
      exact fun zero => staffed (same.symm.trans zero)
    · rcases List.mem_or_eq_of_mem_set inside with old | rfl
      · have alive := accounted.living group (accounted.alive old (dozesOn_owned dozes))
        rw [Lib.FiniteMap.lookup_insert_eq, if_neg (Nat.ne_of_lt alive)] at lookup
        exact rested.dozing other old dozes lookup
      · cases dozes
  | waits outcome here runs => exact rested.goes here rested.staffed id nofun (notifies_plain (by rw [runs]; trivial)) rfl
  | @counts k thread program group index stack outcome here runs =>
    refine rested.goes here rested.staffed id ?_ (notifies_plain (by rw [runs]; trivial)) ?_
    · cases outcome <;> exact nofun
    · cases outcome <;> rfl
  | @notify k thread group first resume stack here notifies =>
    have woken : (pool.threads.map (Thread.wake .tasks))[k]? =
      some (thread.wake .tasks) := by rw [List.getElem?_map, here]; rfl
    dsimp only [setControl]
    rw [List.map_set]
    refine (rested.wake .tasks).move woken ?_ (rested.wake .tasks).staffed id nofun (fun sleepers => ?_) nofun
      fun _ lookup => ⟨_, lookup, id⟩
    · exact (wake_same .tasks thread rfl fun _ _ _ _ => rfl : (thread.wake .tasks).worker = thread.worker).symm
    · obtain ⟨_, inside, sleeps⟩ := sleepers
      obtain ⟨other, _, rfl⟩ := List.mem_map.mp inside
      exact absurd rfl (asleep_wake sleeps).1
  | @dozes k thread group error resume stack found here waits held busy =>
    refine rested.move here rfl rested.staffed id nofun (fun _ notifies => ?_) (fun dozes lookup => ?_) fun _ lookup =>
      ⟨_, lookup, id⟩
    · rw [Notifies, waits] at notifies
      exact notifies
    · cases dozes
      cases held.symm.trans lookup
      exact busy
  | @returns k thread group error resume stack found here waits =>
    refine rested.move here rfl rested.staffed id nofun (fun _ notifies => ?_) nofun fun _ lookup => ?_
    · rw [Notifies, waits] at notifies
      exact notifies
    · rw [Lib.FiniteMap.lookup_erase_eq] at lookup
      split at lookup
      · cases lookup
      · exact ⟨_, lookup, id⟩
  | @record k thread group error found here caught held =>
    refine rested.move here rfl rested.staffed id nofun (fun _ notifies => ?_) nofun fun _ lookup => ?_
    · rw [Notifies, caught] at notifies
      exact notifies
    · rw [Lib.FiniteMap.lookup_insert_eq] at lookup
      split at lookup
      next same =>
        cases lookup
        exact ⟨found, same ▸ held, id⟩
      next => exact ⟨_, lookup, id⟩
  | @countdown k thread group found here counting held =>
    have silent : ¬Notifies thread := by
      rw [Notifies, counting]
      exact id
    dsimp only [setControl]
    split
    next done =>
      have woken : (pool.threads.map (Thread.wake (.done group)))[k]? = some (thread.wake (.done group)) := by
        rw [List.getElem?_map, here]
        rfl
      rw [List.map_set]
      refine (rested.wake (.done group)).move woken ?_ (rested.wake (.done group)).staffed id nofun
        (fun _ notifies => ?_) nofun
        fun dozers lookup => ?_
      · exact (wake_same (.done group) thread rfl fun _ _ _ _ => rfl : (thread.wake (.done group)).worker =
          thread.worker).symm
      · rw [notifies_wake] at notifies
        exact absurd notifies silent
      · obtain ⟨_, inside, dozes⟩ := dozers
        obtain ⟨other, _, rfl⟩ := List.mem_map.mp inside
        have apart := (dozesOn_wake dozes).1
        rw [Lib.FiniteMap.lookup_insert_eq, if_neg fun same => apart (congrArg Condition.done same.symm)] at lookup
        exact ⟨_, lookup, id⟩
    next busy =>
      refine rested.move here rfl rested.staffed id nofun (fun _ notifies => absurd notifies silent) nofun fun _ lookup => ?_
      rw [Lib.FiniteMap.lookup_insert_eq] at lookup
      split at lookup
      next same =>
        cases lookup
        exact ⟨found, same ▸ held, fun _ => busy⟩
      next => exact ⟨_, lookup, id⟩

end Sleepers
section Completion

theorem fresh_owned {thread : Thread P ε} {index : Nat} (starts : (group, index) ∈ fresh thread) : group ∈ owned thread := by
  obtain ⟨worker, control⟩ := thread
  cases control with
  | notifying =>
    cases List.mem_singleton.mp starts
    exact List.mem_cons_self
  | _ => cases starts

theorem task_frame {stack : List (Frame P ε)} {index : Nat} (runs : (group, index) ∈ stack.filterMap Frame.task) :
    group ∈ stack.filterMap Frame.group ∨ group ∈ stack.filterMap Frame.debt := by
  obtain ⟨frame, member, same⟩ := List.mem_filterMap.mp runs
  cases frame with
  | inline => cases same
  | caller =>
    cases same
    exact .inl (List.mem_filterMap.mpr ⟨_, member, rfl⟩)
  | job =>
    cases same
    exact .inr (List.mem_filterMap.mpr ⟨_, member, rfl⟩)

theorem under_held {thread : Thread P ε} {index : Nat} (runs : (group, index) ∈ under thread) :
    group ∈ owned thread ∨ group ∈ debts thread := by
  obtain ⟨worker, control⟩ := thread
  have held := task_frame runs
  cases control with
  | notifying => exact held.imp_left (List.mem_cons_of_mem _)
  | waiting => exact held.imp_left (List.mem_cons_of_mem _)
  | dozing => exact held.imp_left (List.mem_cons_of_mem _)
  | caught => cases runs
  | counting => cases runs
  | _ => exact held

/-- When a group is gone its tasks have begun and ended as often as they were handed over. -/
theorem Accounted.finished (accounted : Accounted events pool) (gone : group ∉ pool.groups) (index : Nat) :
    (begun events).count (group, index) = (tasksOf events).count (group, index) ∧
      (ended events).count (group, index) = (tasksOf events).count (group, index) := by
  have missing := AList.lookup_eq_none.mpr gone
  have count := accounted.remaining group
  rw [missing] at count
  simp only [Option.elim] at count
  have owners := accounted.owners group
  rw [if_neg gone] at owners
  have owner : group ∉ tally owned pool.threads := List.count_eq_zero.mp owners
  have debtor : group ∉ tally debts pool.threads := List.count_eq_zero.mp (by omega)
  have waits : group ∉ pool.queue.map Job.group := List.count_eq_zero.mp (by omega)
  have queued : (pool.queue.map Job.key).count (group, index) = 0 := by
    apply List.count_eq_zero.mpr
    intro member
    obtain ⟨job, inside, same⟩ := List.mem_map.mp member
    exact waits (List.mem_map.mpr ⟨job, inside, congrArg Prod.fst same⟩)
  have starts : (tally fresh pool.threads).count (group, index) = 0 := by
    apply List.count_eq_zero.mpr
    intro member
    obtain ⟨thread, inside, starts⟩ := Lib.Interleaving.mem_tally.mp member
    exact owner (Lib.Interleaving.mem_tally.mpr ⟨thread, inside, fresh_owned starts⟩)
  have runs : (tally under pool.threads).count (group, index) = 0 := by
    apply List.count_eq_zero.mpr
    intro member
    obtain ⟨thread, inside, runs⟩ := Lib.Interleaving.mem_tally.mp member
    rcases under_held runs with owns | debt
    · exact owner (Lib.Interleaving.mem_tally.mpr ⟨thread, inside, owns⟩)
    · exact debtor (Lib.Interleaving.mem_tally.mpr ⟨thread, inside, debt⟩)
  have tasks := accounted.tasks (group, index)
  have running := accounted.running (group, index)
  omega

theorem Accounted.distinct (accounted : Accounted events pool) : (tasksOf events).Nodup := by
  have apart : ((openings events).map Prod.fst).Nodup := accounted.numbered ▸ List.nodup_range
  refine List.nodup_flatMap.mpr ⟨fun opening _ => ?_, (List.pairwise_map.mp apart).imp fun different => ?_⟩
  · exact List.nodup_range.map fun _ _ same => (Prod.mk.inj same).2
  · intro task first second
    obtain ⟨_, _, rfl⟩ := List.mem_map.mp first
    obtain ⟨_, _, same⟩ := List.mem_map.mp second
    exact different (Prod.mk.inj same).1.symm

theorem Accounted.opening (accounted : Accounted events pool) (old : group < pool.opened) :
    ∃ call, .opened group call ∈ events ∧ ∀ index < call.tasks.length, (tasksOf events).count (group, index) = 1 := by
  have numbered := accounted.numbered
  have member : group ∈ (openings events).map Prod.fst := numbered ▸ List.mem_range.mpr old
  obtain ⟨⟨_, call⟩, opened, rfl⟩ := List.mem_map.mp member
  refine ⟨call, ?_, fun index inside => ?_⟩
  · obtain ⟨event, happened, same⟩ := List.mem_filterMap.mp opened
    cases event with
    | opened =>
      cases same
      exact happened
    | _ => cases same
  · apply List.count_eq_one_of_mem accounted.distinct
    exact List.mem_flatMap.mpr ⟨_, opened, List.mem_map_of_mem (List.mem_range.mpr inside)⟩

/-- The tasks of the group are those of its call, each has run exactly once, and what
comes out is an exception of one of them if there is any. -/
structure Completed (events : List (PoolEvent P ε)) (group : Nat) (tasks : List P) (outcome : Option ε) : Prop where
  once : ∀ index task, tasks[index]? = some task → (.began group index task) ∈ events ∧
    (begun events).count (group, index) = 1 ∧ (ended events).count (group, index) = 1
  only : ∀ index task, (.began group index task) ∈ events → tasks[index]? = some task
  thrown : ∀ error, outcome = some error → ∃ index, .ran group index (some error) ∈ events
  rethrows : ∀ index error, .ran group index (some error) ∈ events → outcome ≠ none

/-- The thread that waits for a group is the only one that knows of it once all is counted. -/
theorem Accounted.alone (accounted : Accounted events pool) {k : Nat} {thread : Thread P ε} {found : TaskGroup ε}
    {callerError : Option ε} {resume : Option ε → P} {stack : List (Frame P ε)} (here : pool.threads[k]? = some thread)
    (waits : thread.control = .waiting group callerError resume stack) (held : pool.groups.lookup group = some found)
    (done : found.remaining = 0) (kept : Held pool group error) : callerError = some error ∨ found.error = some error := by
  rcases kept with ⟨other, same, recorded⟩ | ⟨other, member, carried⟩
  · cases held.symm.trans same
    exact .inr recorded
  · left
    obtain ⟨before, later, split, _⟩ := Lib.Interleaving.exists_others here
    have single := accounted.owners group
    rw [if_pos ((Lib.FiniteMap.mem_iff_lookup _ _).mpr ⟨found, held⟩), split, tally, List.flatMap_append, List.flatMap_cons,
      List.count_append, List.count_append] at single
    have mine : 0 < (owned thread).count group := by
      rw [owned, waits]
      exact List.count_pos_iff.mpr List.mem_cons_self
    have nobody : ∀ {others : List (Thread P ε)}, (others.flatMap owned).count group = 0 → other ∈ others →
      group ∉ owned other :=
      fun zero inside owns => List.count_eq_zero.mp zero (List.mem_flatMap.mpr ⟨other, inside, owns⟩)
    have place : other = thread ∨ group ∉ owned other := by
      rw [split] at member
      rcases List.mem_append.mp member with early | late
      · exact .inr (nobody (by omega) early)
      · exact (List.mem_cons.mp late).imp id (nobody (by omega))
    rcases place with rfl | apart
    · rw [carries, waits] at carried
      obtain ⟨_, thrown, equal⟩ := List.mem_map.mp carried
      cases equal
      exact Option.mem_toList.mp thrown
    · obtain ⟨kind, control⟩ := other
      cases control with
      | caught =>
        cases List.mem_singleton.mp carried
        obtain ⟨_, same, positive⟩ := accounted.owed member List.mem_cons_self
        cases held.symm.trans same
        omega
      | waiting =>
        obtain ⟨_, _, equal⟩ := List.mem_map.mp carried
        cases equal
        exact absurd List.mem_cons_self apart
      | dozing =>
        obtain ⟨_, _, equal⟩ := List.mem_map.mp carried
        cases equal
        exact absurd List.mem_cons_self apart
      | _ => cases carried

theorem Stepped.safe (accounted : Accounted events pool) (stepped : Stepped pool event next) : event ≠ .dangling := by
  rintro rfl
  cases stepped with
  | dangling here touches gone =>
    have member := List.mem_of_getElem? here
    rcases touches with owns | debt
    · exact AList.lookup_eq_none.mp gone (accounted.alive member owns)
    · obtain ⟨found, held, _⟩ := accounted.owed member debt
      cases held.symm.trans gone

end Completion

section Progress
variable {view : P → Move P ε}

/-- A thread waits for others, or its program is over. -/
def Idle : Control P ε → Prop
  | .asleep | .dozing .. | .ended _ => True
  | _ => False

theorem stepRunning_moves (k : Nat) (thread : Thread P ε) (advance : Advance P ε) :
    (stepRunning pool k thread advance).1 ≠ .blocked := by
  cases advance with
  | _ => exact nofun

/-- Every other thread has a step. -/
theorem stepThread_moves (k : Nat) {thread : Thread P ε} (awake : ¬Idle thread.control) :
    (stepThread view pool k thread).1 ≠ .blocked := by
  rw [stepThread]
  split
  · split <;> (intro blocked; cases blocked)
  next asleep =>
    rw [asleep] at awake
    exact absurd trivial awake
  · exact stepRunning_moves k thread _
  · intro blocked
    cases blocked
  · split
    · intro blocked
      cases blocked
    · split <;> (intro blocked; cases blocked)
  next dozing =>
    rw [dozing] at awake
    exact absurd trivial awake
  · split <;> (intro blocked; cases blocked)
  · split <;> (intro blocked; cases blocked)
  next ended =>
    rw [ended] at awake
    exact absurd trivial awake

theorem moves_of_awake {thread : Thread P ε} (member : thread ∈ pool.threads) (awake : ¬Idle thread.control) :
    ∃ k, (step view pool (.step k)).1 ≠ .blocked := by
  obtain ⟨k, here⟩ := List.getElem?_of_mem member
  refine ⟨k, ?_⟩
  rw [step, here]
  exact stepThread_moves k awake

theorem Accounted.waited (accounted : Accounted events pool) {found : TaskGroup ε}
    (held : pool.groups.lookup group = some found)
    (busy : found.remaining ≠ 0) : (∃ job ∈ pool.queue, job.group = group) ∨
    ∃ thread ∈ pool.threads, group ∈ debts thread := by
  have count := accounted.remaining group
  rw [held] at count
  simp only [Option.elim] at count
  by_cases queued : 0 < (pool.queue.map Job.group).count group
  · left
    exact List.mem_map.mp (List.count_pos_iff.mp queued)
  · right
    exact Lib.Interleaving.mem_tally.mp (List.count_pos_iff.mp (by omega))

/-- While a group is there some thread can go on. -/
theorem Accounted.moves (accounted : Accounted events pool) (rested : Rested pool) (unfinished : group ∈ pool.groups) :
    ∃ k, (step view pool (.step k)).1 ≠ .blocked := by
  by_contra stuck
  have idle : ∀ thread ∈ pool.threads, Idle thread.control := by
    intro thread member
    by_contra awake
    exact stuck (moves_of_awake member awake)
  have owner : ∃ thread ∈ pool.threads, group ∈ owned thread := by
    have one := accounted.owners group
    rw [if_pos unfinished] at one
    exact Lib.Interleaving.mem_tally.mp (List.count_pos_iff.mp (by omega))
  -- the owner waits for a group, perhaps one that was opened inside
  obtain ⟨behind, found, held, busy⟩ : ∃ behind found, pool.groups.lookup behind = some found ∧ found.remaining ≠ 0 := by
    obtain ⟨thread, member, owns⟩ := owner
    have rests := idle thread member
    obtain ⟨worker, control⟩ := thread
    cases control with
    | asleep => cases owns
    | ended => cases owns
    | dozing waited error resume stack =>
      obtain ⟨found, held⟩ := (Lib.FiniteMap.mem_iff_lookup _ _).mp
        (accounted.alive member (List.mem_cons_self : waited ∈ _))
      exact ⟨waited, found, held, rested.dozing _ member rfl held⟩
    | _ => cases rests
  rcases accounted.waited held busy with ⟨job, queued, _⟩ | ⟨thread, member, debt⟩
  · have more : pool.queue ≠ [] := List.ne_nil_of_mem queued
    have begun : pool.opened ≠ 0 := Nat.ne_zero_of_lt (accounted.living group unfinished)
    obtain ⟨worker, member, kind⟩ := List.countP_pos_iff.mp (Nat.pos_of_ne_zero (rested.staffed begun))
    have place := (accounted.manned worker member).worker kind
    have rests := idle worker member
    have sleeps : worker.control = .asleep := by
      obtain ⟨_, control⟩ := worker
      cases control with
      | asleep => rfl
      | ended => cases place
      | dozing => cases place
      | _ => cases rests
    obtain ⟨notifier, inside, notifies⟩ := rested.roused more ⟨worker, member, sleeps⟩
    have rests := idle notifier inside
    obtain ⟨_, control⟩ := notifier
    cases control with
    | notifying => cases rests
    | _ => cases notifies
  · have rests := idle thread member
    have place := (accounted.manned thread member)
    obtain ⟨kind, control⟩ := thread
    cases control with
    | asleep => cases debt
    | ended => cases debt
    | dozing waited error resume stack =>
      cases kind with
      | true => exact place.worker rfl
      | false =>
        have empty : stack.filterMap Frame.debt = [] := place.guest rfl
        change behind ∈ stack.filterMap Frame.debt at debt
        rw [empty] at debt
        cases debt
    | _ => cases rests

end Progress

section Runs
variable {w : Nat} {programs : List P}

theorem start_cases {thread : Thread P ε} (member : thread ∈ (start w programs : TaskPool P ε).threads) :
    thread = ⟨true, .polling⟩ ∨ ∃ program, thread = ⟨false, .running program []⟩ := by
  rcases List.mem_append.mp member with worker | guest
  · exact .inl (List.eq_of_mem_replicate worker)
  · obtain ⟨program, _, rfl⟩ := List.mem_map.mp guest
    exact .inr ⟨program, rfl⟩

theorem start_holds {α : Type} {holds : Thread P ε → List α} (worker : holds ⟨true, .polling⟩ = [])
    (guest : ∀ program, holds ⟨false, .running program []⟩ = []) :
    tally holds (start w programs : TaskPool P ε).threads = [] := by
  apply List.flatMap_eq_nil_iff.mpr
  intro thread member
  rcases start_cases member with rfl | ⟨program, rfl⟩
  · exact worker
  · exact guest program

theorem accounted_start : Accounted [] (start w programs : TaskPool P ε) := by
  refine ⟨fun thread member => ?_, rfl, fun task => ?_, fun task => ?_, fun group => ?_, fun group => ?_,
    fun group member => ?_⟩
  · rcases start_cases member with rfl | ⟨program, rfl⟩
    · exact ⟨fun _ => trivial, nofun⟩
    · exact ⟨nofun, fun _ => rfl⟩
  · rw [start_holds rfl fun _ => rfl]
    rfl
  · rw [start_holds rfl fun _ => rfl]
    rfl
  · rw [start_holds rfl fun _ => rfl]
    rfl
  · rw [start_holds rfl fun _ => rfl]
    exact (if_neg (AList.notMem_empty group)).symm
  · exact absurd member (AList.notMem_empty group)

theorem reported_start : Reported [] (start w programs : TaskPool P ε) := by
  refine ⟨fun {group error} held => ?_, nofun⟩
  rcases held with ⟨_, lookup, _⟩ | ⟨thread, member, carried⟩
  · cases lookup
  · rcases start_cases member with rfl | ⟨program, rfl⟩ <;> cases carried

theorem rested_start : Rested (start w programs : TaskPool P ε) :=
  ⟨fun begun => absurd rfl begun, fun more => absurd rfl more, fun _ _ _ _ _ lookup => nomatch lookup⟩

/-- What holds after every run. -/
theorem run_holds (view : P → Move P ε) (w : Nat) (programs : List P) (turns : List PoolTurn) :
    Accounted (outputs (step view) (start w programs) turns) (after (step view) (start w programs) turns) ∧
      Reported (outputs (step view) (start w programs) turns) (after (step view) (start w programs) turns) ∧
      Rested (after (step view) (start w programs) turns) := by
  refine Lib.Machine.invariant_outputs (P := fun events pool => Accounted events pool ∧ Reported events pool ∧ Rested pool)
    ⟨accounted_start, reported_start, rested_start⟩ ?_ turns
  rintro events pool turn ⟨accounted, reported, rested⟩
  have stepped : Stepped pool (step view pool turn).1 (step view pool turn).2 := step_stepped accounted.manned turn
  exact ⟨accounted.stepped stepped, reported.stepped accounted stepped, rested.stepped accounted stepped⟩

end Runs

end TaskPool
end FromScratch.Inference
