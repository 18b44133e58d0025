import FromScratch.Proofs.GroupOutcome

/-! The calls of `runAll`. A group belongs to the call that opened it: its tasks are
those of the call, and the caller stays inside until the group has been left. -/

namespace FromScratch.Inference
open Lib (FiniteMap)
open Lib.Machine (outputs after)

namespace TaskPool
variable {P ε : Type} {pool next : TaskPool P ε} {event : PoolEvent P ε} {events : List (PoolEvent P ε)}

section Ties

/-- The calls a thread is in have opened their groups. -/
structure Bound (events : List (PoolEvent P ε)) (k : Nat) (control : Control P ε) : Prop where
  calls : ∀ group resume below, (group, resume, below) ∈ calling control →
    ∃ tasks, .opened group ⟨k, tasks, resume, below⟩ ∈ events
  first : ∀ group first resume below, control = .notifying group first resume below →
    ∃ rest, .opened group ⟨k, first :: rest, resume, below⟩ ∈ events

/-- The tasks that are queued or have begun are those of the calls, and a group that
is gone has been left. -/
structure Tied (events : List (PoolEvent P ε)) (pool : TaskPool P ε) : Prop where
  bound : ∀ k thread, pool.threads[k]? = some thread → Bound events k thread.control
  queued : ∀ job ∈ pool.queue, ∃ call, .opened job.group call ∈ events ∧ call.tasks[job.index]? = some job.task
  begun : ∀ group index task, .began group index task ∈ events →
    ∃ call, .opened group call ∈ events ∧ call.tasks[index]? = some task
  left : ∀ group < pool.opened, group ∈ pool.groups ∨ ∃ remaining outcome, .returned group remaining outcome ∈ events

variable {k : Nat} {control : Control P ε}

theorem Bound.later (bound : Bound events k control) (event : PoolEvent P ε) : Bound (events ++ [event]) k control where
  calls group resume below member := by
    obtain ⟨tasks, opened⟩ := bound.calls group resume below member
    exact ⟨tasks, List.mem_append_left _ opened⟩
  first group first resume below same := by
    obtain ⟨rest, opened⟩ := bound.first group first resume below same
    exact ⟨rest, List.mem_append_left _ opened⟩

/-- The thread is in no other call than before. -/
theorem Bound.move (bound : Bound events k control) {moved : Control P ε}
    (calls : ∀ call ∈ calling moved, call ∈ calling control) (quiet : ∀ group first resume below, moved ≠
      .notifying group first resume below) : Bound events k moved where
  calls group resume below member := bound.calls group resume below (calls _ member)
  first group first resume below same := absurd same (quiet group first resume below)

theorem Bound.wake {thread : Thread P ε} (bound : Bound events k thread.control) (condition : Condition) :
    Bound events k (thread.wake condition).control := by
  obtain ⟨worker, control⟩ := thread
  rcases wake_cases condition ⟨worker, control⟩ with same | ⟨_, asleep, woken⟩ | ⟨group, error, resume, stack, _, dozing,
    woken⟩
  · rwa [same]
  · rw [woken]
    exact bound.move (fun call member => absurd member List.not_mem_nil) nofun
  · cases dozing
    rw [woken]
    exact bound.move (fun call member => member) nofun

/-- An event that starts no task. -/
theorem Tied.later (tied : Tied events pool) (quiet : ∀ group index task, event ≠ .began group index task) :
    Tied (events ++ [event]) pool where
  bound k thread here := (tied.bound k thread here).later event
  queued job member := by
    obtain ⟨call, opened, task⟩ := tied.queued job member
    exact ⟨call, List.mem_append_left _ opened, task⟩
  begun group index task member := by
    rcases List.mem_append.mp member with old | now
    · obtain ⟨call, opened, same⟩ := tied.begun group index task old
      exact ⟨call, List.mem_append_left _ opened, same⟩
    · exact absurd (List.mem_singleton.mp now).symm (quiet group index task)
  left group old := by
    refine (tied.left group old).imp_right ?_
    rintro ⟨remaining, outcome, returned⟩
    exact ⟨remaining, outcome, List.mem_append_left _ returned⟩

/-- A task of a call starts. -/
theorem Tied.starts (tied : Tied events pool) {group index : Nat} {task : P} {call : GroupCall P ε}
    (opened : .opened group call ∈ events) (same : call.tasks[index]? = some task) :
    Tied (events ++ [.began group index task]) pool where
  bound k thread here := (tied.bound k thread here).later _
  queued job member := by
    obtain ⟨call, opened, task⟩ := tied.queued job member
    exact ⟨call, List.mem_append_left _ opened, task⟩
  begun other place program member := by
    rcases List.mem_append.mp member with old | now
    · obtain ⟨call, opened, same⟩ := tied.begun other place program old
      exact ⟨call, List.mem_append_left _ opened, same⟩
    · cases List.mem_singleton.mp now
      exact ⟨call, List.mem_append_left _ opened, same⟩
  left group old := by
    refine (tied.left group old).imp_right ?_
    rintro ⟨remaining, outcome, returned⟩
    exact ⟨remaining, outcome, List.mem_append_left _ returned⟩

/-- One thread moves; the queue gets no tasks and the groups stay. -/
theorem Tied.move (tied : Tied events pool) {moved : Thread P ε} (bound : Bound events k moved.control)
    {queue : List (Job P)} {groups : FiniteMap Nat (TaskGroup ε)} (queued : ∀ job ∈ queue, job ∈ pool.queue)
    (there : ∀ group ∈ pool.groups, group ∈ groups) :
    Tied events ⟨pool.threads.set k moved, queue, groups, pool.opened⟩ where
  bound := Lib.Interleaving.forall_get_set tied.bound bound
  queued job member := tied.queued job (queued job member)
  begun := tied.begun
  left group old := (tied.left group old).imp_left (there group)

theorem Tied.wake (tied : Tied events pool) (condition : Condition) :
    Tied events { pool with threads := pool.threads.map (Thread.wake condition) } where
  bound k thread here := by
    rw [List.getElem?_map] at here
    obtain ⟨old, found, rfl⟩ := Option.map_eq_some_iff.mp here
    exact (tied.bound k old found).wake condition
  queued := tied.queued
  begun := tied.begun
  left := tied.left

theorem Tied.opens (tied : Tied events pool) {worker : Bool} (first : P) (rest : List P) (resume : Option ε → P)
    {program : P} {stack : List (Frame P ε)} (here : pool.threads[k]? = some ⟨worker, .running program stack⟩) :
    Tied (events ++ [.opened pool.opened ⟨k, first :: rest, resume, stack⟩]) {
      threads := pool.threads.set k ⟨worker, .notifying pool.opened first resume stack⟩
      queue := pool.queue ++ (rest.zipIdx 1).map fun (task, index) => ⟨pool.opened, index, task⟩
      groups := pool.groups.insert pool.opened ⟨rest.length, none⟩
      opened := pool.opened + 1 } := by
  have later : Tied (events ++ [.opened pool.opened ⟨k, first :: rest, resume, stack⟩]) pool := tied.later nofun
  have now : .opened pool.opened ⟨k, first :: rest, resume, stack⟩ ∈
      events ++ [.opened pool.opened ⟨k, first :: rest, resume, stack⟩] :=
    List.mem_append_right _ (List.mem_singleton_self _)
  refine ⟨Lib.Interleaving.forall_get_set later.bound ⟨?_, ?_⟩, fun job member => ?_, later.begun, fun group old => ?_⟩
  · intro group after below member
    rcases List.mem_cons.mp member with same | outer
    · cases same
      exact ⟨_, now⟩
    · exact (later.bound k _ here).calls group after below outer
  · intro group task after below same
    cases same
    exact ⟨rest, now⟩
  · rcases List.mem_append.mp member with old | new
    · exact later.queued job old
    · obtain ⟨⟨task, index⟩, listed, rfl⟩ := List.mem_map.mp new
      refine ⟨_, now, ?_⟩
      obtain ⟨_, place⟩ := List.mem_zipIdx_iff_le_and_getElem?_sub.mp listed
      cases index with
      | zero => omega
      | succ index => exact place
  · rcases Nat.lt_succ_iff_lt_or_eq.mp old with earlier | rfl
    · exact (later.left group earlier).imp_left fun alive => (AList.mem_insert _).mpr (.inr alive)
    · exact .inl ((AList.mem_insert _).mpr (.inl rfl))

theorem Tied.stepped (tied : Tied events pool) (stepped : Stepped pool event next) : Tied (events ++ [event]) next := by
  have there {group : Nat} {written : TaskGroup ε} : ∀ other ∈ pool.groups, other ∈ pool.groups.insert group written :=
    fun other alive => (AList.mem_insert _).mpr (.inr alive)
  cases stepped with
  | blocked => exact tied.later nofun
  | dangling => exact tied.later nofun
  | @wakes k thread condition here =>
    have later : Tied (events ++ [.turned]) pool := tied.later nofun
    exact later.move ((later.bound k thread here).wake condition) (fun _ member => member) fun _ alive => alive
  | @shift k thread control here before after task debt group calls =>
    have later : Tied (events ++ [.turned]) pool := tied.later nofun
    refine later.move ((later.bound k thread here).move (fun call member => calls ▸ member) ?_) (fun _ member => member)
      fun _ alive => alive
    rintro group first resume below rfl
    cases after
  | @take k thread job rest here idle queued =>
    obtain ⟨call, opened, task⟩ := tied.queued job (queued ▸ List.mem_cons_self)
    have later := tied.starts opened task
    exact later.move ((later.bound k thread here).move (fun call member => absurd member List.not_mem_nil) (by nofun))
      (fun _ member => queued ▸ List.mem_cons_of_mem _ member) fun _ alive => alive
  | @opens k thread program stack first rest resume here runs =>
    obtain ⟨worker, control⟩ := thread
    cases runs
    exact tied.opens first rest resume here
  | @waits k thread program group resume stack outcome here runs =>
    have later : Tied (events ++ [.ran group 0 outcome]) pool := tied.later nofun
    exact later.move ((later.bound k thread here).move (fun call member => runs ▸ member)
      (by nofun)) (fun _ member => member)
      fun _ alive => alive
  | @counts k thread program group index stack outcome here runs =>
    have later : Tied (events ++ [.ran group index outcome]) pool := tied.later nofun
    refine later.move ((later.bound k thread here).move (fun call member => ?_) ?_) (fun _ member => member)
      fun _ alive => alive
    · cases outcome <;> exact absurd member List.not_mem_nil
    · cases outcome <;> exact nofun
  | @notify k thread group first resume stack here notifies =>
    obtain ⟨rest, opened⟩ := (tied.bound k thread here).first group first resume stack notifies
    have later : Tied (events ++ [.began group 0 first]) pool := tied.starts opened rfl
    exact (later.move ((later.bound k thread here).move (fun call member => notifies ▸ member) (by nofun))
      (fun _ member => member) fun _ alive => alive).wake .tasks
  | @dozes k thread group error resume stack found here waits =>
    have later : Tied (events ++ [.turned]) pool := tied.later nofun
    exact later.move ((later.bound k thread here).move (fun call member => waits ▸ member)
      (by nofun)) (fun _ member => member)
      fun _ alive => alive
  | @returns k thread group error resume stack found here waits held done =>
    have later : Tied (events ++ [.returned group found.remaining (error.orElse fun _ => found.error)]) pool :=
      tied.later nofun
    have inner : Bound (events ++ [.returned group found.remaining (error.orElse fun _ => found.error)]) k
        (.running (resume (error.orElse fun _ => found.error)) stack) :=
      (later.bound k thread here).move (fun call member => waits ▸ List.mem_cons_of_mem _ member) nofun
    refine ⟨Lib.Interleaving.forall_get_set later.bound inner, later.queued, later.begun, fun other old => ?_⟩
    by_cases gone : other = group
    · subst gone
      exact .inr ⟨_, _, List.mem_append_right _ (List.mem_singleton_self _)⟩
    · exact (later.left other old).imp_left fun alive => AList.mem_erase.mpr ⟨gone, alive⟩
  | @record k thread group error found here caught held =>
    have later : Tied (events ++ [.turned]) pool := tied.later nofun
    exact later.move ((later.bound k thread here).move (fun call member => absurd member List.not_mem_nil) (by nofun))
      (fun _ member => member) there
  | @countdown k thread group found here counting held =>
    have later : Tied (events ++ [.turned]) pool := tied.later nofun
    have counted : Tied (events ++ [.turned]) { pool with
        threads := pool.threads.set k { thread with control := .polling }
        groups := pool.groups.insert group { found with remaining := found.remaining - 1 } } :=
      later.move ((later.bound k thread here).move (fun call member => absurd member List.not_mem_nil) (by nofun))
        (fun _ member => member) there
    dsimp only [setControl]
    split
    · exact counted.wake (.done group)
    · exact counted

end Ties

section Calls
variable {view : P → Move P ε} {workers : Nat} {inside : Bool} {program : P} {stack : List (Frame P ε)}

/-- The tasks that the program calls `runAll` with, also those `parallelFor` makes. -/
def asks (view : P → Move P ε) (workers : Nat) (program : P) : Option (List P × (Option ε → P)) :=
  match view program with
  | .runAll tasks resume => some (tasks, resume)
  | .parallelFor count minChunk body resume =>
    some (((ThreadPool.inOrder workers false).shards count minChunk).map body, resume)
  | _ => none

/-- A thread that is no worker calls `runAll` with several tasks on a pool that has workers. -/
def Calls (view : P → Move P ε) (pool : TaskPool P ε) (call : GroupCall P ε) : Prop :=
  ∃ program, pool.threads[call.thread]? = some ⟨false, .running program call.frames⟩ ∧
    asks view pool.size program = some (call.tasks, call.next) ∧ 2 ≤ call.tasks.length ∧ pool.size ≠ 0

theorem runAll_opens {tasks rest : List P} {first : P} {resume after : Option ε → P} {below : List (Frame P ε)} :
    runAll workers inside tasks resume stack = .opens first rest after below ↔
      tasks = first :: rest ∧ resume = after ∧ stack = below ∧ rest ≠ [] ∧ workers ≠ 0 ∧ inside = false := by
  rw [runAll.eq_def]
  split
  · simp
  next head tail =>
    split
    next inline =>
      constructor
      · nofun
      · rintro ⟨same, _, _, several, staffed, outside⟩
        cases same
        rcases inline with single | unstaffed | worker
        · exact absurd single several
        · exact absurd unstaffed staffed
        · exact absurd (worker.symm.trans outside) nofun
    next pooled =>
      simp only [not_or, Bool.not_eq_true] at pooled
      constructor
      · intro same
        cases same
        exact ⟨rfl, rfl, rfl, pooled⟩
      · rintro ⟨same, rfl, rfl, _⟩
        cases same
        rfl

theorem unwind_opens {outcome : Option ε} {first : P} {rest : List P} {after : Option ε → P} {below : List (Frame P ε)} :
    unwind outcome stack ≠ .opens first rest after below := by
  rw [unwind.eq_def]
  split
  · nofun
  · split <;> nofun
  · nofun
  · nofun
  · nofun

theorem advance_opens {first : P} {rest : List P} {after : Option ε → P} {below : List (Frame P ε)} :
    advance view workers inside program stack = .opens first rest after below ↔
      asks view workers program = some (first :: rest, after) ∧ stack = below ∧ rest ≠ [] ∧ workers ≠ 0 ∧
        inside = false := by
  cases move : view program with
  | silent after => simp [advance, asks, move]
  | finish outcome => simp [advance, asks, move, unwind_opens]
  | runAll tasks resume => simp only [advance, asks, move, runAll_opens, Option.some.injEq, Prod.mk.injEq, and_assoc]
  | parallelFor count minChunk body resume =>
    simp only [advance, asks, move, runAll_opens, Option.some.injEq, Prod.mk.injEq, and_assoc]
    cases inside with
    | false => rfl
    | true => simp

/-- A program that comes to the end of a task has finished. -/
theorem advance_finish {outcome : Option ε} (ends : (∃ group resume below, advance view workers inside program stack =
      .waits group outcome resume below) ∨ ∃ group index, advance view workers inside program stack =
      .counts group index outcome) :
    view program = .finish outcome ∧ advance view workers inside program stack = unwind outcome stack := by
  have goes {tasks : List P} {resume : Option ε → P} :
      ¬((∃ group after below, runAll workers inside tasks resume stack = .waits group outcome after below) ∨
        ∃ group index, runAll workers inside tasks resume stack = .counts group index outcome) := by
    rw [runAll.eq_def]
    split
    · simp
    · split <;> simp
  rw [advance] at ends ⊢
  cases move : view program with
  | silent after => simp [move] at ends
  | runAll tasks resume =>
    rw [move] at ends
    exact absurd ends goes
  | parallelFor count minChunk body resume =>
    rw [move] at ends
    exact absurd ends goes
  | finish other =>
    rw [move] at ends
    suffices same : other = outcome by
      subst same
      exact ⟨rfl, rfl⟩
    cases stack with
    | nil => simp [unwind] at ends
    | cons frame below =>
      cases frame with
      | inline rest resume =>
        cases rest with
        | nil => simp [unwind] at ends
        | cons task rest => cases other <;> simp [unwind] at ends
      | caller group resume => simpa [unwind] using ends
      | job group index => simpa [unwind] using ends

/-- The events of a thread that runs a program. -/
def Quiet : PoolEvent P ε → Prop
  | .opened .. | .ran .. => False
  | _ => True

theorem step_running {turn : PoolTurn} (loud : ¬Quiet (step view pool turn).1) :
    ∃ k thread program stack, turn = .step k ∧ pool.threads[k]? = some thread ∧ thread.control = .running program stack ∧
      step view pool turn = stepRunning pool k thread (advance view pool.size thread.worker program stack) := by
  cases turn with
  | wake k condition =>
    rw [step] at loud
    split at loud <;> exact absurd trivial loud
  | step k =>
    cases here : pool.threads[k]? with
    | none =>
      simp only [step, here] at loud
      exact absurd trivial loud
    | some thread =>
      simp only [step, here] at loud ⊢
      rw [stepThread] at loud
      split at loud
      next => split at loud <;> exact absurd trivial loud
      next => exact absurd trivial loud
      next program stack runs => exact ⟨k, thread, program, stack, rfl, here, runs, by rw [stepThread, runs]⟩
      next => exact absurd trivial loud
      next =>
        split at loud
        · exact absurd trivial loud
        · split at loud <;> exact absurd trivial loud
      next => exact absurd trivial loud
      next => split at loud <;> exact absurd trivial loud
      next => split at loud <;> exact absurd trivial loud
      next => exact absurd trivial loud

/-- A turn opens a group exactly if it is that of a thread that calls `runAll`. -/
theorem step_opened {turn : PoolTurn} {group : Nat} {call : GroupCall P ε} :
    (step view pool turn).1 = .opened group call ↔
      group = pool.opened ∧ turn = .step call.thread ∧ Calls view pool call := by
  constructor
  · intro event
    obtain ⟨k, ⟨worker, control⟩, program, stack, rfl, here, runs, same⟩ := step_running (by rw [event]; exact id)
    cases runs
    rw [same] at event
    cases went : advance view pool.size worker program stack with
    | opens first rest resume below =>
      obtain ⟨asked, rfl, several, staffed, rfl⟩ := advance_opens.mp went
      rw [went] at event
      cases event
      refine ⟨rfl, rfl, program, here, asked, ?_, staffed⟩
      exact Nat.succ_le_succ (List.length_pos_iff.mpr several)
    | _ =>
      rw [went] at event
      cases event
  · rintro ⟨rfl, rfl, program, here, asked, several, staffed⟩
    obtain ⟨k, tasks, resume, stack⟩ := call
    cases tasks with
    | nil => simp at several
    | cons first rest =>
      have filled : rest ≠ [] := List.length_pos_iff.mp (Nat.le_of_succ_le_succ several)
      have went := advance_opens.mpr ⟨asked, @rfl _ stack, filled, staffed, rfl⟩
      simp only [step, here, stepThread, went, stepRunning]

/-- What ends a task is a thread whose program has finished on the frame of the task. -/
theorem step_ran {turn : PoolTurn} {group index : Nat} {outcome : Option ε}
    (event : (step view pool turn).1 = .ran group index outcome) :
    ∃ k thread program frame below, turn = .step k ∧ pool.threads[k]? = some thread ∧
      thread.control = .running program (frame :: below) ∧ Frame.task frame = some (group, index) ∧
      view program = .finish outcome := by
  obtain ⟨k, thread, program, stack, rfl, here, runs, same⟩ := step_running (by rw [event]; exact id)
  rw [same] at event
  cases went : advance view pool.size thread.worker program stack with
  | waits ended thrown resume below =>
    rw [went] at event
    cases event
    obtain ⟨finished, wound⟩ := advance_finish (.inl ⟨_, _, _, went⟩)
    have top : Advanced pool.size thread.worker stack (unwind outcome stack) := unwind_advanced outcome
    rw [← wound, went] at top
    cases top with
    | waits _ top => exact ⟨k, thread, program, _, _, rfl, here, top ▸ runs, rfl, finished⟩
  | counts ended place thrown =>
    rw [went] at event
    cases event
    obtain ⟨finished, wound⟩ := advance_finish (.inr ⟨_, _, went⟩)
    have top : Advanced pool.size thread.worker stack (unwind outcome stack) := unwind_advanced outcome
    rw [← wound, went] at top
    cases top with
    | counts _ top => exact ⟨k, thread, program, _, _, rfl, here, top ▸ runs, rfl, finished⟩
  | _ =>
    rw [went] at event
    cases event

/-- What begins a task is a thread that runs it from then on. -/
theorem Stepped.begins {group index : Nat} {task : P} (stepped : Stepped pool (.began group index task) next) :
    ∃ thread ∈ next.threads, ∃ frame below, thread.control = .running task (frame :: below) ∧
      Frame.task frame = some (group, index) := by
  cases stepped with
  | @take k thread job rest here => exact ⟨_, Lib.Interleaving.mem_set_self here _, _, _, rfl, rfl⟩
  | notify here => exact ⟨_, List.mem_map_of_mem (Lib.Interleaving.mem_set_self here _), _, _, rfl, rfl⟩

end Calls

section Completion
variable {view : P → Move P ε} {group : Nat}

/-- The thread is in the wait of `runAll`. -/
def Waits : Control P ε → Prop
  | .waiting .. | .dozing .. => True
  | _ => False

/-- A group is opened by one call. -/
theorem Accounted.opened_once (accounted : Accounted events pool) {call other : GroupCall P ε}
    (first : .opened group call ∈ events) (second : .opened group other ∈ events) : call = other := by
  have apart : ((openings events).map Prod.fst).Nodup := accounted.numbered ▸ List.nodup_range
  have here : (group, call) ∈ openings events := List.mem_filterMap.mpr ⟨_, first, rfl⟩
  have there : (group, other) ∈ openings events := List.mem_filterMap.mpr ⟨_, second, rfl⟩
  exact (Prod.mk.inj (List.inj_on_of_nodup_map apart here there rfl)).2

theorem Accounted.opened_lt (accounted : Accounted events pool) {call : GroupCall P ε}
    (opened : .opened group call ∈ events) :
    group < pool.opened := by
  have number : group ∈ (openings events).map Prod.fst :=
    List.mem_map.mpr ⟨(group, call), List.mem_filterMap.mpr ⟨_, opened, rfl⟩, rfl⟩
  rw [accounted.numbered] at number
  exact List.mem_range.mp number

theorem owned_calling {thread : Thread P ε} (owns : group ∈ owned thread) :
    ∃ resume below, (group, resume, below) ∈ calling thread.control := by
  have onStack : ∀ {stack : List (Frame P ε)}, group ∈ stack.filterMap Frame.group →
      ∃ resume below, (group, resume, below) ∈ callers stack := by
    intro stack member
    induction stack with
    | nil => cases member
    | cons frame stack ih =>
      cases frame with
      | inline => exact ih member
      | job => exact ih member
      | caller other resume =>
        rcases List.mem_cons.mp member with rfl | below
        · exact ⟨resume, stack, List.mem_cons_self⟩
        · obtain ⟨after, under, inside⟩ := ih below
          exact ⟨after, under, List.mem_cons_of_mem _ inside⟩
  have onTop {other : Nat} {resume : Option ε → P} {stack : List (Frame P ε)}
      (member : group ∈ other :: stack.filterMap Frame.group) :
      ∃ after below, (group, after, below) ∈ (other, resume, stack) :: callers stack := by
    rcases List.mem_cons.mp member with rfl | below
    · exact ⟨resume, stack, List.mem_cons_self⟩
    · obtain ⟨after, under, inside⟩ := onStack below
      exact ⟨after, under, List.mem_cons_of_mem _ inside⟩
  obtain ⟨worker, control⟩ := thread
  cases control with
  | running program stack => exact onStack owns
  | notifying => exact onTop owns
  | waiting => exact onTop owns
  | dozing => exact onTop owns
  | _ => cases owns

/-- Until the group has been left its caller is inside the call. -/
theorem Tied.inside (tied : Tied events pool) (accounted : Accounted events pool) {call : GroupCall P ε}
    (opened : .opened group call ∈ events) (alive : group ∈ pool.groups) :
    ∃ thread, pool.threads[call.thread]? = some thread ∧ (group, call.next, call.frames) ∈ calling thread.control := by
  have one := accounted.owners group
  rw [if_pos alive] at one
  obtain ⟨thread, member, owns⟩ := Lib.Interleaving.mem_tally.mp
    (List.count_pos_iff.mp (Nat.lt_of_lt_of_eq Nat.one_pos one.symm))
  obtain ⟨k, here⟩ := List.mem_iff_getElem?.mp member
  obtain ⟨resume, below, inside⟩ := owned_calling owns
  obtain ⟨tasks, first⟩ := (tied.bound k thread here).calls group resume below inside
  obtain rfl := accounted.opened_once opened first
  exact ⟨thread, here, inside⟩

/-- The call returns when all its tasks have run, and its caller goes on after it. -/
theorem Stepped.completed (accounted : Accounted events pool) (reported : Reported events pool) (tied : Tied events pool)
    {remaining : Nat} {outcome : Option ε} (stepped : Stepped pool (.returned group remaining outcome) next) :
    remaining = 0 ∧ ∃ call, .opened group call ∈ events ∧ Completed events group call.tasks outcome ∧
      ∃ thread, pool.threads[call.thread]? = some thread ∧ next.threads = pool.threads.set call.thread
        { thread with control := .running (call.next outcome) call.frames } := by
  have after := accounted.stepped stepped
  cases stepped with
  | @returns k thread _ callerError resume stack found here waits held done =>
    have alive : group ∈ pool.groups := (Lib.FiniteMap.mem_iff_lookup _ _).mpr ⟨found, held⟩
    obtain ⟨openings_, tasks_, begun_, ended_⟩ :=
      @silent_counts P ε (.returned group found.remaining (callerError.orElse fun _ => found.error)) events trivial
    have inside : (group, resume, stack) ∈ calling thread.control := by
      rw [waits]
      exact List.mem_cons_self
    obtain ⟨tasks, mine⟩ := (tied.bound k thread here).calls group resume stack inside
    refine ⟨done, _, mine, ⟨fun index task listed => ?_, fun index task began => ?_, fun error same => ?_,
      fun index error ran swallowed => ?_⟩, thread, here, rfl⟩
    · obtain ⟨call, opened, single⟩ := accounted.opening (accounted.living group alive)
      obtain rfl := accounted.opened_once mine opened
      obtain ⟨place, _⟩ := List.getElem?_eq_some_iff.mp listed
      obtain ⟨starts, ends⟩ := after.finished (fun member => (AList.mem_erase.mp member).1 rfl) index
      rw [begun_, tasks_, single index place] at starts
      rw [ended_, tasks_, single index place] at ends
      refine ⟨?_, starts, ends⟩
      obtain ⟨event, began, same⟩ := List.mem_filterMap.mp
        (List.count_pos_iff.mp (Nat.lt_of_lt_of_eq Nat.one_pos starts.symm))
      cases event with
      | began other place program =>
        cases same
        obtain ⟨call, opened, found⟩ := tied.begun _ _ _ began
        obtain rfl := accounted.opened_once mine opened
        cases found.symm.trans listed
        exact began
      | _ => cases same
    · obtain ⟨call, opened, found⟩ := tied.begun _ _ _ began
      obtain rfl := accounted.opened_once mine opened
      exact found
    · apply reported.thrown
      cases callerError with
      | none => exact .inl ⟨found, held, same⟩
      | some first =>
        cases same
        refine .inr ⟨thread, List.mem_of_getElem? here, ?_⟩
        rw [carries, waits]
        exact List.mem_singleton_self _
    · obtain ⟨other, kept⟩ := reported.kept ran alive
      rcases accounted.alone here waits held done kept with rfl | recorded
      · cases swallowed
      · cases callerError with
        | none => cases recorded.symm.trans swallowed
        | some first => cases swallowed

theorem tied_start {w : Nat} {programs : List P} : Tied [] (start w programs : TaskPool P ε) where
  bound k thread here := by
    rcases start_cases (List.mem_of_getElem? here) with rfl | ⟨program, rfl⟩
    · exact ⟨fun _ _ _ member => absurd member List.not_mem_nil, by nofun⟩
    · exact ⟨fun _ _ _ member => absurd member List.not_mem_nil, by nofun⟩
  queued job member := absurd member List.not_mem_nil
  begun group index task member := absurd member List.not_mem_nil
  left group old := absurd old (Nat.not_lt_zero group)

theorem tied_after (view : P → Move P ε) (w : Nat) (programs : List P) (turns : List PoolTurn) :
    Tied (outputs (step view) (start w programs) turns) (after (step view) (start w programs) turns) := by
  refine (Lib.Machine.invariant_outputs (P := fun events pool => Accounted events pool ∧ Tied events pool)
    ⟨accounted_start, tied_start⟩ ?_ turns).2
  rintro events pool turn ⟨accounted, tied⟩
  have stepped : Stepped pool (step view pool turn).1 (step view pool turn).2 := step_stepped accounted.manned turn
  exact ⟨accounted.stepped stepped, tied.stepped stepped⟩

/-- The pool after some turns, and the next one. -/
structure Runs (view : P → Move P ε) (events : List (PoolEvent P ε)) (pool : TaskPool P ε) : Prop where
  opens : ∀ turn group call, (step view pool turn).1 = .opened group call ↔
    group = pool.opened ∧ turn = .step call.thread ∧ Calls view pool call
  fresh : ∀ call, .opened pool.opened call ∉ events
  inside : ∀ group call, .opened group call ∈ events → (∃ remaining outcome, .returned group remaining outcome ∈ events) ∨
    group ∈ pool.groups ∧ ∃ thread, pool.threads[call.thread]? = some thread ∧
      (group, call.next, call.frames) ∈ calling thread.control
  returns : ∀ turn group remaining outcome, (step view pool turn).1 = .returned group remaining outcome →
    remaining = 0 ∧ ∃ call, .opened group call ∈ events ∧ Completed events group call.tasks outcome ∧
      ∃ thread, pool.threads[call.thread]? = some thread ∧ (step view pool turn).2.threads = pool.threads.set call.thread
        { thread with control := .running (call.next outcome) call.frames }
  begins : ∀ turn group index task, (step view pool turn).1 = .began group index task →
    ∃ thread ∈ (step view pool turn).2.threads, ∃ frame below, thread.control = .running task (frame :: below) ∧
      Frame.task frame = some (group, index)
  ends : ∀ turn group index outcome, (step view pool turn).1 = .ran group index outcome →
    ∃ k thread program frame below, turn = .step k ∧ pool.threads[k]? = some thread ∧
      thread.control = .running program (frame :: below) ∧ Frame.task frame = some (group, index) ∧
      view program = .finish outcome
  once : ∀ task, (begun events).count task ≤ 1
  safe : ∀ turn, (step view pool turn).1 ≠ .dangling
  moves : ∀ group ∈ pool.groups, ∃ k, (step view pool (.step k)).1 ≠ .blocked
  workers : ∀ thread ∈ pool.threads, thread.worker = true → ¬Waits thread.control

/-- A call of `runAll` with several tasks from outside the pool opens a group for them and
is left when all of them have run, with an exception if one was thrown; until then
its caller is inside it. No task runs twice, and as long as there is a group some thread
can go on. -/
theorem groups_complete (view : P → Move P ε) (w : Nat) (programs : List P) (turns : List PoolTurn) :
    Runs view (outputs (step view) (start w programs) turns) (after (step view) (start w programs) turns) := by
  obtain ⟨accounted, reported, rested⟩ := run_holds view w programs turns
  have tied := tied_after view w programs turns
  refine ⟨fun _ _ _ => step_opened, fun call opened => lt_irrefl _ (accounted.opened_lt opened), fun group call opened => ?_,
    fun turn group remaining outcome answer => ?_, fun turn group index task answer => ?_, fun _ _ _ _ => step_ran,
    fun task => ?_, fun turn => ?_, fun group => accounted.moves rested, fun thread member kind waits => ?_⟩
  · rcases tied.left group (accounted.opened_lt opened) with alive | gone
    · exact .inr ⟨alive, tied.inside accounted opened alive⟩
    · exact .inl gone
  · have stepped : Stepped _ (step view _ turn).1 (step view _ turn).2 := step_stepped accounted.manned turn
    rw [answer] at stepped
    exact stepped.completed accounted reported tied
  · have stepped : Stepped _ (step view _ turn).1 (step view _ turn).2 := step_stepped accounted.manned turn
    rw [answer] at stepped
    exact stepped.begins
  · have tasks := accounted.tasks task
    have single := List.nodup_iff_count_le_one.mp accounted.distinct task
    omega
  · exact (step_stepped accounted.manned turn).safe accounted
  · have place := (accounted.manned thread member).worker kind
    obtain ⟨_, control⟩ := thread
    cases control with
    | waiting => exact place
    | dozing => exact place
    | _ => exact waits

/-- Of two tasks one calls `parallelFor` itself and the other throws. -/
private def nested : Nat → Move Nat Nat
  | 0 => .runAll [1, 2] fun _ => 3
  | 1 => .parallelFor 2 1 (fun shard => 4 + shard.1) fun _ => 3
  | 2 => .finish (some 7)
  | _ => .finish none

private def nestedTurns : List PoolTurn := ([1, 1, 1, 1, 1, 0, 0, 0, 0, 0, 0, 0, 1, 1] : List Nat).map .step

theorem groups_complete_nested :
    (step nested (after (step nested) (start 1 [0]) nestedTurns) (.step 1)).1 = .returned 0 0 (some 7) ∧
      Completed (outputs (step nested) (start 1 [0]) nestedTurns) 0 [1, 2] (some 7) ∧
      begun (outputs (step nested) (start 1 [0]) nestedTurns) = [(0, 0), (1, 0), (0, 1), (1, 1)] := by
  have returned : (step nested (after (step nested) (start 1 [0]) nestedTurns) (.step 1)).1 = .returned 0 0 (some 7) := by
    with_unfolding_all rfl
  have mine : .opened 0 ⟨1, [1, 2], fun _ => 3, []⟩ ∈ outputs (step nested) (start 1 [0]) nestedTurns := by
    refine List.mem_map.mpr ⟨_, List.mem_cons_self, ?_⟩
    with_unfolding_all rfl
  obtain ⟨_, call, opened, completed, _⟩ := (groups_complete nested 1 [0] nestedTurns).returns (.step 1) 0 0 (some 7) returned
  have same := (run_holds nested 1 [0] nestedTurns).1.opened_once mine opened
  rw [← same] at completed
  exact ⟨returned, completed, by decide +kernel⟩

end Completion
end TaskPool
end FromScratch.Inference
