import FromScratch.Inference.TaskGroups
import FromScratch.Lib.Interleaving
import FromScratch.Lib.Machine

/-! The groups of the worker pool over whole runs. Every task of a group is in the
queue, about to be called, running or done; what the group has still to count is
in the queue or with a worker, so the call of `runAll` returns when all is done. -/

namespace FromScratch.Inference
open Lib (FiniteMap)
open Lib.Interleaving (tally)
open Lib.Machine (outputs after)

variable {P ε : Type}

def Job.key (job : Job P) : Nat × Nat := (job.group, job.index)

namespace TaskPool

section Holdings

/-- The task that returns to this frame. -/
def Frame.task : Frame P ε → Option (Nat × Nat)
  | .inline _ _ => none
  | .caller group _ => some (group, 0)
  | .job group index => some (group, index)

def Frame.debt : Frame P ε → Option Nat
  | .job group _ => some group
  | _ => none

def Frame.group : Frame P ε → Option Nat
  | .caller group _ => some group
  | _ => none

def frames : Control P ε → List (Frame P ε)
  | .running _ frames | .notifying _ _ _ frames | .waiting _ _ _ frames | .dozing _ _ _ frames => frames
  | _ => []

/-- The task that is called next. -/
def fresh (thread : Thread P ε) : List (Nat × Nat) :=
  match thread.control with
  | .notifying group _ _ _ => [(group, 0)]
  | _ => []

/-- The tasks that have begun and not ended. -/
def under (thread : Thread P ε) : List (Nat × Nat) := (frames thread.control).filterMap Frame.task

/-- The groups that the thread will count down. -/
def debts (thread : Thread P ε) : List Nat :=
  match thread.control with
  | .caught group _ | .counting group => [group]
  | control => (frames control).filterMap Frame.debt

/-- The groups whose stack frame is the thread's. -/
def owned (thread : Thread P ε) : List Nat :=
  match thread.control with
  | .notifying group _ _ frames | .waiting group _ _ frames | .dozing group _ _ frames =>
      group :: frames.filterMap Frame.group
  | control => (frames control).filterMap Frame.group

/-- The calls of `runAll` on the stack, each with what comes after it. -/
def callers : List (Frame P ε) → List (Nat × (Option ε → P) × List (Frame P ε))
  | [] => []
  | .caller group next :: below => (group, next, below) :: callers below
  | .inline _ _ :: below | .job _ _ :: below => callers below

/-- The calls of `runAll` that the thread is in. -/
def calling : Control P ε → List (Nat × (Option ε → P) × List (Frame P ε))
  | .running _ frames => callers frames
  | .notifying group _ next frames | .waiting group _ next frames | .dozing group _ next frames =>
      (group, next, frames) :: callers frames
  | _ => []

/-- The frames of a worker: the loops of nested calls, and the task it took. -/
def Staff : List (Frame P ε) → Prop
  | [.job _ _] => True
  | .inline _ _ :: frames => Staff frames
  | _ => False

/-- The frames of another thread. -/
def Guest (frames : List (Frame P ε)) : Prop := frames.filterMap Frame.debt = []

def WorkerAt : Control P ε → Prop
  | .polling | .asleep | .caught _ _ | .counting _ => True
  | .running _ frames => Staff frames
  | _ => False

def GuestAt : Control P ε → Prop
  | .running _ frames | .notifying _ _ _ frames | .waiting _ _ _ frames | .dozing _ _ _ frames => Guest frames
  | .ended _ => True
  | _ => False

/-- Where a worker and where another thread can be. -/
structure Manned (thread : Thread P ε) : Prop where
  worker : thread.worker = true → WorkerAt thread.control
  guest : thread.worker = false → GuestAt thread.control

/-- The thread has nothing to do with a group but through its frames. -/
def Plain : Control P ε → Prop
  | .polling | .asleep | .running _ _ | .ended _ => True
  | _ => False

end Holdings

section Frames
variable {view : P → Move P ε} {workers : Nat} {inside : Bool} {program : P} {stack : List (Frame P ε)}

theorem Staff.owned (staff : Staff stack) : stack.filterMap Frame.group = [] := by
  induction stack with
  | nil => rfl
  | cons frame stack ih =>
    cases frame with
    | inline rest next => exact ih staff
    | caller group next => cases staff
    | job group index =>
      cases stack with
      | nil => rfl
      | cons => cases staff

/-- The loops of nested calls come and go. -/
structure Loops (before after : List (Frame P ε)) : Prop where
  task : after.filterMap Frame.task = before.filterMap Frame.task
  debt : after.filterMap Frame.debt = before.filterMap Frame.debt
  group : after.filterMap Frame.group = before.filterMap Frame.group
  callers : callers after = callers before
  staff : Staff before → Staff after

theorem Loops.refl (stack : List (Frame P ε)) : Loops stack stack := ⟨rfl, rfl, rfl, rfl, id⟩

theorem Loops.push (rest : List P) (next : Option ε → P) (stack : List (Frame P ε)) :
    Loops stack (.inline rest next :: stack) :=
  ⟨rfl, rfl, rfl, rfl, id⟩

theorem Loops.replace (rest left : List P) (next again : Option ε → P) (stack : List (Frame P ε)) :
    Loops (.inline rest next :: stack) (.inline left again :: stack) := ⟨rfl, rfl, rfl, rfl, id⟩

theorem Loops.pop (rest : List P) (next : Option ε → P) (stack : List (Frame P ε)) :
    Loops (.inline rest next :: stack) stack :=
  ⟨rfl, rfl, rfl, rfl, id⟩

/-- What a running thread can come to. -/
inductive Advanced (workers : Nat) (inside : Bool) (stack : List (Frame P ε)) : Advance P ε → Prop
  | goes (program : P) {after : List (Frame P ε)} (loops : Loops stack after) :
      Advanced workers inside stack (.goes program after)
  | opens (first : P) (rest : List P) (next : Option ε → P) (staffed : workers ≠ 0) (outside : inside = false) :
      Advanced workers inside stack (.opens first rest next stack)
  | waits {group : Nat} (outcome : Option ε) {next : Option ε → P} {after : List (Frame P ε)}
      (top : stack = .caller group next :: after) :
      Advanced workers inside stack (.waits group outcome next after)
  | counts {group index : Nat} (outcome : Option ε) {after : List (Frame P ε)} (top : stack = .job group index :: after) :
      Advanced workers inside stack (.counts group index outcome)
  | ends (outcome : Option ε) (top : stack = []) : Advanced workers inside stack (.ends outcome)

theorem runAll_advanced (tasks : List P) (next : Option ε → P) :
    Advanced workers inside stack (runAll workers inside tasks next stack) := by
  cases tasks with
  | nil => exact .goes _ (.refl stack)
  | cons first rest =>
    rw [runAll]
    split
    · exact .goes _ (.push rest next stack)
    next pooled =>
      obtain ⟨_, staffed, outside⟩ := by simpa only [not_or] using pooled
      exact .opens first rest next staffed (Bool.eq_false_iff.mpr outside)

theorem unwind_advanced (outcome : Option ε) : Advanced workers inside stack (unwind outcome stack) := by
  cases stack with
  | nil => exact .ends outcome rfl
  | cons frame stack =>
    cases frame with
    | caller group next => exact .waits outcome rfl
    | job group index => exact .counts outcome rfl
    | inline rest next =>
      cases rest with
      | nil => exact .goes _ (.pop [] next stack)
      | cons task rest =>
        cases outcome with
        | none => exact .goes _ (.replace (task :: rest) rest next next stack)
        | some error => exact .goes _ (.pop (task :: rest) next stack)

theorem advance_advanced : Advanced workers inside stack (advance view workers inside program stack) := by
  rw [advance]
  split
  · exact .goes _ (.refl stack)
  · exact unwind_advanced _
  · exact runAll_advanced _ _
  · exact runAll_advanced _ _

end Frames

section Steps
variable {view : P → Move P ε} {pool next : TaskPool P ε} {event : PoolEvent P ε}

/-- What a turn can do. -/
inductive Stepped (pool : TaskPool P ε) : PoolEvent P ε → TaskPool P ε → Prop
  | blocked : Stepped pool .blocked pool
  | wakes {k : Nat} {thread : Thread P ε} (condition : Condition) (here : pool.threads[k]? = some thread) :
      Stepped pool .turned { pool with threads := pool.threads.set k (thread.wake condition) }
  | dangling {k : Nat} {thread : Thread P ε} {group : Nat} (here : pool.threads[k]? = some thread)
      (touches : group ∈ owned thread ∨ group ∈ debts thread) (gone : pool.groups.lookup group = none) :
      Stepped pool .dangling pool
  | shift {k : Nat} {thread : Thread P ε} (control : Control P ε) (here : pool.threads[k]? = some thread)
      (before : Plain thread.control) (after : Plain control) (task : under { thread with control } = under thread)
      (debt : debts { thread with control } = debts thread) (group : owned { thread with control } = owned thread)
      (calls : calling control = calling thread.control) (manned : Manned { thread with control })
      (drowsy : control = .asleep → pool.queue = []) :
      Stepped pool .turned (pool.setControl k thread control)
  | take {k : Nat} {thread : Thread P ε} {job : Job P} {rest : List (Job P)} (here : pool.threads[k]? = some thread)
      (idle : thread.control = .polling) (queued : pool.queue = job :: rest) :
      Stepped pool (.began job.group job.index job.task)
        { pool.setControl k thread (.running job.task [.job job.group job.index]) with queue := rest }
  | opens {k : Nat} {thread : Thread P ε} {program : P} {stack : List (Frame P ε)} (first : P) (rest : List P)
      (resume : Option ε → P)
      (here : pool.threads[k]? = some thread) (runs : thread.control = .running program stack) (staffed : pool.size ≠ 0)
      (outside : thread.worker = false) :
      Stepped pool (.opened pool.opened ⟨k, first :: rest, resume, stack⟩)
        { pool.setControl k thread (.notifying pool.opened first resume stack) with
        queue := pool.queue ++ (rest.zipIdx 1).map fun (task, index) => ⟨pool.opened, index, task⟩
        groups := pool.groups.insert pool.opened ⟨rest.length, none⟩
        opened := pool.opened + 1 }
  | waits {k : Nat} {thread : Thread P ε} {program : P} {group : Nat} {resume : Option ε → P} {stack : List (Frame P ε)}
      (outcome : Option ε) (here : pool.threads[k]? = some thread)
      (runs : thread.control = .running program (.caller group resume :: stack)) :
      Stepped pool (.ran group 0 outcome) (pool.setControl k thread (.waiting group outcome resume stack))
  | counts {k : Nat} {thread : Thread P ε} {program : P} {group index : Nat} {stack : List (Frame P ε)} (outcome : Option ε)
      (here : pool.threads[k]? = some thread) (runs : thread.control = .running program (.job group index :: stack)) :
      Stepped pool (.ran group index outcome) (pool.setControl k thread (outcome.elim (.counting group) (.caught group)))
  | notify {k : Nat} {thread : Thread P ε} {group : Nat} {first : P} {resume : Option ε → P} {stack : List (Frame P ε)}
      (here : pool.threads[k]? = some thread) (notifies : thread.control = .notifying group first resume stack) :
      Stepped pool (.began group 0 first) { pool with
        threads := (pool.setControl k thread (.running first (.caller group resume :: stack))).threads.map
          (Thread.wake .tasks) }
  | dozes {k : Nat} {thread : Thread P ε} {group : Nat} {error : Option ε} {resume : Option ε → P} {stack : List (Frame P ε)}
      {found : TaskGroup ε} (here : pool.threads[k]? = some thread) (waits : thread.control =
        .waiting group error resume stack)
      (held : pool.groups.lookup group = some found) (busy : found.remaining ≠ 0) :
      Stepped pool .turned (pool.setControl k thread (.dozing group error resume stack))
  | returns {k : Nat} {thread : Thread P ε} {group : Nat} {error : Option ε} {resume : Option ε → P}
      {stack : List (Frame P ε)}
      {found : TaskGroup ε} (here : pool.threads[k]? = some thread) (waits : thread.control =
        .waiting group error resume stack)
      (held : pool.groups.lookup group = some found) (done : found.remaining = 0) :
      Stepped pool (.returned group found.remaining (error.orElse fun _ => found.error))
        { pool.setControl k thread (.running (resume (error.orElse fun _ => found.error)) stack) with
          groups := pool.groups.erase group }
  | record {k : Nat} {thread : Thread P ε} {group : Nat} {error : ε} {found : TaskGroup ε}
      (here : pool.threads[k]? = some thread)
      (caught : thread.control = .caught group error) (held : pool.groups.lookup group = some found) :
      Stepped pool .turned { pool.setControl k thread (.counting group) with
        groups := pool.groups.insert group { found with error := found.error.orElse fun _ => some error } }
  | countdown {k : Nat} {thread : Thread P ε} {group : Nat} {found : TaskGroup ε} (here : pool.threads[k]? = some thread)
      (counting : thread.control = .counting group) (held : pool.groups.lookup group = some found) :
      Stepped pool .turned { pool with
        threads := if found.remaining - 1 =
          0 then (pool.setControl k thread .polling).threads.map (Thread.wake (.done group))
          else (pool.setControl k thread .polling).threads
        groups := pool.groups.insert group { found with remaining := found.remaining - 1 } }

theorem stepRunning_stepped {k : Nat} {thread : Thread P ε} {program : P} {stack : List (Frame P ε)} {advance : Advance P ε}
    (here : pool.threads[k]? = some thread) (runs : thread.control = .running program stack) (manned : Manned thread)
    (advanced : Advanced pool.size thread.worker stack advance) :
    Stepped pool (stepRunning pool k thread advance).1 (stepRunning pool k thread advance).2 := by
  obtain ⟨worker, guest⟩ := manned
  cases advanced with
  | @goes program after loops =>
    have task : under { thread with control := .running program after } = under thread := by
      rw [under, under, runs]
      exact loops.task
    have debt : debts { thread with control := .running program after } = debts thread := by
      rw [debts, debts, runs]
      exact loops.debt
    have group : owned { thread with control := .running program after } = owned thread := by
      rw [owned, owned, runs]
      exact loops.group
    have calls : calling (.running program after) = calling thread.control := by
      rw [runs]
      exact loops.callers
    refine .shift (.running program after) here (by rw [runs]; trivial) trivial task debt group calls ?_ nofun
    rw [runs] at worker guest
    exact ⟨fun kind => loops.staff (worker kind), fun kind => loops.debt.trans (guest kind)⟩
  | opens first rest next staffed outside => exact .opens first rest next here runs staffed outside
  | waits outcome top => exact .waits outcome here (by rw [runs, top])
  | counts outcome top => exact .counts outcome here (by rw [runs, top])
  | ends outcome top =>
    subst top
    rw [runs] at worker
    refine .shift (.ended outcome) here (by rw [runs]; trivial) trivial ?_ ?_ ?_ (by rw [runs]; rfl) ?_ nofun
    · rw [under, under, runs]
      rfl
    · rw [debts, debts, runs]
      rfl
    · rw [owned, owned, runs]
      rfl
    · exact ⟨fun kind => absurd (worker kind) id, fun _ => trivial⟩

theorem stepThread_stepped {k : Nat} {thread : Thread P ε} (here : pool.threads[k]? = some thread) (manned : Manned thread) :
    Stepped pool (stepThread view pool k thread).1 (stepThread view pool k thread).2 := by
  rw [stepThread]
  split
  next idle =>
    split
    next empty =>
      refine .shift .asleep here (by rw [idle]; trivial) trivial ?_ ?_ ?_ (by rw [idle]; rfl) ?_ fun _ => empty
      · rw [under, under, idle]
        rfl
      · rw [debts, debts, idle]
        rfl
      · rw [owned, owned, idle]
        rfl
      · have guest := manned.guest
        rw [idle] at guest
        exact ⟨fun _ => trivial, guest⟩
    next job rest queued => exact .take here idle queued
  next => exact .blocked
  next program stack runs => exact stepRunning_stepped here runs manned advance_advanced
  next group first resume stack notifies => exact .notify here notifies
  next group error resume stack waits =>
    split
    next gone => exact .dangling here (.inl (by rw [owned, waits]; exact List.mem_cons_self)) gone
    next found held =>
      split
      next done => exact .returns here waits held done
      next busy => exact .dozes here waits held busy
  next => exact .blocked
  next group error caught =>
    split
    next gone => exact .dangling here (.inr (by rw [debts, caught]; exact List.mem_cons_self)) gone
    next found held => exact .record here caught held
  next group counting =>
    split
    next gone => exact .dangling here (.inr (by rw [debts, counting]; exact List.mem_cons_self)) gone
    next found held => exact .countdown here counting held
  next => exact .blocked

theorem step_stepped (manned : ∀ thread ∈ pool.threads, Manned thread) (turn : PoolTurn) :
    Stepped pool (step view pool turn).1 (step view pool turn).2 := by
  cases turn with
  | step k =>
    rw [step]
    split
    · exact .blocked
    next thread here => exact stepThread_stepped here (manned thread (List.mem_of_getElem? here))
  | wake k condition =>
    rw [step]
    split
    · exact .blocked
    next thread here => exact .wakes condition here

end Steps

section Accounts
variable {pool next : TaskPool P ε} {event : PoolEvent P ε} {events : List (PoolEvent P ε)}

/-- The groups and the calls that opened them. -/
def openings (events : List (PoolEvent P ε)) : List (Nat × GroupCall P ε) :=
  events.filterMap fun | .opened group call => some (group, call) | _ => none

def tasksOf (events : List (PoolEvent P ε)) : List (Nat × Nat) :=
  (openings events).flatMap fun opening => (List.range opening.2.tasks.length).map fun index => (opening.1, index)

def begun (events : List (PoolEvent P ε)) : List (Nat × Nat) :=
  events.filterMap fun | .began group index _ => some (group, index) | _ => none

def ended (events : List (PoolEvent P ε)) : List (Nat × Nat) :=
  events.filterMap fun | .ran group index _ => some (group, index) | _ => none

theorem tasksOf_congr {later : List (PoolEvent P ε)} (same : openings later = openings events) :
    tasksOf later = tasksOf events := by
  rw [tasksOf, tasksOf, same]

/-- Where the tasks are, and who counts them. -/
structure Accounted (events : List (PoolEvent P ε)) (pool : TaskPool P ε) : Prop where
  manned : ∀ thread ∈ pool.threads, Manned thread
  numbered : (openings events).map Prod.fst = List.range pool.opened
  tasks : ∀ task, (pool.queue.map Job.key).count task + (tally fresh pool.threads).count task + (begun events).count task =
    (tasksOf events).count task
  running : ∀ task, (begun events).count task = (tally under pool.threads).count task + (ended events).count task
  remaining : ∀ group, (pool.groups.lookup group).elim 0 TaskGroup.remaining =
    (pool.queue.map Job.group).count group + (tally debts pool.threads).count group
  owners : ∀ group, (tally owned pool.threads).count group = if group ∈ pool.groups then 1 else 0
  living : ∀ group ∈ pool.groups, group < pool.opened

/-- An event that neither opens a group nor begins or ends a task. -/
def Silent : PoolEvent P ε → Prop
  | .opened _ _ | .began _ _ _ | .ran _ _ _ => False
  | _ => True

theorem silent_turned : Silent (.turned : PoolEvent P ε) := trivial

theorem silent_counts (silent : Silent event) : openings (events ++ [event]) = openings events ∧
    tasksOf (events ++ [event]) = tasksOf events ∧ begun (events ++ [event]) = begun events ∧
    ended (events ++ [event]) = ended events := by
  cases event with
  | opened group call => cases silent
  | began group index task => cases silent
  | ran group index outcome => cases silent
  | _ => simp [openings, tasksOf, begun, ended]

/-- What a notification does to a thread. -/
theorem wake_cases (condition : Condition) (thread : Thread P ε) : thread.wake condition = thread ∨
    (condition = .tasks ∧ thread.control = .asleep ∧ thread.wake condition = { thread with control := .polling }) ∨
    ∃ group error next stack, condition = .done group ∧ thread.control = .dozing group error next stack ∧
      thread.wake condition = { thread with control := .waiting group error next stack } := by
  rw [Thread.wake]
  split
  next asleep =>
    split
    next tasks => exact .inr (.inl ⟨tasks, asleep, rfl⟩)
    next => exact .inl rfl
  next group error next stack dozing =>
    split
    next done => exact .inr (.inr ⟨group, error, next, stack, done, dozing, rfl⟩)
    next => exact .inl rfl
  next => exact .inl rfl

/-- What does not tell the two sides of a wait apart is not changed by a notification. -/
theorem wake_same {α : Type} {holds : Thread P ε → α} (condition : Condition) (thread : Thread P ε)
    (tasks : holds ⟨thread.worker, .polling⟩ = holds ⟨thread.worker, .asleep⟩)
    (done : ∀ group error next stack,
      holds ⟨thread.worker, .waiting group error next stack⟩ = holds ⟨thread.worker, .dozing group error next stack⟩) :
    holds (thread.wake condition) = holds thread := by
  obtain ⟨worker, control⟩ := thread
  rcases wake_cases condition ⟨worker, control⟩ with same | ⟨_, asleep, woken⟩ | ⟨group, error, next, stack, _, dozing,
    woken⟩
  · rw [same]
  · cases asleep
    rw [woken]
    exact tasks
  · cases dozing
    rw [woken]
    exact done group error next stack

theorem fresh_wake (condition : Condition) (thread : Thread P ε) : fresh (thread.wake condition) = fresh thread :=
  wake_same condition thread rfl fun _ _ _ _ => rfl

theorem under_wake (condition : Condition) (thread : Thread P ε) : under (thread.wake condition) = under thread :=
  wake_same condition thread rfl fun _ _ _ _ => rfl

theorem debts_wake (condition : Condition) (thread : Thread P ε) : debts (thread.wake condition) = debts thread :=
  wake_same condition thread rfl fun _ _ _ _ => rfl

theorem owned_wake (condition : Condition) (thread : Thread P ε) : owned (thread.wake condition) = owned thread :=
  wake_same condition thread rfl fun _ _ _ _ => rfl

theorem manned_wake {condition : Condition} {thread : Thread P ε} (manned : Manned thread) :
    Manned (thread.wake condition) := by
  obtain ⟨worker, control⟩ := thread
  obtain ⟨staff, guest⟩ := manned
  rcases wake_cases condition ⟨worker, control⟩ with same | ⟨_, asleep, woken⟩ | ⟨group, error, next, stack, _, dozing,
    woken⟩
  · rw [same]
    exact ⟨staff, guest⟩
  · cases asleep
    rw [woken]
    exact ⟨fun _ => trivial, guest⟩
  · cases dozing
    rw [woken]
    exact ⟨staff, guest⟩

/-- The frame of a task from the queue is the last one. -/
theorem Manned.last {worker : Bool} {program : P} {group index : Nat} {stack : List (Frame P ε)}
    (manned : Manned ⟨worker, .running program (.job group index :: stack)⟩) : worker = true ∧ stack = [] := by
  cases worker with
  | false => cases manned.guest rfl
  | true =>
    cases stack with
    | nil => exact ⟨rfl, rfl⟩
    | cons => cases manned.worker rfl

theorem fresh_plain {thread : Thread P ε} (plain : Plain thread.control) : fresh thread = [] := by
  rw [fresh]
  split
  next notifies =>
    rw [notifies] at plain
    cases plain
  next => rfl

/-- A group that a worker will count down is there. -/
theorem Accounted.owed (accounted : Accounted events pool) {thread : Thread P ε} (member : thread ∈ pool.threads)
    {group : Nat}
    (debt : group ∈ debts thread) : ∃ found, pool.groups.lookup group = some found ∧ 0 < found.remaining := by
  have count := accounted.remaining group
  have positive : 0 < (tally debts pool.threads).count group :=
    List.count_pos_iff.mpr (Lib.Interleaving.mem_tally.mpr ⟨thread, member, debt⟩)
  cases held : pool.groups.lookup group with
  | none =>
    rw [held] at count
    exact absurd count.symm (by simp only [Option.elim]; omega)
  | some found =>
    rw [held] at count
    exact ⟨found, rfl, by simp only [Option.elim] at count; omega⟩

theorem Accounted.alive (accounted : Accounted events pool) {thread : Thread P ε} (member : thread ∈ pool.threads)
    {group : Nat}
    (owner : group ∈ owned thread) : group ∈ pool.groups := by
  have count := accounted.owners group
  have positive : 0 < (tally owned pool.threads).count group :=
    List.count_pos_iff.mpr (Lib.Interleaving.mem_tally.mpr ⟨thread, member, owner⟩)
  by_contra gone
  rw [if_neg gone] at count
  omega

/-- A step of one thread is told by what it gives and takes. -/
theorem Accounted.move (accounted : Accounted events pool) {k : Nat} {thread moved : Thread P ε}
    (here : pool.threads[k]? = some thread)
    (manned : Manned moved) {queue : List (Job P)} {groups : FiniteMap Nat (TaskGroup ε)} {opened : Nat}
    {later : List (PoolEvent P ε)}
    (numbered : (openings later).map Prod.fst = List.range opened)
    (tasks : ∀ task, (queue.map Job.key).count task + (fresh moved).count task + (begun later).count task +
    (tasksOf events).count task =
      (pool.queue.map Job.key).count task + (fresh thread).count task + (begun events).count task +
      (tasksOf later).count task)
    (running : ∀ task, (begun later).count task + (under thread).count task + (ended events).count task =
      (begun events).count task + (under moved).count task + (ended later).count task)
    (remaining : ∀ group, (groups.lookup group).elim 0 TaskGroup.remaining + (pool.queue.map Job.group).count group +
      (debts thread).count group = (pool.groups.lookup group).elim 0 TaskGroup.remaining +
      (queue.map Job.group).count group +
      (debts moved).count group)
    (owners : ∀ group, (owned moved).count group + (if group ∈ pool.groups then 1 else 0) =
      (owned thread).count group + if group ∈ groups then 1 else 0)
    (living : ∀ group ∈ groups, group < opened) : Accounted later ⟨pool.threads.set k moved, queue, groups, opened⟩ := by
  refine ⟨Lib.Interleaving.forall_set accounted.manned manned, numbered, fun task => ?_, fun task => ?_, fun group => ?_,
    fun group => ?_, living⟩
  · have change := Lib.Interleaving.count_tally_set fresh here moved task
    have before := accounted.tasks task
    have local_ := tasks task
    dsimp only
    omega
  · have change := Lib.Interleaving.count_tally_set under here moved task
    have before := accounted.running task
    have local_ := running task
    dsimp only
    omega
  · have change := Lib.Interleaving.count_tally_set debts here moved group
    have before := accounted.remaining group
    have local_ := remaining group
    dsimp only
    omega
  · have change := Lib.Interleaving.count_tally_set owned here moved group
    have before := accounted.owners group
    have local_ := owners group
    dsimp only
    omega

/-- A step of one thread that moves nothing. -/
theorem Accounted.shift (accounted : Accounted events pool) (silent : Silent event) {k : Nat} {thread moved : Thread P ε}
    (here : pool.threads[k]? = some thread) (fresh_ : fresh moved = fresh thread) (under_ : under moved = under thread)
    (debts_ : debts moved = debts thread) (owned_ : owned moved = owned thread) (manned : Manned moved) :
    Accounted (events ++ [event]) { pool with threads := pool.threads.set k moved } := by
  obtain ⟨openings_, tasks_, begun_, ended_⟩ := @silent_counts P ε event events silent
  refine accounted.move here manned (openings_ ▸ accounted.numbered) (fun task => ?_) (fun task => ?_) (fun group => ?_)
    (fun group => ?_) accounted.living
  · rw [fresh_, tasks_, begun_]
  · rw [under_, begun_, ended_]
  · rw [debts_]
  · rw [owned_]

/-- A turn that nobody notices. -/
theorem Accounted.still (accounted : Accounted events pool) (silent : Silent event) :
    Accounted (events ++ [event]) pool := by
  obtain ⟨openings_, tasks_, begun_, ended_⟩ := @silent_counts P ε event events silent
  refine ⟨accounted.manned, openings_ ▸ accounted.numbered, fun task => ?_, fun task => ?_, accounted.remaining,
    accounted.owners,
    accounted.living⟩
  · rw [tasks_, begun_]
    exact accounted.tasks task
  · rw [begun_, ended_]
    exact accounted.running task

theorem Accounted.take (accounted : Accounted events pool) {k : Nat} {worker : Bool} {job : Job P} {rest : List (Job P)}
    (here : pool.threads[k]? = some ⟨worker, .polling⟩) (queued : pool.queue = job :: rest) :
    Accounted (events ++ [.began job.group job.index job.task])
      { pool with threads := pool.threads.set k ⟨worker, .running job.task [.job job.group job.index]⟩, queue := rest } := by
  have guest := (accounted.manned _ (List.mem_of_getElem? here)).guest
  have manned : Manned (⟨worker, .running job.task [.job job.group job.index]⟩ : Thread P ε) :=
    ⟨fun _ => trivial, fun kind => absurd (guest kind) id⟩
  have one : begun (events ++ [.began job.group job.index job.task]) = begun events ++ [job.key] := by simp [begun, Job.key]
  have openings_ : openings (events ++ [.began job.group job.index job.task]) = openings events := by simp [openings]
  have ended_ : ended (events ++ [.began job.group job.index job.task]) = ended events := by simp [ended]
  refine accounted.move here manned (openings_ ▸ accounted.numbered) (fun task => ?_)
    (fun task => ?_) (fun group => ?_) (fun group => ?_) accounted.living
  · rw [one, tasksOf_congr openings_, queued, List.map_cons, List.count_cons, List.count_append, List.count_singleton]
    simp only [fresh, List.count_nil]
    omega
  · rw [one, ended_, List.count_append]
    have key : under (⟨worker, .running job.task [.job job.group job.index]⟩ : Thread P ε) = [job.key] := rfl
    rw [key]
    simp only [under, frames, List.filterMap_nil, List.count_nil]
    omega
  · have key : debts (⟨worker, .running job.task [.job job.group job.index]⟩ : Thread P ε) = [job.group] := rfl
    rw [queued, List.map_cons, List.count_cons, key, List.count_singleton]
    simp only [debts, frames, List.filterMap_nil, List.count_nil]
    omega
  · rfl

theorem Accounted.opens (accounted : Accounted events pool) {k : Nat} {program : P} {stack : List (Frame P ε)} (first : P)
    (rest : List P) (resume : Option ε → P) (here : pool.threads[k]? = some ⟨false, .running program stack⟩) :
    Accounted (events ++ [.opened pool.opened ⟨k, first :: rest, resume, stack⟩]) {
      threads := pool.threads.set k ⟨false, .notifying pool.opened first resume stack⟩
      queue := pool.queue ++ (rest.zipIdx 1).map fun (task, index) => ⟨pool.opened, index, task⟩
      groups := pool.groups.insert pool.opened ⟨rest.length, none⟩
      opened := pool.opened + 1 } := by
  have guest := (accounted.manned _ (List.mem_of_getElem? here)).guest
  have manned : Manned (⟨false, .notifying pool.opened first resume stack⟩ : Thread P ε) := ⟨nofun, guest⟩
  have one : openings (events ++ [.opened pool.opened ⟨k, first :: rest, resume, stack⟩]) = openings events ++
    [(pool.opened, ⟨k, first :: rest, resume, stack⟩)] := by
    simp [openings]
  have begun_ : begun (events ++ [.opened pool.opened ⟨k, first :: rest, resume, stack⟩]) = begun events := by simp [begun]
  have ended_ : ended (events ++ [.opened pool.opened ⟨k, first :: rest, resume, stack⟩]) = ended events := by simp [ended]
  have absent : pool.opened ∉ pool.groups := fun member => lt_irrefl _ (accounted.living _ member)
  have missing := AList.lookup_eq_none.mpr absent
  have keys : ((rest.zipIdx 1).map fun (task, index) => (⟨pool.opened, index, task⟩ : Job P)).map Job.key =
      (List.range' 1 rest.length).map fun index => (pool.opened, index) := by
    rw [List.map_map, ← List.zipIdx_map_snd 1 rest, List.map_map]
    rfl
  have groups : ((rest.zipIdx 1).map fun (task, index) => (⟨pool.opened, index, task⟩ : Job P)).map Job.group =
      List.replicate rest.length pool.opened := by
    rw [List.map_map, show (Job.group ∘ fun pair : P × Nat => (⟨pool.opened, pair.2, pair.1⟩ : Job P)) =
      fun _ => pool.opened from rfl,
      List.map_const', List.length_zipIdx]
  refine accounted.move here manned ?_ (fun task => ?_) (fun task => ?_) (fun group => ?_)
    (fun group => ?_) fun group member => ?_
  · rw [one, List.map_append, accounted.numbered, List.range_succ]
    rfl
  · have made : tasksOf (events ++ [.opened pool.opened ⟨k, first :: rest, resume, stack⟩]) =
        tasksOf events ++ (pool.opened, 0) :: (List.range' 1 rest.length).map fun index => (pool.opened, index) := by
      rw [tasksOf, one, List.flatMap_append, ← tasksOf, List.flatMap_singleton, List.range_eq_range', List.length_cons,
        List.range'_succ]
      rfl
    have starts : fresh (⟨false, .notifying pool.opened first resume stack⟩ : Thread P ε) = [(pool.opened, 0)] := rfl
    rw [made, begun_, List.map_append, keys, List.count_append, List.count_append, List.count_cons, starts,
      List.count_singleton]
    simp only [fresh, List.count_nil]
    omega
  · rw [begun_, ended_]
    rfl
  · rw [List.map_append, groups, List.count_append, List.count_replicate, Lib.FiniteMap.lookup_insert_eq]
    have same : debts (⟨false, .notifying pool.opened first resume stack⟩ : Thread P ε) =
      debts ⟨false, .running program stack⟩ := rfl
    rw [same]
    by_cases new : group = pool.opened
    · subst new
      simp only [missing, Option.elim, if_pos, beq_self_eq_true]
      omega
    · rw [if_neg new, if_neg (by rw [beq_iff_eq]; exact Ne.symm new)]
      omega
  · have more : owned (⟨false, .notifying pool.opened first resume stack⟩ : Thread P ε) =
        pool.opened :: owned (⟨false, .running program stack⟩ : Thread P ε) := rfl
    rw [more, List.count_cons]
    by_cases new : group = pool.opened
    · subst new
      rw [if_neg absent, if_pos (AList.mem_insert _ |>.mpr (.inl rfl)), if_pos (beq_self_eq_true _)]
    · have same : group ∈ pool.groups.insert pool.opened ⟨rest.length, none⟩ ↔ group ∈ pool.groups := by
        rw [AList.mem_insert]
        exact or_iff_right new
      rw [if_neg (by rw [beq_iff_eq]; exact Ne.symm new)]
      simp only [same, Nat.add_zero]
  · rcases (AList.mem_insert _).mp member with rfl | old
    · exact Nat.lt_succ_self _
    · exact Nat.lt_succ_of_lt (accounted.living group old)

/-- A step at the end of a task. -/
theorem Accounted.ends (accounted : Accounted events pool) {k : Nat} {thread moved : Thread P ε} {group index : Nat}
    (outcome : Option ε) (here : pool.threads[k]? = some thread) (manned : Manned moved)
    (fresh_ : fresh moved = fresh thread)
    (under_ : under thread = (group, index) :: under moved) (debts_ : debts moved = debts thread)
    (owned_ : owned moved = owned thread) :
    Accounted (events ++ [.ran group index outcome]) { pool with threads := pool.threads.set k moved } := by
  have one : ended (events ++ [.ran group index outcome]) = ended events ++ [(group, index)] := by simp [ended]
  have begun_ : begun (events ++ [.ran group index outcome]) = begun events := by simp [begun]
  have openings_ : openings (events ++ [.ran group index outcome]) = openings events := by simp [openings]
  refine accounted.move here manned (openings_ ▸ accounted.numbered) (fun task => ?_) (fun task => ?_) (fun group => ?_)
    (fun group => ?_) accounted.living
  · rw [fresh_, tasksOf_congr openings_, begun_]
  · rw [begun_, one, under_, List.count_append, List.count_cons, List.count_singleton]
    omega
  · rw [debts_]
  · rw [owned_]

theorem Accounted.waits (accounted : Accounted events pool) {k : Nat} {worker : Bool} {program : P} {group : Nat}
    {resume : Option ε → P} {stack : List (Frame P ε)} (outcome : Option ε)
    (here : pool.threads[k]? = some ⟨worker, .running program (.caller group resume :: stack)⟩) :
    Accounted (events ++ [.ran group 0 outcome])
      { pool with threads := pool.threads.set k ⟨worker, .waiting group outcome resume stack⟩ } := by
  have manned := accounted.manned _ (List.mem_of_getElem? here)
  exact accounted.ends outcome here ⟨fun kind => absurd (manned.worker kind) id, manned.guest⟩ rfl rfl rfl rfl

theorem Accounted.counts (accounted : Accounted events pool) {k : Nat} {worker : Bool} {program : P} {group index : Nat}
    {stack : List (Frame P ε)} (outcome : Option ε)
    (here : pool.threads[k]? = some ⟨worker, .running program (.job group index :: stack)⟩) :
    Accounted (events ++ [.ran group index outcome])
      { pool with threads := pool.threads.set k ⟨worker, outcome.elim (.counting group) (.caught group)⟩ } := by
  obtain ⟨rfl, rfl⟩ := (accounted.manned _ (List.mem_of_getElem? here)).last
  cases outcome with
  | none => exact accounted.ends none here ⟨fun _ => trivial, nofun⟩ rfl rfl rfl rfl
  | some error => exact accounted.ends (some error) here ⟨fun _ => trivial, nofun⟩ rfl rfl rfl rfl

/-- A notification moves nothing. -/
theorem Accounted.wake (accounted : Accounted events pool) (condition : Condition) :
    Accounted events { pool with threads := pool.threads.map (Thread.wake condition) } := by
  refine ⟨?_, accounted.numbered, ?_, ?_, ?_, ?_, accounted.living⟩
  · intro thread member
    obtain ⟨old, inside, rfl⟩ := List.mem_map.mp member
    exact manned_wake (accounted.manned old inside)
  · simpa only [Lib.Interleaving.tally_map (fresh_wake condition)] using accounted.tasks
  · simpa only [Lib.Interleaving.tally_map (under_wake condition)] using accounted.running
  · simpa only [Lib.Interleaving.tally_map (debts_wake condition)] using accounted.remaining
  · simpa only [Lib.Interleaving.tally_map (owned_wake condition)] using accounted.owners

theorem Accounted.notify (accounted : Accounted events pool) {k : Nat} {worker : Bool} {group : Nat} {first : P}
    {resume : Option ε → P} {stack : List (Frame P ε)}
    (here : pool.threads[k]? = some ⟨worker, .notifying group first resume stack⟩) :
    Accounted (events ++ [.began group 0 first])
      { pool with
        threads := (pool.threads.set k ⟨worker, .running first (.caller group resume :: stack)⟩).map
          (Thread.wake .tasks) } := by
  have manned := accounted.manned _ (List.mem_of_getElem? here)
  have after : Manned (⟨worker, .running first (.caller group resume :: stack)⟩ : Thread P ε) :=
    ⟨fun kind => absurd (manned.worker kind) id, manned.guest⟩
  have one : begun (events ++ [.began group 0 first]) = begun events ++ [(group, 0)] := by simp [begun]
  have openings_ : openings (events ++ [.began group 0 first]) = openings events := by simp [openings]
  have ended_ : ended (events ++ [.began group 0 first]) = ended events := by simp [ended]
  have moved : Accounted (events ++ [.began group 0 first])
      { pool with threads := pool.threads.set k ⟨worker, .running first (.caller group resume :: stack)⟩ } := by
    refine accounted.move here after (openings_ ▸ accounted.numbered) (fun task => ?_) (fun task => ?_) (fun _ => rfl)
      (fun _ => rfl)
      accounted.living
    · have calls : fresh (⟨worker, .notifying group first resume stack⟩ : Thread P ε) = [(group, 0)] := rfl
      rw [one, tasksOf_congr openings_, List.count_append, calls]
      simp only [fresh, List.count_nil]
      omega
    · have calls : under (⟨worker, .running first (.caller group resume :: stack)⟩ : Thread P ε) =
          (group, 0) :: under (⟨worker, .notifying group first resume stack⟩ : Thread P ε) := rfl
      rw [one, ended_, List.count_append, calls, List.count_singleton, List.count_cons]
      omega
  exact moved.wake .tasks

theorem Accounted.returns (accounted : Accounted events pool) {k : Nat} {worker : Bool} {group : Nat}
    {error outcome : Option ε}
    {resume : Option ε → P} {stack : List (Frame P ε)} {found : TaskGroup ε}
    (here : pool.threads[k]? = some ⟨worker, .waiting group error resume stack⟩)
    (held : pool.groups.lookup group = some found)
    (done : found.remaining = 0) : Accounted (events ++ [.returned group found.remaining outcome])
      { pool with
        threads := pool.threads.set k ⟨worker, .running (resume outcome) stack⟩
        groups := pool.groups.erase group } := by
  have manned := accounted.manned _ (List.mem_of_getElem? here)
  have after : Manned (⟨worker, .running (resume outcome) stack⟩ : Thread P ε) :=
    ⟨fun kind => absurd (manned.worker kind) id, manned.guest⟩
  obtain ⟨openings_, tasks_, begun_, ended_⟩ := @silent_counts P ε (.returned group found.remaining outcome) events trivial
  refine accounted.move here after (openings_ ▸ accounted.numbered) (fun task => ?_) (fun task => ?_) (fun other => ?_)
    (fun other => ?_) fun other member => accounted.living other (AList.mem_erase.mp member).2
  · rw [tasks_, begun_]
    rfl
  · rw [begun_, ended_]
    rfl
  · have same : debts (⟨worker, .running (resume outcome) stack⟩ : Thread P ε) =
      debts ⟨worker, .waiting group error resume stack⟩ := rfl
    rw [same, Lib.FiniteMap.lookup_erase_eq]
    by_cases gone : other = group
    · subst gone
      rw [if_pos rfl, held]
      simp only [Option.elim, done]
    · rw [if_neg gone]
  · have one : owned (⟨worker, .waiting group error resume stack⟩ : Thread P ε) =
        group :: owned (⟨worker, .running (resume outcome) stack⟩ : Thread P ε) := rfl
    rw [one, List.count_cons]
    by_cases gone : other = group
    · subst gone
      rw [if_pos ((Lib.FiniteMap.mem_iff_lookup _ _).mpr ⟨found, held⟩), if_pos (beq_self_eq_true _),
        if_neg fun member => (AList.mem_erase.mp member).1 rfl]
    · have same : other ∈ pool.groups.erase group ↔ other ∈ pool.groups := by
        rw [AList.mem_erase]
        exact and_iff_right gone
      have apart : (group == other) = false := beq_eq_false_iff_ne.mpr (Ne.symm gone)
      simp only [same, apart, Bool.false_eq_true, if_false, Nat.add_zero]

/-- A worker that locks the group and writes to it. -/
theorem Accounted.writes (accounted : Accounted events pool) {k : Nat} {worker : Bool} {before after : Control P ε}
    {group : Nat}
    {found written : TaskGroup ε} (here : pool.threads[k]? = some ⟨worker, before⟩)
    (manned : Manned (⟨worker, after⟩ : Thread P ε))
    (fresh_ : fresh (⟨worker, after⟩ : Thread P ε) = fresh ⟨worker, before⟩)
    (under_ : under (⟨worker, after⟩ : Thread P ε) = under ⟨worker, before⟩)
    (owned_ : owned (⟨worker, after⟩ : Thread P ε) = owned ⟨worker, before⟩) (held : pool.groups.lookup group = some found)
    (count : written.remaining + (debts (⟨worker, before⟩ : Thread P ε)).count group =
      found.remaining + (debts (⟨worker, after⟩ : Thread P ε)).count group)
    (others : ∀ other, other ≠ group → (debts (⟨worker, before⟩ : Thread P ε)).count other =
    (debts (⟨worker, after⟩ : Thread P ε)).count other) :
    Accounted (events ++ [.turned])
      { pool with threads := pool.threads.set k ⟨worker, after⟩, groups := pool.groups.insert group written } := by
  obtain ⟨openings_, tasks_, begun_, ended_⟩ := @silent_counts P ε .turned events trivial
  have member : group ∈ pool.groups := (Lib.FiniteMap.mem_iff_lookup _ _).mpr ⟨found, held⟩
  have same : ∀ other, other ∈ pool.groups.insert group written ↔ other ∈ pool.groups := by
    intro other
    rw [AList.mem_insert]
    exact or_iff_right_of_imp fun equal => equal ▸ member
  refine accounted.move here manned (openings_ ▸ accounted.numbered) (fun task => ?_) (fun task => ?_) (fun other => ?_)
    (fun other => ?_) fun other inside => accounted.living other ((same other).mp inside)
  · rw [tasks_, begun_, fresh_]
  · rw [begun_, ended_, under_]
  · rw [Lib.FiniteMap.lookup_insert_eq]
    by_cases mine : other = group
    · subst mine
      rw [if_pos rfl, held]
      simp only [Option.elim]
      omega
    · rw [if_neg mine, others other mine]
  · simp only [owned_, same]

theorem Accounted.stepped (accounted : Accounted events pool) (stepped : Stepped pool event next) :
    Accounted (events ++ [event]) next := by
  cases stepped with
  | blocked => exact accounted.still trivial
  | @wakes k thread condition here =>
    exact accounted.shift silent_turned here (fresh_wake condition thread) (under_wake condition thread)
      (debts_wake condition thread)
      (owned_wake condition thread) (manned_wake (accounted.manned thread (List.mem_of_getElem? here)))
  | dangling here touches gone => exact accounted.still trivial
  | @shift k thread control here before after task debt group calls manned drowsy =>
    change Accounted (events ++ [.turned]) { pool with threads := pool.threads.set k { thread with control } }
    exact accounted.shift silent_turned here ((fresh_plain after).trans (fresh_plain before).symm) task debt group manned
  | @take k thread job rest here idle queued =>
    obtain ⟨worker, control⟩ := thread
    cases idle
    exact accounted.take here queued
  | @opens k thread program stack first rest resume here runs staffed outside =>
    obtain ⟨worker, control⟩ := thread
    cases runs
    cases outside
    exact accounted.opens first rest resume here
  | @waits k thread program group resume stack outcome here runs =>
    obtain ⟨worker, control⟩ := thread
    cases runs
    exact accounted.waits outcome here
  | @counts k thread program group index stack outcome here runs =>
    obtain ⟨worker, control⟩ := thread
    cases runs
    exact accounted.counts outcome here
  | @notify k thread group first resume stack here notifies =>
    obtain ⟨worker, control⟩ := thread
    cases notifies
    exact accounted.notify here
  | @dozes k thread group error resume stack found here waits held busy =>
    obtain ⟨worker, control⟩ := thread
    cases waits
    have manned := accounted.manned _ (List.mem_of_getElem? here)
    exact accounted.shift silent_turned here rfl rfl rfl rfl ⟨manned.worker, manned.guest⟩
  | @returns k thread group error resume stack found here waits held done =>
    obtain ⟨worker, control⟩ := thread
    cases waits
    exact accounted.returns here held done
  | @record k thread group error found here caught held =>
    obtain ⟨worker, control⟩ := thread
    cases caught
    have manned := accounted.manned _ (List.mem_of_getElem? here)
    exact accounted.writes here ⟨fun _ => trivial,
      fun kind => absurd (manned.guest kind) id⟩ rfl rfl rfl held rfl fun _ _ => rfl
  | @countdown k thread group found here counting held =>
    obtain ⟨worker, control⟩ := thread
    cases counting
    have manned := accounted.manned _ (List.mem_of_getElem? here)
    have counted : Accounted (events ++ [.turned]) { pool with
        threads := pool.threads.set k ⟨worker, .polling⟩
        groups := pool.groups.insert group { found with remaining := found.remaining - 1 } } := by
      refine accounted.writes here ⟨fun _ => trivial,
        fun kind => absurd (manned.guest kind) id⟩ rfl rfl rfl held ?_ fun other different => ?_
      · obtain ⟨same, lookup, positive⟩ := accounted.owed (List.mem_of_getElem? here) List.mem_cons_self
        cases held.symm.trans lookup
        have one : debts (⟨worker, .counting group⟩ : Thread P ε) = [group] := rfl
        have empty : debts (⟨worker, .polling⟩ : Thread P ε) = [] := rfl
        rw [one, empty, List.count_singleton_self, List.count_nil]
        exact Nat.sub_add_cancel positive
      · exact List.count_eq_zero.mpr fun member => different (List.mem_singleton.mp member)
    dsimp only [setControl]
    split
    · exact counted.wake (.done group)
    · exact counted

end Accounts
end TaskPool
end FromScratch.Inference
