import FromScratch.Inference.ThreadPool
import FromScratch.Lib.FiniteMap

/-! The worker pool with its queue: threads that run programs, and the groups of
tasks that `runAll` hands to the workers. What happens under a mutex happens at
once. A program is whatever says what it does next. -/

namespace FromScratch.Inference
open Lib (FiniteMap)

/-- What a program does next. Exceptions are of type `ε`, and a call is resumed with
the one that came out of it, if any. -/
inductive Move (P ε : Type) where
  | silent (next : P)
  | finish (outcome : Option ε)
  | runAll (tasks : List P) (next : Option ε → P)
  | parallelFor (count minChunk : Nat) (body : Shard → P) (next : Option ε → P)

structure TaskGroup (ε : Type) where
  remaining : Nat
  error : Option ε := none

/-- What a thread comes back to when its program has finished. -/
inductive Frame (P ε : Type) where
  /-- The loop over the tasks in the thread that called `runAll`. -/
  | inline (rest : List P) (next : Option ε → P)
  /-- The call of `tasks[0]`. -/
  | caller (group : Nat) (next : Option ε → P)
  /-- The lambda that a worker took from the queue. -/
  | job (group index : Nat)

/-- Where a thread is. -/
inductive Control (P ε : Type) where
  /-- A worker before it locks the queue. -/
  | polling
  /-- In `condition_.wait`. -/
  | asleep
  | running (program : P) (frames : List (Frame P ε))
  /-- Between the queue and `condition_.notify_all`. -/
  | notifying (group : Nat) (first : P) (next : Option ε → P) (frames : List (Frame P ε))
  /-- Before it looks whether the group is done. -/
  | waiting (group : Nat) (callerError : Option ε) (next : Option ε → P) (frames : List (Frame P ε))
  /-- In `group.done.wait`. -/
  | dozing (group : Nat) (callerError : Option ε) (next : Option ε → P) (frames : List (Frame P ε))
  /-- Before the lock that records the exception. -/
  | caught (group : Nat) (error : ε)
  /-- Before the lock that counts the task. -/
  | counting (group : Nat)
  | ended (outcome : Option ε)

structure Thread (P ε : Type) where
  worker : Bool
  control : Control P ε

/-- `condition_` of the pool, and `done` of each group. -/
inductive Condition where
  | tasks
  | done (group : Nat)
  deriving DecidableEq

/-- A thread where others hear of a notification. -/
def Thread.wake {P ε : Type} (condition : Condition) (thread : Thread P ε) : Thread P ε :=
  match thread.control with
  | .asleep => if condition = .tasks then { thread with control := .polling } else thread
  | .dozing group callerError next frames =>
    if condition = .done group then { thread with control := .waiting group callerError next frames } else thread
  | _ => thread

structure Job (P : Type) where
  group : Nat
  index : Nat
  task : P

/-- The groups are those whose stack frame is there. -/
structure TaskPool (P ε : Type) where
  threads : List (Thread P ε)
  queue : List (Job P) := []
  groups : FiniteMap Nat (TaskGroup ε) := ∅
  opened : Nat := 0

/-- A call of `runAll` that hands tasks to the workers: who calls, and what comes after it. -/
structure GroupCall (P ε : Type) where
  thread : Nat
  tasks : List P
  next : Option ε → P
  frames : List (Frame P ε)

inductive PoolEvent (P ε : Type) where
  | opened (group : Nat) (call : GroupCall P ε)
  | began (group index : Nat) (task : P)
  | ran (group index : Nat) (outcome : Option ε)
  | returned (group remaining : Nat) (outcome : Option ε)
  | turned
  /-- The thread waits or is over. -/
  | blocked
  /-- An access to a group whose stack frame is gone. -/
  | dangling

/-- A thread takes its next step, or wakes for no reason. -/
inductive PoolTurn where
  | step (thread : Nat)
  | wake (thread : Nat) (condition : Condition)

namespace TaskPool
variable {P ε : Type}

/-- `workers_.size()`. -/
def size (pool : TaskPool P ε) : Nat := pool.threads.countP Thread.worker

/-- What a running thread comes to. -/
inductive Advance (P ε : Type) where
  | goes (program : P) (frames : List (Frame P ε))
  | opens (first : P) (rest : List P) (next : Option ε → P) (frames : List (Frame P ε))
  | waits (group : Nat) (outcome : Option ε) (next : Option ε → P) (frames : List (Frame P ε))
  | counts (group index : Nat) (outcome : Option ε)
  | ends (outcome : Option ε)

/-- `runAll`, up to where its tasks are queued. -/
def runAll (workers : Nat) (insidePool : Bool) (tasks : List P) (next : Option ε → P) (frames : List (Frame P ε)) :
    Advance P ε :=
  match tasks with
  | [] => .goes (next none) frames
  | first :: rest =>
    if rest = [] ∨ workers = 0 ∨ insidePool then .goes first (.inline rest next :: frames)
    else .opens first rest next frames

/-- The program has returned or thrown. -/
def unwind (outcome : Option ε) : List (Frame P ε) → Advance P ε
  | [] => .ends outcome
  | .inline (task :: rest) next :: frames =>
    match outcome with
    | none => .goes task (.inline rest next :: frames)
    | some error => .goes (next (some error)) frames
  | .inline [] next :: frames => .goes (next outcome) frames
  | .caller group next :: frames => .waits group outcome next frames
  | .job group index :: _ => .counts group index outcome

/-- `parallelFor` calls `runAll` for its shards. -/
def advance (view : P → Move P ε) (workers : Nat) (insidePool : Bool) (program : P) (frames : List (Frame P ε)) :
    Advance P ε :=
  match view program with
  | .silent next => .goes next frames
  | .finish outcome => unwind outcome frames
  | .runAll tasks next => runAll workers insidePool tasks next frames
  | .parallelFor count minChunk body next =>
    runAll workers insidePool (((ThreadPool.inOrder workers insidePool).shards count minChunk).map body) next frames

def setControl (pool : TaskPool P ε) (k : Nat) (thread : Thread P ε) (control : Control P ε) : TaskPool P ε :=
  { pool with threads := pool.threads.set k { thread with control } }

def stepRunning (pool : TaskPool P ε) (k : Nat) (thread : Thread P ε) : Advance P ε → PoolEvent P ε × TaskPool P ε
  | .goes program frames => (.turned, pool.setControl k thread (.running program frames))
  | .opens first rest next frames =>
    let jobs := (rest.zipIdx 1).map fun (task, index) => ⟨pool.opened, index, task⟩
    (.opened pool.opened ⟨k, first :: rest, next, frames⟩,
      { pool.setControl k thread (.notifying pool.opened first next frames) with
      queue := pool.queue ++ jobs
      groups := pool.groups.insert pool.opened ⟨rest.length, none⟩
      opened := pool.opened + 1 })
  | .waits group outcome next frames => (.ran group 0 outcome, pool.setControl k thread (.waiting group outcome next frames))
  | .counts group index outcome =>
    (.ran group index outcome, pool.setControl k thread (outcome.elim (.counting group) (.caught group)))
  | .ends outcome => (.turned, pool.setControl k thread (.ended outcome))

def stepThread (view : P → Move P ε) (pool : TaskPool P ε) (k : Nat) (thread : Thread P ε) : PoolEvent P ε × TaskPool P ε :=
  match thread.control with
  | .polling =>
    match pool.queue with
    | [] => (.turned, pool.setControl k thread .asleep)
    | job :: queue =>
      (.began job.group job.index job.task,
        { pool.setControl k thread (.running job.task [.job job.group job.index]) with queue })
  | .asleep => (.blocked, pool)
  | .running program frames => stepRunning pool k thread (advance view pool.size thread.worker program frames)
  | .notifying group first next frames =>
    let pool := pool.setControl k thread (.running first (.caller group next :: frames))
    (.began group 0 first, { pool with threads := pool.threads.map (Thread.wake .tasks) })
  | .waiting group callerError next frames =>
    match pool.groups.lookup group with
    | none => (.dangling, pool)
    | some found =>
      if found.remaining = 0 then
        let outcome := callerError.orElse fun _ => found.error
        (.returned group found.remaining outcome,
          { pool.setControl k thread (.running (next outcome) frames) with groups := pool.groups.erase group })
      else (.turned, pool.setControl k thread (.dozing group callerError next frames))
  | .dozing .. => (.blocked, pool)
  | .caught group error =>
    match pool.groups.lookup group with
    | none => (.dangling, pool)
    | some found =>
      (.turned, { pool.setControl k thread (.counting group) with
        groups := pool.groups.insert group { found with error := found.error.orElse fun _ => some error } })
  | .counting group =>
    match pool.groups.lookup group with
    | none => (.dangling, pool)
    | some found =>
      let threads := (pool.setControl k thread .polling).threads
      (.turned, { pool with
        threads := if found.remaining - 1 = 0 then threads.map (Thread.wake (.done group)) else threads
        groups := pool.groups.insert group { found with remaining := found.remaining - 1 } })
  | .ended _ => (.blocked, pool)

def step (view : P → Move P ε) (pool : TaskPool P ε) : PoolTurn → PoolEvent P ε × TaskPool P ε
  | .step k =>
    match pool.threads[k]? with
    | none => (.blocked, pool)
    | some thread => stepThread view pool k thread
  | .wake k condition =>
    match pool.threads[k]? with
    | none => (.blocked, pool)
    | some thread => (.turned, { pool with threads := pool.threads.set k (thread.wake condition) })

/-- `w` workers, and a thread for each of the programs. -/
def start (w : Nat) (programs : List P) : TaskPool P ε where
  threads := List.replicate w ⟨true, .polling⟩ ++ programs.map fun program => ⟨false, .running program []⟩

end TaskPool
end FromScratch.Inference
