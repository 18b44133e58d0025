import Mathlib.Data.List.Sort
import Mathlib.Data.Rat.Floor
import FromScratch.Lib.Machine
import FromScratch.MapReduce.Protocol

/-! The coordinator's task table and RPC handlers. Every handler holds the lock
from its first line to its last, so one call is one transition. A clock reading
inside a call is an argument of the transition: nothing is assumed of it. -/

namespace FromScratch.MapReduce
open Lib (FiniteMap)

structure Config where
  jobID : String := "job"
  root : String := "work"
  numReducers : Nat
  taskTimeout : Duration
  heartbeatInterval : Duration
  workerTimeout : Duration
  enableBackupTasks : Bool
  backupThreshold : ℚ
  maxTaskAttempts : Int

inductive TaskState where
  | idle | running | done
  deriving DecidableEq, Repr

structure Task where
  id : Int
  kind : TaskKind
  inputFiles : List GoString := []
  state : TaskState := .idle
  attempt : Int := 0
  started : Time := 0
  finished : Time := 0
  workers : FiniteMap WorkerId Int := ∅
  failures : Int := 0
  backup : Bool := false
  deriving DecidableEq

structure Worker where
  id : WorkerId
  host : String
  lastSeen : Time
  alive : Bool
  exited : Bool := false

inductive Phase where
  | map | reduce | done | failed
  deriving DecidableEq, Repr

/-- `closeOnce` is the state of the `sync.Once`; `doneCloses` counts the
executions of `close(c.done)`, of which a second would panic. -/
structure Coordinator where
  cfg : Config
  mapTasks : List Task
  reduceTasks : List Task
  workers : FiniteMap WorkerId Worker := ∅
  nextID : Nat := 0
  counters : Counters := ∅
  phase : Phase := .map
  startedAt : Time
  finishedAt : Time := 0
  jobErr : Option String := none
  doneCloses : Nat := 0
  closeOnce : Bool := false
  durations : List Duration := []
  lostWorkers : Nat := 0
  reassignments : Nat := 0
  backupsLaunched : Nat := 0

/-- The clock readings one call may take: on entry, in `reclaimLocked`, for
each task `pickBackupLocked` looks at, in `assignLocked`, and when a task or
the job finishes. -/
structure Readings where
  seen : Time
  reclaim : Time
  probe : TaskKind → Nat → Time
  assign : Time
  finish : Time

namespace Coordinator

def new (cfg : Config) (inputGroups : List (List GoString)) (now : Time) : Coordinator where
  cfg := cfg
  mapTasks := inputGroups.mapIdx fun (i : Nat) files => { id := i, kind := .map, inputFiles := files }
  reduceTasks := (List.range cfg.numReducers).map fun (i : Nat) => { id := i, kind := .reduce }
  startedAt := now

def numMapTasks (c : Coordinator) : Nat := c.mapTasks.length

/-- The task list a kind names; only `map` and `reduce` name one. -/
def tasks (c : Coordinator) : TaskKind → List Task
  | .map => c.mapTasks
  | .reduce => c.reduceTasks
  | _ => []

/-- A write through the pointer `list[i]`. -/
def setTask (c : Coordinator) (kind : TaskKind) (i : Nat) (t : Task) : Coordinator :=
  match kind with
  | .map => { c with mapTasks := c.mapTasks.set i t }
  | .reduce => { c with reduceTasks := c.reduceTasks.set i t }
  | _ => c

/-- The position of the task a report names. -/
def lookupLocked (c : Coordinator) (kind : TaskKind) (id : Int) : Option Nat :=
  if id < 0 ∨ (c.tasks kind).length ≤ id then none else some id.toNat

def touch (c : Coordinator) (workerID : WorkerId) (now : Time) : Coordinator :=
  match c.workers.lookup workerID with
  | some w => { c with workers := c.workers.insert workerID { w with lastSeen := now, alive := true } }
  | none => c

def markExited (c : Coordinator) (workerID : WorkerId) : Coordinator :=
  match c.workers.lookup workerID with
  | some w => { c with workers := c.workers.insert workerID { w with exited := true } }
  | none => c

def register (c : Coordinator) (host : String) (now : Time) : RegisterReply × Coordinator :=
  let nextID := c.nextID + 1
  let id := "worker-" ++ toString nextID
  ({ workerID := id, jobID := c.cfg.jobID, root := c.cfg.root, numMappers := c.mapTasks.length,
     numReducers := c.reduceTasks.length, heartbeatInterval := c.cfg.heartbeatInterval },
   { c with nextID := nextID,
            workers := c.workers.insert id { id := id, host := host, lastSeen := now, alive := true } })

def heartbeat (c : Coordinator) (workerID : WorkerId) (now : Time) : Bool × Coordinator :=
  ((c.workers.lookup workerID).isSome, c.touch workerID now)

def allDoneLocked (list : List Task) : Bool := list.all fun t => t.state == .done

def finishLocked (c : Coordinator) (now : Time) : Coordinator :=
  if c.closeOnce then c
  else { c with closeOnce := true, phase := .done, finishedAt := now, doneCloses := c.doneCloses + 1 }

def failLocked (c : Coordinator) (err : String) (now : Time) : Coordinator :=
  if c.closeOnce then c
  else { c with closeOnce := true, phase := .failed, finishedAt := now, jobErr := some err,
                doneCloses := c.doneCloses + 1 }

def expireWorker (c : Coordinator) (now : Time) (w : Worker) : Worker :=
  if w.alive && decide (c.cfg.workerTimeout < now - w.lastSeen) then { w with alive := false } else w

def isAlive (workers : FiniteMap WorkerId Worker) (workerID : WorkerId) : Bool :=
  match workers.lookup workerID with
  | some w => w.alive
  | none => false

def liveAttempts (workers : FiniteMap WorkerId Worker) (t : Task) : FiniteMap WorkerId Int :=
  t.workers.keepKeys (isAlive workers)

/-- Whether the loop body of `reclaim` sends the task back to idle. -/
def reclaims (cfg : Config) (workers : FiniteMap WorkerId Worker) (now : Time) (t : Task) : Bool :=
  t.state == .running &&
    ((liveAttempts workers t).keys.length == 0 || decide (cfg.taskTimeout < now - t.started))

def reclaimTask (cfg : Config) (workers : FiniteMap WorkerId Worker) (now : Time) (t : Task) : Task :=
  if t.state ≠ .running then t
  else if reclaims cfg workers now t then { t with state := .idle, backup := false, workers := ∅ }
  else { t with workers := liveAttempts workers t }

def expireWorkers (c : Coordinator) (now : Time) : FiniteMap WorkerId Worker :=
  FiniteMap.mapValues (fun _ => c.expireWorker now) c.workers

def reclaimLocked (c : Coordinator) (now : Time) : Coordinator :=
  let workers := c.expireWorkers now
  let lost := c.workers.entries.countP fun entry =>
    entry.2.alive && decide (c.cfg.workerTimeout < now - entry.2.lastSeen)
  let reclaimed := (c.mapTasks ++ c.reduceTasks).countP (reclaims c.cfg workers now)
  { c with workers := workers,
           lostWorkers := c.lostWorkers + lost,
           mapTasks := c.mapTasks.map (reclaimTask c.cfg workers now),
           reduceTasks := c.reduceTasks.map (reclaimTask c.cfg workers now),
           reassignments := c.reassignments + reclaimed }

def medianDurationLocked (c : Coordinator) : Duration :=
  if c.durations.length < 2 then 0
  else (c.durations.insertionSort (· ≤ ·)).getD (c.durations.length / 2) 0

/-- `time.Duration(x)`, truncated toward zero. What is out of the range of an int64
becomes the least one, as the conversion of amd64 leaves it. -/
def toDuration (x : ℚ) : Duration :=
  let truncated := if 0 ≤ x then ⌊x⌋ else ⌈x⌉
  if -0x8000000000000000 ≤ truncated ∧ truncated < 0x8000000000000000 then truncated else -0x8000000000000000

/-- One turn of the candidate loop: the best candidate so far and how long it
has run. -/
def weighCandidate (workerID : WorkerId) (limit : Duration) (probe : Nat → Time)
    (best : Option Nat × Duration) (entry : Task × Nat) : Option Nat × Duration :=
  let (t, i) := entry
  if t.state ≠ .running ∨ t.backup then best
  else if workerID ∈ t.workers then best
  else
    let elapsed := probe i - t.started
    if limit < elapsed ∧ best.2 < elapsed then (some i, elapsed) else best

def pickBackupLocked (c : Coordinator) (kind : TaskKind) (workerID : WorkerId) (clock : Readings) :
    Option Nat × Coordinator :=
  let threshold := c.medianDurationLocked
  if threshold ≤ 0 then (none, c)
  else
    let limit := toDuration ((threshold : ℚ) * c.cfg.backupThreshold)
    match ((c.tasks kind).zipIdx.foldl (weighCandidate workerID limit (clock.probe kind)) (none, 0)).1 with
    | none => (none, c)
    | some i =>
      match (c.tasks kind)[i]? with
      | none => (none, c)
      | some t =>
        (some i, { c.setTask kind i { t with backup := true } with
                     backupsLaunched := c.backupsLaunched + 1 })

def pickLocked (c : Coordinator) (kind : TaskKind) (workerID : WorkerId) (clock : Readings) :
    Option Nat × Coordinator :=
  match (c.tasks kind).findIdx? fun t => t.state == .idle with
  | some i => (some i, c)
  | none => if c.cfg.enableBackupTasks then c.pickBackupLocked kind workerID clock else (none, c)

def assigned (t : Task) (workerID : WorkerId) (now : Time) : Task :=
  { t with started := if t.state ≠ .running then now else t.started,
           state := .running,
           attempt := t.attempt + 1,
           workers := t.workers.insert workerID (t.attempt + 1) }

def assignLocked (c : Coordinator) (kind : TaskKind) (i : Nat) (workerID : WorkerId) (now : Time) :
    RequestTaskReply × Coordinator :=
  match (c.tasks kind)[i]? with
  | none => ({}, c)
  | some t =>
    let t := assigned t workerID now
    ({ kind := t.kind, taskID := t.id, attempt := t.attempt, inputFiles := t.inputFiles,
       numMappers := c.mapTasks.length, numReducers := c.reduceTasks.length },
     c.setTask kind i t)

/-- `TaskNone`: nothing to hand out now, ask again later. -/
def waitReply (c : Coordinator) : RequestTaskReply :=
  { kind := .none, retryAfter := c.cfg.heartbeatInterval }

def enterReduce (c : Coordinator) : Coordinator :=
  if c.phase = .map then { c with phase := .reduce, durations := [] } else c

/-- The reduce half of `RequestTask`, reached once every map task is done. -/
def requestReduce (c : Coordinator) (workerID : WorkerId) (clock : Readings) :
    RequestTaskReply × Coordinator :=
  match c.pickLocked .reduce workerID clock with
  | (some i, c) => c.assignLocked .reduce i workerID clock.assign
  | (none, c) =>
    if !allDoneLocked c.reduceTasks then (c.waitReply, c)
    else ({ kind := .exit }, (c.finishLocked clock.finish).markExited workerID)

def requestTask (c : Coordinator) (workerID : WorkerId) (clock : Readings) :
    RequestTaskReply × Coordinator :=
  let c := c.touch workerID clock.seen
  if c.jobErr.isSome then ({ kind := .exit }, c.markExited workerID)
  else
    let c := c.reclaimLocked clock.reclaim
    match c.pickLocked .map workerID clock with
    | (some i, c) => c.assignLocked .map i workerID clock.assign
    | (none, c) =>
      if !allDoneLocked c.mapTasks then (c.waitReply, c)
      else c.enterReduce.requestReduce workerID clock

def failureMessage (args : ReportTaskArgs) (failures : Int) : String :=
  "mapreduce: " ++ args.kind.toString ++ "-" ++ toString args.taskID ++ " failed " ++
    toString failures ++ " times, last error: " ++ args.err

/-- The failure branch of `ReportTask`: `args.Attempt` is never compared with
the attempt the table holds for the worker. -/
def reportFailure (c : Coordinator) (args : ReportTaskArgs) (i : Nat) (t : Task) (now : Time) :
    Coordinator :=
  let t := { t with failures := t.failures + 1, state := .idle, workers := t.workers.erase args.workerID }
  let c := c.setTask args.kind i t
  if 0 < c.cfg.maxTaskAttempts ∧ c.cfg.maxTaskAttempts ≤ t.failures then
    c.failLocked (failureMessage args t.failures) now
  else c

def recordResult (c : Coordinator) (args : ReportTaskArgs) : Coordinator :=
  { c with durations := c.durations ++ [args.elapsed], counters := c.counters.merge args.counters }

def reportSuccess (c : Coordinator) (args : ReportTaskArgs) (i : Nat) (t : Task) (clock : Readings) :
    Coordinator :=
  let c := c.setTask args.kind i { t with state := .done, finished := clock.assign }
  let c := c.recordResult args
  if allDoneLocked c.mapTasks && allDoneLocked c.reduceTasks then c.finishLocked clock.finish else c

/-- The reply is `Accepted`. -/
def reportTask (c : Coordinator) (args : ReportTaskArgs) (clock : Readings) : Bool × Coordinator :=
  let c := c.touch args.workerID clock.seen
  match c.lookupLocked args.kind args.taskID with
  | none => (false, c)
  | some i =>
    match (c.tasks args.kind)[i]? with
    | none => (false, c)
    | some t =>
      if t.state = .done then (false, c)
      else if !args.success then (false, c.reportFailure args i t clock.finish)
      else (true, c.reportSuccess args i t clock)

/-- `Err`. -/
def err (c : Coordinator) : Option String := c.jobErr

def doneClosed (c : Coordinator) : Prop := 0 < c.doneCloses

instance (c : Coordinator) : Decidable c.doneClosed := inferInstanceAs (Decidable (0 < _))

def countDone (list : List Task) : Nat := list.countP fun t => t.state == .done

structure StatusReply where
  phase : Phase
  mapDone : Nat
  mapTotal : Nat
  reduceDone : Nat
  reduceTotal : Nat
  workersAlive : Nat
  workersLost : Nat
  backupsLaunched : Nat
  reassignments : Nat
  done : Bool
  counters : Counters
  elapsed : Duration

def status (c : Coordinator) (now : Time) : StatusReply where
  phase := c.phase
  mapDone := countDone c.mapTasks
  mapTotal := c.mapTasks.length
  reduceDone := countDone c.reduceTasks
  reduceTotal := c.reduceTasks.length
  workersAlive := c.workers.entries.countP fun entry => entry.2.alive
  workersLost := c.lostWorkers
  backupsLaunched := c.backupsLaunched
  reassignments := c.reassignments
  done := decide c.doneClosed
  counters := c.counters
  elapsed := if c.doneClosed then c.finishedAt - c.startedAt else now - c.startedAt

/-- `Stats`: workers lost, tasks reassigned, backups launched. -/
def stats (c : Coordinator) : Nat × Nat × Nat := (c.lostWorkers, c.reassignments, c.backupsLaunched)

/-- What one turn of the loop of `DrainWorkers` counts. `clock` is the reading
behind `time.Since` for each worker it looks at. -/
def pendingExits (c : Coordinator) (clock : WorkerId → Time) : Nat :=
  c.workers.entries.countP fun entry =>
    !entry.2.exited && decide (clock entry.1 - entry.2.lastSeen ≤ c.cfg.workerTimeout)

/-- The calls the coordinator serves; `reclaim` is a tick of `monitor`. -/
inductive Call where
  | register (host : String) (now : Time)
  | heartbeat (workerID : WorkerId) (now : Time)
  | requestTask (workerID : WorkerId) (clock : Readings)
  | reportTask (args : ReportTaskArgs) (clock : Readings)
  | reclaim (now : Time)

inductive Reply where
  | registered (reply : RegisterReply)
  | known (known : Bool)
  | task (reply : RequestTaskReply)
  | accepted (accepted : Bool)
  | none

def serve (c : Coordinator) : Call → Reply × Coordinator
  | .register host now => let (reply, c) := c.register host now; (.registered reply, c)
  | .heartbeat workerID now => let (known, c) := c.heartbeat workerID now; (.known known, c)
  | .requestTask workerID clock => let (reply, c) := c.requestTask workerID clock; (.task reply, c)
  | .reportTask args clock => let (accepted, c) := c.reportTask args clock; (.accepted accepted, c)
  | .reclaim now => (.none, c.reclaimLocked now)

/-- One turn of the loop of `DrainWorkers`: the calls served while it slept, the
clock readings, and whether the deadline has passed. -/
structure Poll where
  served : List Call
  clock : WorkerId → Time
  expired : Bool

/-- `DrainWorkers`, with what it returns and the coordinator it leaves; `none`
while it is still polling. -/
def drainWorkers (c : Coordinator) : List Poll → Option (Nat × Coordinator)
  | [] => none
  | poll :: polls =>
    let c := Lib.Machine.after serve c poll.served
    let pending := c.pendingExits poll.clock
    if pending = 0 ∨ poll.expired then some (pending, c) else drainWorkers c polls

end Coordinator
end FromScratch.MapReduce
