import FromScratch.MapReduce.Coordinator
import FromScratch.MapReduce.Pipeline

/-! Worker processes around one coordinator. A worker registers, asks for a
task, works on it request by request, reports, and asks again; it may die at any
point, a call may be lost on either way, and a request may be refused or a file
break off while it is read. -/

namespace FromScratch.MapReduce
open Lib (FiniteMap Program)

/-- The branch of `execute` for the kind of the task. -/
def Job.execute (job : Job) (t : RequestTaskReply) : Attempt Unit :=
  match t.kind with
  | .map => Mapper.run {
      taskID := t.taskID.toNat, inputFiles := t.inputFiles, numReducers := t.numReducers,
      spillBytes := job.spillBytes, mapper := job.mapper, combiner := job.combiner }
  | .reduce => do
    let _ ← Reducer.run { taskID := t.taskID.toNat, numMappers := t.numMappers, reducer := job.reducer }
    pure ()
  | _ => pure ()

inductive Process where
  | absent
  | polling (id : WorkerId)
  | executing (id : WorkerId) (t : RequestTaskReply) (attempt : Attempt Unit)
  | gone

/-- The loop of `Run`, from the reply to `RequestTask` on. -/
def Process.receive (job : Job) (id : WorkerId) (reply : RequestTaskReply) : Process :=
  match reply.kind with
  | .exit => .gone
  | .none => .polling id
  | .map | .reduce => .executing id reply (job.execute reply)
  | .unknown _ => .gone

/-- What `execute` reports. `err` is the text of the error, if there is one. -/
def taskReport (id : WorkerId) (t : RequestTaskReply) (result : Except Err Unit) (err : String) (counters : Counters)
    (elapsed : Duration) : ReportTaskArgs where
  workerID := id
  kind := t.kind
  taskID := t.taskID
  attempt := t.attempt
  success := result.isOk
  err := if result.isOk then "" else err
  counters := counters
  elapsed := elapsed

structure Cluster where
  coordinator : Coordinator
  world : World
  processes : Nat → Process

namespace Cluster

def start (job : Job) (cfg : Config) (now : Time) (disk : FiniteMap Path GoString) : Cluster where
  coordinator := Coordinator.new { cfg with numReducers := job.numReducers } job.groups now
  world := { files := disk }
  processes _ := .absent

def goOn (s : Cluster) (i : Nat) (process : Process) : Cluster :=
  { s with processes := Function.update s.processes i process }

/-- `counters.New()` at the start of `execute`. -/
def resetCounters (s : Cluster) (i : Nat) : Cluster :=
  { s with world := { s.world with counters := Function.update s.world.counters i ∅ } }

def call (s : Cluster) (request : Coordinator.Call) : Cluster :=
  { s with coordinator := (s.coordinator.serve request).2 }

/-- `serves` says how the requests of a process may be served. -/
inductive Step (serves : Nat → World → (request : Request) → Reply request → World → Prop) (job : Job) :
    Cluster → Cluster → Prop
  | register {s : Cluster} {i : Nat} (host : String) (now : Time) (idle : s.processes i = .absent) :
      Step serves job s ((s.call (.register host now)).goOn i (.polling (s.coordinator.register host now).1.workerID))
  | registerLost {s : Cluster} {i : Nat} (host : String) (now : Time) (idle : s.processes i = .absent) :
      Step serves job s ((s.call (.register host now)).goOn i .gone)
  /-- A heartbeat, from whomever; also one whose reply is lost. -/
  | heartbeat {s : Cluster} (id : WorkerId) (now : Time) : Step serves job s (s.call (.heartbeat id now))
  | reclaim {s : Cluster} (now : Time) : Step serves job s (s.call (.reclaim now))
  | request {s : Cluster} {i : Nat} {id : WorkerId} (clock : Readings) (polling : s.processes i = .polling id) :
      Step serves job s (((s.call (.requestTask id clock)).resetCounters i).goOn i
        (.receive job id (s.coordinator.requestTask id clock).1))
  /-- The call is served but the connection breaks before the reply arrives. -/
  | requestLost {s : Cluster} {i : Nat} {id : WorkerId} (clock : Readings) (polling : s.processes i = .polling id) :
      Step serves job s ((s.call (.requestTask id clock)).goOn i .gone)
  | work {s : Cluster} {i : Nat} {id : WorkerId} {t : RequestTaskReply} {request : Request}
      {next : Reply request → Attempt Unit} {reply : Reply request} {w : World}
      (executing : s.processes i = .executing id t (.ask request next)) (served : serves i s.world request reply w) :
      Step serves job s ({ s with world := w }.goOn i (.executing id t (next reply)))
  | report {s : Cluster} {i : Nat} {id : WorkerId} {t : RequestTaskReply} {result : Except Err Unit}
      (err : String) (elapsed : Duration) (clock : Readings) (executing : s.processes i = .executing id t (.done result)) :
      Step serves job s ((s.call (.reportTask (taskReport id t result err (s.world.counters i) elapsed) clock)).goOn i
        (.polling id))
  | reportLost {s : Cluster} {i : Nat} {id : WorkerId} {t : RequestTaskReply} {result : Except Err Unit}
      (executing : s.processes i = .executing id t (.done result)) : Step serves job s (s.goOn i (.polling id))
  | die {s : Cluster} {i : Nat} : Step serves job s (s.goOn i .gone)

def Reaches (job : Job) : Cluster → Cluster → Prop := Relation.ReflTransGen (Step World.Delivers job)

/-- A run in which no reading of an input breaks off inside a line. -/
def ReachesLineWise (job : Job) : Cluster → Cluster → Prop := Relation.ReflTransGen (Step World.KeepsLines job)

end Cluster
end FromScratch.MapReduce
