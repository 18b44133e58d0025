import FromScratch.Lib.FiniteMap
import FromScratch.MapReduce.GoString

/-! The request and reply types of the coordinator's RPC service, and the named
tallies a report carries. Times and durations are nanoseconds. -/

namespace FromScratch.MapReduce

abbrev Time := Int

abbrev Duration := Int

abbrev WorkerId := String

/-- An integer on the wire, so a caller can send a value that names no kind. -/
inductive TaskKind where
  | none | map | reduce | exit
  | unknown (code : Int)
  deriving DecidableEq, Repr

def TaskKind.toString : TaskKind → String
  | .none => "none"
  | .map => "map"
  | .reduce => "reduce"
  | .exit => "exit"
  | .unknown _ => "unknown"

abbrev Counters := Lib.FiniteMap String Int64

namespace Counters

def get (set : Counters) (name : String) : Int64 := (set.lookup name).getD 0

def inc (set : Counters) (name : String) (delta : Int64) : Counters :=
  set.insert name (set.get name + delta)

/-- `Set.Merge`: the sums wrap at 64 bits, as Go's do. -/
def merge (set other : Counters) : Counters :=
  other.entries.foldl (fun set entry => set.inc entry.1 entry.2) set

end Counters

structure RegisterReply where
  workerID : WorkerId
  jobID : String
  root : String
  numMappers : Nat
  numReducers : Nat
  heartbeatInterval : Duration

structure RequestTaskReply where
  kind : TaskKind := .none
  attempt : Int := 0
  taskID : Int := 0
  inputFiles : List GoString := []
  numMappers : Nat := 0
  numReducers : Nat := 0
  retryAfter : Duration := 0
  deriving DecidableEq

structure ReportTaskArgs where
  workerID : WorkerId
  kind : TaskKind
  taskID : Int
  attempt : Int
  success : Bool
  err : String := ""
  counters : Counters := ∅
  elapsed : Duration := 0

end FromScratch.MapReduce
