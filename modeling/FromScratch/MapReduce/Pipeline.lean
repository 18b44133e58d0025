import FromScratch.MapReduce.Mapper
import FromScratch.MapReduce.Reducer

/-! A job, and its run by a single process: every map task once, then every
reduce task once. -/

namespace FromScratch.MapReduce
open Lib (Program)

/-- What every worker of a job is configured with, and the groups of input
files the coordinator hands out. -/
structure Job where
  groups : List (List GoString)
  numReducers : Nat
  spillBytes : Int
  mapper : Mapper
  combiner : Option Combiner := none
  reducer : Reducer

namespace Job
variable (job : Job)

def mapOptions (m : Nat) : Mapper.Options where
  taskID := m
  inputFiles := job.groups.getD m []
  numReducers := job.numReducers
  spillBytes := job.spillBytes
  mapper := job.mapper
  combiner := job.combiner

def reduceOptions (r : Nat) : Reducer.Options where
  taskID := r
  numMappers := job.groups.length
  reducer := job.reducer

def sequence : Attempt (List (Except Err Unit) × List (Except Err Reducer.Calls)) := do
  let maps ← Program.each (fun m => (Mapper.run (job.mapOptions m)).outcome) (List.range job.groups.length)
  let reduces ← Program.each (fun r => (Reducer.run (job.reduceOptions r)).outcome) (List.range job.numReducers)
  pure (maps, reduces)

/-- The tasks one after the other on a file system that reports no fault. -/
def alone (w : World) : Except Err (List (Except Err Unit) × List (Except Err Reducer.Calls)) × World :=
  job.sequence.run (fun w request => w.perform 0 request) w

end Job
end FromScratch.MapReduce
