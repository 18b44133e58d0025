import FromScratch.MapReduce.Worker

/-! The entry point in local mode: the coordinator and its workers in one process. -/

namespace FromScratch.MapReduce

/-- What a job produced. -/
structure Result where
  jobID : String
  outputFiles : List Name
  counters : Counters
  workersLost : Nat
  reassignments : Nat
  backupsLaunched : Nat

namespace Cluster

def collect (job : Job) (s : Cluster) : Result where
  jobID := s.coordinator.cfg.jobID
  outputFiles := (List.range job.numReducers).map Storage.outputPath
  counters := s.coordinator.counters
  workersLost := s.coordinator.stats.1
  reassignments := s.coordinator.stats.2.1
  backupsLaunched := s.coordinator.stats.2.2

/-- `runLocal` from `wg.Wait()` on: `errs` is what the workers returned with. -/
def runLocal (job : Job) (s : Cluster) (errs : List String) : Except String Result :=
  match errs with
  | err :: _ => .error err
  | [] =>
    if s.coordinator.doneClosed then
      match s.coordinator.err with
      | some err => .error err
      | none => .ok (s.collect job)
    else .error "mapreduce: workers exited before the job completed"

end Cluster
end FromScratch.MapReduce
