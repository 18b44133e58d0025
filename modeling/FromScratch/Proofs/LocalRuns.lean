import FromScratch.MapReduce.LocalMode
import FromScratch.Proofs.ScheduleIndependence

/-! A local run ends with the job. Where no call is lost and nobody dies, a worker
leaves its loop only when it is told to, and it is told to when the job is over. -/

namespace FromScratch.Proofs.LocalRuns
open FromScratch.MapReduce Lib Cluster Coordinator AttemptRules MapPlan JobRuns ScheduleIndependence
open CoordinatorSteps TaskLifecycle JobOutcome PipelineCorrectness

/-- A worker asks and is answered. -/
def Asks (job : Job) (s s' : Cluster) (i : Nat) : Prop :=
  ∃ id clock, s.processes i = .polling id ∧ s' = ((s.call (.requestTask id clock)).resetCounters i).goOn i
    (.receive job id (s.coordinator.requestTask id clock).1)

/-- A step at which nobody leaves but on a reply, and no reading of an input breaks off inside a line. -/
def Orderly (job : Job) (s s' : Cluster) : Prop :=
  Step World.KeepsLines job s s' ∧ ∀ i, s'.processes i = .gone → s.processes i = .gone ∨ Asks job s s' i

section Runs
variable {job : Job} {cfg : Config} {now : Time} {disk : FiniteMap Path GoString} {s s' : Cluster}

theorem orderly_reaches (orderly : Relation.ReflTransGen (Orderly job) s s') :
    ReachesLineWise job s s' := by
  induction orderly with
  | refl => exact .refl
  | tail _ step ih => exact ih.tail step.1

/-- Once the job is over it stays so. -/
theorem closed_step (settled : Settled s.coordinator) (closed : s.coordinator.doneClosed)
    (step : Step World.KeepsLines job s s') : s'.coordinator.doneClosed := by
  have served (call : Call) : ((s.coordinator.serve call).2).doneClosed := by
    have same := settled.closed_kept (settled.closed_iff.mp closed) call
    simp only [verdict, Prod.mk.injEq] at same
    rw [doneClosed, same.2.2.1]
    exact closed
  cases step with
  | work | reportLost | die => exact closed
  | register | registerLost | heartbeat | reclaim | request | requestLost | report => exact served _

/-- No reply is of a kind a worker does not know. -/
theorem reply_known {c : Coordinator} (indexed : Indexed job.groups c) (id : WorkerId) (clock : Readings) (code : Int) :
    (c.requestTask id clock).1.kind ≠ .unknown code := by
  have outcome := requestTask_cases c id clock
  generalize (c.requestTask id clock).1 = reply at outcome ⊢
  generalize (c.requestTask id clock).2 = last at outcome
  cases outcome with
  | aborted | waiting | finished => nofun
  | @handed kind base i t backup running opened found free =>
    obtain ⟨u, origin, rfl⟩ := opened_task_back opened found
    simp only [handReply, reclaimTask_identity, (indexed.tasks kind i u origin).2]
    cases opened <;> simp

theorem left_closed (positive : 0 < job.groups.length + job.numReducers)
    (orderly : Relation.ReflTransGen (Orderly job) (Cluster.start job cfg now disk) s) {i : Nat}
    (left : s.processes i = .gone) : s.coordinator.doneClosed := by
  induction orderly with
  | refl => cases left
  | @tail s s' before step ih =>
    have sound := Sound.reached (orderly_reaches before)
    rcases step.2 i left with earlier | ⟨id, clock, polling, rfl⟩
    · exact closed_step (sound.settled positive) (ih earlier) step.1
    · have received : Process.receive job id (s.coordinator.requestTask id clock).1 = .gone := by
        simpa [goOn] using left
      have exits : (s.coordinator.requestTask id clock).1.kind = .exit := by
        unfold Process.receive at received
        split at received
        next kind => exact kind
        next => cases received
        next => cases received
        next => cases received
        next code kind => exact absurd kind (reply_known sound.indexed id clock code)
      exact ((sound.settled positive).exit_iff sound.indexed id clock).mp exits

/-- Where no call is lost and nobody dies, a local run whose workers have returned is
one whose job is over: it returns the error of the job, or the files of all
partitions, which are there and hold what the reduce tasks make of what was emitted. -/
theorem local_run (reducers : 1 ≤ job.numReducers)
    (orderly : Relation.ReflTransGen (Orderly job) (Cluster.start job cfg now disk) s) {i : Nat}
    (left : s.processes i = .gone) :
    (∃ err, s.coordinator.err = some err ∧ s.runLocal job [] = .error err) ∨
      s.coordinator.err = none ∧ s.runLocal job [] = .ok (s.collect job) ∧ ∀ name ∈ (s.collect job).outputFiles,
        ∃ content, jobContent job (inputs disk) name = .ok content ∧ s.world.files.lookup (.file name) = some content := by
  have closed := left_closed (by omega) orderly left
  rw [runLocal, if_pos closed]
  cases outcome : s.coordinator.err with
  | some err => exact .inl ⟨err, rfl, rfl⟩
  | none =>
    refine .inr ⟨rfl, rfl, fun name listed => ?_⟩
    obtain ⟨r, below, rfl⟩ := List.mem_map.mp listed
    exact outputs_kept (orderly_reaches orderly) closed outcome .refl (List.mem_range.mp below)

end Runs

/-- A process that goes on has not left. -/
theorem goOn_left {s : Cluster} {i j : Nat} {process : Process} (stays : process ≠ .gone)
    (left : (s.goOn i process).processes j = .gone) : s.processes j = .gone := by
  by_cases same : j = i
  · subst same
    have here : (s.goOn j process).processes j = process := Function.update_self ..
    exact absurd (here.symm.trans left) stays
  · have there : (s.goOn i process).processes j = s.processes j := Function.update_of_ne same ..
    exact there.symm.trans left

theorem solo_orderly (job : Job) (s : Cluster) (steps : Nat) :
    Relation.ReflTransGen (Orderly job) s ((solo job)^[steps] s) := by
  have polls (id : WorkerId) : Process.polling id ≠ .gone := by
    intro never
    cases never
  have executes (id : WorkerId) (t : RequestTaskReply) (attempt : Attempt Unit) : Process.executing id t attempt ≠ .gone := by
    intro never
    cases never
  induction steps with
  | zero => exact .refl
  | succ steps ih =>
    rw [Function.iterate_succ_apply']
    refine ih.trans ?_
    generalize (solo job)^[steps] s = s
    unfold solo act
    split
    next idle => exact .single ⟨.register "host" 0 idle, fun i left => .inl (goOn_left (polls _) left)⟩
    next id polling =>
      refine .single ⟨.request _ polling, fun i left => ?_⟩
      by_cases first : i = 0
      · subst first
        exact .inr ⟨id, _, polling, rfl⟩
      · have there := Function.update_of_ne first (f := s.processes)
        exact .inl ((there _).symm.trans left)
    next id t request next executing =>
      exact .single ⟨.work executing (perform_keepsLines ..), fun i left => .inl (goOn_left (executes _ _ _) left)⟩
    next id t result executing =>
      exact .single ⟨.report "" 0 _ executing, fun i left => .inl (goOn_left (polls _) left)⟩
    next => exact .refl

def hasLeft : Process → Bool
  | .gone => true
  | _ => false

theorem hasLeft_iff {process : Process} : hasLeft process = true ↔ process = .gone := by
  cases process <;> simp [hasLeft]

/-- One worker, from the start of the job to its last reply. -/
theorem local_run_solo : ((solo wordJob)^[120] (Cluster.start wordJob soloConfig 0 wordDisk)).runLocal wordJob [] =
    .ok (((solo wordJob)^[120] (Cluster.start wordJob soloConfig 0 wordDisk)).collect wordJob) := by
  have left : ((solo wordJob)^[120] (Cluster.start wordJob soloConfig 0 wordDisk)).processes 0 = .gone :=
    hasLeft_iff.mp (by decide +kernel)
  have fine : ((solo wordJob)^[120] (Cluster.start wordJob soloConfig 0 wordDisk)).coordinator.err = none := by
    decide +kernel
  rcases local_run (by decide) (solo_orderly wordJob _ 120) left with ⟨err, failed, _⟩ | ⟨_, returned, _⟩
  · cases fine.symm.trans failed
  · exact returned

end FromScratch.Proofs.LocalRuns
