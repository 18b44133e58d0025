import FromScratch.MapReduce.Pipeline
import FromScratch.Proofs.MapAttempt
import FromScratch.Proofs.ReduceAttempt

/-! The tasks of a job under the job's own terms: under each name there is one
content that may be published, and a task that ends well has published it. -/

namespace FromScratch.Proofs.JobRuns
open FromScratch.MapReduce Lib Program AttemptRules PublishRules MapPlan MapAttempt ReduceAttempt

section Disk

/-- The inputs are there, and good content under every name listed. -/
structure Disk (terms : Terms) (contents : GoString → Option GoString) (published : Name → Prop) (w : World) : Prop where
  inputs : ∀ name, w.files.lookup (.input name) = contents name
  published : ∀ name, published name → (Path.file name).isSpill = false ∧
    ∃ bytes, w.files.lookup (.file name) = some bytes ∧ terms.good name bytes

variable {terms : Terms} {contents : GoString → Option GoString} {published : Name → Prop} {me : Nat} {w w' : World}

theorem Disk.knows (disk : Disk terms contents published w) (own : Name → GoString) (me : Nat) :
    Knows terms contents own me { published := published } w :=
  ⟨disk.inputs, List.nodup_nil, nofun, nofun, nofun, disk.published⟩

theorem Disk.of_knows {own : Name → GoString} {held : Holding} (knows : Knows terms contents own me held w) :
    Disk terms contents held.published w := ⟨knows.inputs, knows.published⟩

theorem Disk.moves (disk : Disk terms contents published w) (moves : Undisturbed terms me w w') :
    Disk terms contents published w' :=
  .of_knows (knows_stable w w' moves (disk.knows (fun _ => []) me))

theorem Disk.fewer {fewer : Name → Prop} (disk : Disk terms contents published w)
    (implies : ∀ name, fewer name → published name) :
    Disk terms contents fewer w := ⟨disk.inputs, fun name member => disk.published name (implies name member)⟩

theorem Disk.both {more : Name → Prop} (disk : Disk terms contents published w) (other : Disk terms contents more w) :
    Disk terms contents (fun name => published name ∨ more name) w :=
  ⟨disk.inputs, fun name member => member.elim (disk.published name) (other.published name)⟩

theorem disk_stable : Stable (rules terms me) (Disk terms contents published) :=
  fun _ _ moves disk => disk.moves moves

theorem disk_kept (w w' : World) (kept : (rules terms me).guarantee w w') (disk : Disk terms contents published w) :
    Disk terms contents published w' := disk.moves (kept (me + 1) (Nat.succ_ne_self me))

end Disk

section Job
variable (job : Job) (contents : GoString → Option GoString)

/-- The options of map task `m` once `Run` has seen to them. -/
def mapPlan (m : Nat) : Mapper.Options := effective (job.mapOptions m)

/-- The part of map task `m` for partition `p`, as it is when the task can be done. -/
def partOf (p m : Nat) : GoString :=
  match partContent (mapPlan job m) contents p with
  | .ok content => content
  | .error _ => []

/-- What a job may publish under each name. -/
def jobContent : Name → Except Err GoString
  | .part m p => partContent (mapPlan job m) contents p
  | .spill m n p => .ok (spillContent (mapPlan job m) contents n p)
  | .out r => reduceContent (job.reduceOptions r) (partOf job contents r)

/-- The terms of a job: `weak` where requests may be refused, else every entry
that is taken away has to be one that nobody needs. -/
def jobTerms (weak : Prop) : Terms where
  fallible := weak
  good name content := jobContent job contents name = .ok content
  allowed w me _ := weak ∨ ∀ other, other ≠ me → (w.notes other).needs = []
  careful w me _ path allowed _ := allowed.imp_right fun alone other different member => by
    rw [alone other different] at member
    cases member
  faithful _ _ _ _ _ _ _ found _ own := Except.ok.inj (found.symm.trans own)

variable {job contents}

/-- Where requests may be refused the terms admit whatever keeps lines whole. -/
theorem jobTerms_serves {me : Nat} {w w' : World} {request : Request} {reply : Reply request}
    (served : w.KeepsLines me request reply w') : Serves (jobTerms job contents True) me w request reply w' :=
  ⟨.inl trivial, (keepsLines_falters served).imp_right fun falters => ⟨trivial, falters⟩⟩

end Job

section Tasks
variable {job : Job} {contents : GoString → Option GoString} {weak excuse : Prop} {me : Nat} {published : Name → Prop}

/-- The files of map task `m`. -/
def PartsOf (job : Job) (m : Nat) (name : Name) : Prop := ∃ p < job.numReducers, name = .part m p

theorem mapTask_meets (weakens : weak → excuse) (m : Nat) (few : job.numReducers < 1 → excuse)
    (infeasible : ¬ Feasible (mapPlan job m) contents → excuse) :
    Triple (rules (jobTerms job contents weak) me) (Disk (jobTerms job contents weak) contents published)
      (Mapper.run (job.mapOptions m))
      (Ends (fun _ => excuse) fun _ w => Feasible (mapPlan job m) contents ∧
        Disk (jobTerms job contents weak) contents (fun name => PartsOf job m name ∨ published name) w) := by
  have run : Triple (rules (jobTerms job contents weak) me)
      (Knows (jobTerms job contents weak) contents (ownRun (mapPlan job m) contents) me {}) (Mapper.run (job.mapOptions m))
      (Ends (fun _ => excuse) fun _ w => Feasible (mapPlan job m) contents ∧
        Knows (jobTerms job contents weak) contents (ownRun (mapPlan job m) contents) me
          { published := Parts (job.mapOptions m) (List.range job.numReducers) } w) :=
    run_meets weakens few (fun n _ p _ => rfl) (fun p _ content planned => planned) infeasible
  intro w disk
  refine Triple.post_of (run.frame disk_stable disk_kept) (fun _ w ends => ?_) w ⟨(disk.fewer nofun).knows _ _, disk⟩
  obtain ⟨⟨feasible, knows⟩, disk⟩ := ends
  refine ⟨feasible, ((Disk.of_knows knows).fewer fun name member => ?_).both disk⟩
  obtain ⟨p, below, rfl⟩ := member
  exact ⟨p, List.mem_range.mpr below, rfl⟩

theorem partOf_planned {m p : Nat} {content : GoString} (planned : jobContent job contents (.part m p) = .ok content) :
    content = partOf job contents p m := by
  unfold partOf
  rw [show partContent (mapPlan job m) contents p = .ok content from planned]

theorem reduceTask_meets (weakens : weak → excuse) (r : Nat) (empty : job.groups = [] → excuse)
    (unmergeable : ∀ e, reduceContent (job.reduceOptions r) (partOf job contents r) = .error e → excuse)
    (parts : ∀ m < job.groups.length, published (.part m r)) :
    Triple (rules (jobTerms job contents weak) me) (Disk (jobTerms job contents weak) contents published)
      (Reducer.run (job.reduceOptions r))
      (Ends (fun _ => excuse) fun calls w => (job.groups ≠ [] ∧
      (merged (job.reduceOptions r) (partOf job contents r)).2 = none ∧
          calls = groups (merged (job.reduceOptions r) (partOf job contents r)).1) ∧
        Disk (jobTerms job contents weak) contents (fun name => name = .out r ∨ published name) w) := by
  by_cases mapped : 1 ≤ (job.reduceOptions r).numMappers
  · have run : Triple (rules (jobTerms job contents weak) me)
        (Knows (jobTerms job contents weak) contents (fun _ => []) me { published := Inputs (job.reduceOptions r) })
        (Reducer.run (job.reduceOptions r))
        (Ends (fun _ => excuse) fun calls w => ((merged (job.reduceOptions r) (partOf job contents r)).2 = none ∧
            calls = groups (merged (job.reduceOptions r) (partOf job contents r)).1) ∧
          Knows (jobTerms job contents weak) contents (fun _ => []) me
            { published := fun name => Inputs (job.reduceOptions r) name ∨ name = .out r } w) := by
      refine run_meets weakens mapped (fun m _ content planned => partOf_planned planned)
        (fun content planned => planned) unmergeable
    intro w disk
    have inputs : ∀ name, Inputs (job.reduceOptions r) name → published name := by
      rintro name ⟨m, below, rfl⟩
      exact parts m below
    refine Triple.post_of (run.frame disk_stable disk_kept) (fun calls w ends => ?_) w ⟨(disk.fewer inputs).knows _ _, disk⟩
    obtain ⟨⟨called, knows⟩, disk⟩ := ends
    refine ⟨⟨fun nothing => ?_, called⟩, ((Disk.of_knows knows).fewer fun name member => Or.inr member).both disk⟩
    simp [Job.reduceOptions, nothing] at mapped
  · have nothing : job.groups = [] := List.length_eq_zero_iff.mp (by simpa [Job.reduceOptions] using mapped)
    unfold Reducer.run
    rw [if_pos (not_le.mp mapped)]
    exact .fail fun _ _ => empty nothing

end Tasks

section Sequence
variable {job : Job} {contents : GoString → Option GoString} {me : Nat}

/-- Every task of the job can be done. -/
structure Doable (job : Job) (contents : GoString → Option GoString) : Prop where
  maps : ∀ m < job.groups.length, Feasible (mapPlan job m) contents
  reduces : ∀ r < job.numReducers, (merged (job.reduceOptions r) (partOf job contents r)).2 = none

/-- The calls of `Reduce` reduce task `r` is to make. -/
def callsOf (job : Job) (contents : GoString → Option GoString) (r : Nat) : Reducer.Calls :=
  groups (merged (job.reduceOptions r) (partOf job contents r)).1

/-- The files of the tasks listed. -/
def PartsOfAll (job : Job) (tasks : List Nat) (name : Name) : Prop := ∃ m ∈ tasks, PartsOf job m name

theorem partsOfAll_concat {tasks : List Nat} {m : Nat} {name : Name} (member : PartsOfAll job (tasks ++ [m]) name) :
    PartsOf job m name ∨ PartsOfAll job tasks name := by
  obtain ⟨n, listed, part⟩ := member
  rcases List.mem_append.mp listed with old | new
  · exact Or.inr ⟨n, old, part⟩
  · cases List.mem_singleton.mp new
    exact Or.inl part

/-- The parts, and the output of the tasks listed. -/
def Outputs (job : Job) (tasks : List Nat) (name : Name) : Prop :=
  (∃ r ∈ tasks, name = .out r) ∨ PartsOfAll job (List.range job.groups.length) name

/-- Alone and without faults every task that can be done is done. -/
theorem sequence_meets (doable : Doable job contents) (filled : job.groups ≠ []) (reducers : 1 ≤ job.numReducers) :
    Triple (rules (jobTerms job contents False) me) (Disk (jobTerms job contents False) contents fun _ => False) job.sequence
      (Ends (fun _ => False) fun results w =>
        (results.1 = (List.range job.groups.length).map (fun _ => .ok ()) ∧
          results.2 = (List.range job.numReducers).map fun r => .ok (callsOf job contents r)) ∧
        Disk (jobTerms job contents False) contents (fun name => ∃ r < job.numReducers, name = .out r) w) := by
  have maps : Triple (rules (jobTerms job contents False) me) (Disk (jobTerms job contents False) contents fun _ => False)
      (Program.each (fun m => (Mapper.run (job.mapOptions m)).outcome) (List.range job.groups.length))
      (Ends (fun _ => False) fun maps w => maps = (List.range job.groups.length).map (fun _ => .ok ()) ∧
        Disk (jobTerms job contents False) contents (PartsOfAll job (List.range job.groups.length)) w) := by
    intro w disk
    refine Triple.each (fun _ => Except.ok ())
      (fun tasks => Disk (jobTerms job contents False) contents (PartsOfAll job tasks))
      (fun _ => disk_stable) (fun before m todo cut => ?_) w (disk.fewer (by simp [PartsOfAll]))
    have below : m < job.groups.length := by
      rw [← List.mem_range, cut]
      simp
    refine .post_of (mapTask_meets id m (by omega) (fun infeasible => infeasible (doable.maps m below))).outcome
      fun result w ends => ?_
    cases result with
    | error e => exact ends.elim
    | ok => exact ⟨rfl, ends.2.fewer fun name => partsOfAll_concat⟩
  refine .bind maps fun maps => .given ?_
  rintro rfl
  have reduces : Triple (rules (jobTerms job contents False) me)
      (Disk (jobTerms job contents False) contents (PartsOfAll job (List.range job.groups.length)))
      (Program.each (fun r => (Reducer.run (job.reduceOptions r)).outcome) (List.range job.numReducers))
      (Ends (fun _ => False) fun reduces w => reduces =
        (List.range job.numReducers).map (fun r => .ok (callsOf job contents r)) ∧
        Disk (jobTerms job contents False) contents (Outputs job (List.range job.numReducers)) w) := by
    intro w disk
    refine Triple.each (fun r => Except.ok (callsOf job contents r))
      (fun tasks => Disk (jobTerms job contents False) contents (Outputs job tasks))
      (fun _ => disk_stable) (fun before r todo cut => ?_) w (disk.fewer (by simp [Outputs]))
    have below : r < job.numReducers := by
      rw [← List.mem_range, cut]
      simp
    have parts : ∀ m < job.groups.length, Outputs job before (.part m r) :=
      fun m inside => Or.inr ⟨m, List.mem_range.mpr inside, r, below, rfl⟩
    refine .post_of (reduceTask_meets id r filled (fun e failed => ?_) parts).outcome fun result w ends => ?_
    · have merges := doable.reduces r below
      unfold reduceContent at failed
      generalize merged (job.reduceOptions r) (partOf job contents r) = pair at failed merges
      obtain ⟨records, err⟩ := pair
      cases merges
      cases failed
    · cases result with
      | error e => exact ends.elim
      | ok calls =>
        obtain ⟨⟨_, _, called⟩, disk⟩ := ends
        refine ⟨congrArg Except.ok called, disk.fewer fun name member => ?_⟩
        rcases member with ⟨s, listed, rfl⟩ | part
        · rcases List.mem_append.mp listed with old | new
          · exact Or.inr (Or.inl ⟨s, old, rfl⟩)
          · cases List.mem_singleton.mp new
            exact Or.inl rfl
        · exact Or.inr (Or.inr part)
  refine .bind reduces fun reduces => .given ?_
  rintro rfl
  refine .pure disk_stable fun w disk => ⟨⟨rfl, rfl⟩, disk.fewer fun name member => Or.inl ?_⟩
  obtain ⟨r, below, rfl⟩ := member
  exact ⟨r, List.mem_range.mpr below, rfl⟩

end Sequence
end FromScratch.Proofs.JobRuns
