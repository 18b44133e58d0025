import FromScratch.Inference.Session
import FromScratch.Lib.Dataflow
import FromScratch.Proofs.BufferReuse

/-! The nodes of a schedule as tasks on the tensor slots. What a session does
level by level is what the tasks do to the contents of the slots, whatever was
in the buffers they write. -/

namespace FromScratch.Inference
open Lib (FiniteMap Task)
open Lib.Dataflow (Ends Runs Legal Throughout Writes Distinct value)

namespace InferenceSession
variable {F : Type} [Scalar F]

/-- What the slots hold. -/
def view (tensors : Slots F) (name : Text) : Tensor F := (tensors.lookup name).getD Tensor.empty

/-- What a node makes of its inputs, on one thread and in a buffer of its own. -/
def denote (provider : Provider) (node : Node F) (inputs : List (Tensor F)) : Except Fault (Tensor F) :=
  provider.compute ⟨none, fun _ => ⟨[], []⟩⟩ node inputs Tensor.empty

def output (node : Node F) : Text := node.outputs.headD []

/-- A product that reads its own output. -/
def Entangled (node : Node F) : Prop := output node ∈ node.inputs ∧ (node.opType = .gemm ∨ node.opType = .gemmRelu)

instance (node : Node F) : Decidable (Entangled node) := inferInstanceAs (Decidable (_ ∧ _))

/-- The node a pointer of the schedule points at. -/
def nodeAt (graph : Graph F) (ref : NodeRef) : Node F :=
  match graph.deref ref with
  | .ok entry => entry.node
  | .error _ => Node.make [] [] [] [] ∅

def task (provider : Provider) (node : Node F) : Task Text (Tensor F) Fault :=
  if Entangled node then ⟨[], output node, fun _ => .error .undefined⟩
  else ⟨node.inputs, output node, denote provider node⟩

/-- The node stays inside its buffers. -/
def Steady (provider : Provider) (node : Node F) (inputs : List (Tensor F)) : Prop :=
  ¬Entangled node ∧ Provider.Inside provider node inputs

section View
variable {tensors : Slots F} {name : Text}

omit [Scalar F] in
theorem slot_eq (present : name ∈ tensors) : slot tensors name = .ok (view tensors name) := by
  obtain ⟨held, found⟩ := (FiniteMap.mem_iff_lookup _ _).mp present
  rw [slot, view, found]
  rfl

omit [Scalar F] in
theorem lookup_view (present : name ∈ tensors) : tensors.lookup name = some (view tensors name) := by
  obtain ⟨held, found⟩ := (FiniteMap.mem_iff_lookup _ _).mp present
  rw [view, found]
  rfl

omit [Scalar F] in
theorem view_insert (held : Tensor F) : view (tensors.insert name held) = Function.update (view tensors) name held := by
  funext other
  rw [view, FiniteMap.lookup_insert_eq, Function.update_apply]
  split <;> rfl

omit [Scalar F] in
theorem mem_insert_present (present : name ∈ tensors) (held : Tensor F) (other : Text) :
    other ∈ tensors.insert name held ↔ other ∈ tensors := by
  rw [AList.mem_insert]
  exact or_iff_right_of_imp fun same => same ▸ present

omit [Scalar F] in
theorem mapM_slot {names : List Text} (present : ∀ name ∈ names, name ∈ tensors) :
    names.mapM (slot tensors) = .ok (names.map (view tensors)) :=
  Lib.mapM_returns fun name member => slot_eq (present name member)

end View

section Task
variable {provider : Provider} {node : Node F} {inputs : List (Tensor F)}

@[simp] theorem task_write : (task provider node).write = output node := by
  rw [task]
  split <;> rfl

theorem denote_inside {result : Tensor F} (made : denote provider node inputs = .ok result) :
    Provider.Inside provider node inputs := by
  by_contra outside
  obtain ⟨fault, failed⟩ := (Provider.reuses_compute provider node inputs).outside outside ⟨none,
    fun _ => ⟨[], []⟩⟩ Tensor.empty
  cases made.symm.trans failed

/-- Whatever the threads and the buffer, a node that returns gives its value. -/
theorem compute_ok_iff {threads : Gemm.Threads F} {buffer result : Tensor F} :
    provider.compute threads node inputs buffer = .ok result ↔ denote provider node inputs = .ok result := by
  have reuses := Provider.reuses_compute provider node inputs
  by_cases inside : Provider.Inside provider node inputs
  · rw [reuses.same inside threads buffer ⟨none, fun _ => ⟨[], []⟩⟩ Tensor.empty]
    rfl
  · obtain ⟨fault, failed⟩ := reuses.outside inside threads buffer
    refine iff_of_false (fun made => ?_) fun made => inside (denote_inside made)
    cases failed.symm.trans made

end Task

section Node
variable {provider : Provider} {graph : Graph F} {ref : NodeRef} {tensors : Slots F}

/-- Everything the node asks for is there. -/
structure Ready (graph : Graph F) (tensors : Slots F) (ref : NodeRef) : Prop where
  live : ∃ entry, graph.deref ref = .ok entry
  inputs : ∀ name ∈ (nodeAt graph ref).inputs, name ∈ tensors
  output : output (nodeAt graph ref) ∈ tensors

theorem executeNode_eq (ready : Ready graph tensors ref) (threads : Gemm.Threads F) :
    executeNode provider graph threads ref tensors =
      if Entangled (nodeAt graph ref) then .error .undefined
      else (provider.compute threads (nodeAt graph ref) ((nodeAt graph ref).inputs.map (view tensors))
        (view tensors (output (nodeAt graph ref)))).map fun result => tensors.insert (output (nodeAt graph ref)) result := by
  obtain ⟨entry, here⟩ := ready.live
  have node : nodeAt graph ref = entry.node := by rw [nodeAt, here]
  have inputs := mapM_slot ready.inputs
  have held := slot_eq ready.output
  rw [node] at inputs held ⊢
  rw [executeNode, here]
  change (entry.node.inputs.mapM (slot tensors) >>= fun inputs => _) = _
  rw [inputs]
  change (slot tensors (output entry.node) >>= fun held => _) = _
  rw [held]
  by_cases entangled : Entangled entry.node
  · rw [if_pos entangled]
    exact if_pos entangled
  · rw [if_neg entangled]
    refine (if_neg entangled).trans ?_
    cases provider.compute threads entry.node (entry.node.inputs.map (view tensors))
      (view tensors (output entry.node)) <;> rfl

def tasks (provider : Provider) (graph : Graph F) (ref : NodeRef) : Task Text (Tensor F) Fault :=
  task provider (nodeAt graph ref)

theorem executeNode_ok_iff (ready : Ready graph tensors ref) (threads : Gemm.Threads F) {after : Slots F} :
    executeNode provider graph threads ref tensors = .ok after ↔
      ∃ result, value (tasks provider graph) (view tensors) ref = .ok result ∧
        after = tensors.insert (output (nodeAt graph ref)) result := by
  rw [executeNode_eq ready, value, tasks, task]
  split
  · constructor
    · intro returned
      cases returned
    · rintro ⟨_, made, _⟩
      cases made
  · cases made : provider.compute threads (nodeAt graph ref) ((nodeAt graph ref).inputs.map (view tensors))
      (view tensors (output (nodeAt graph ref))) with
    | ok result =>
      have denoted := compute_ok_iff.mp made
      simp only [Except.map, Except.ok.injEq, denoted, exists_eq_left', eq_comm]
    | error fault =>
      constructor
      · intro returned
        cases returned
      · rintro ⟨result, denoted, _⟩
        cases made.symm.trans (compute_ok_iff.mpr denoted)

/-- What the node reads, as a task. -/
theorem reads_of_free (free : ¬Entangled (nodeAt graph ref)) :
    (tasks provider graph ref).reads = (nodeAt graph ref).inputs := by
  rw [tasks, task, if_neg free]

theorem executeNode_steady (ready : Ready graph tensors ref) (threads : Gemm.Threads F)
    (inside : Steady provider (nodeAt graph ref) ((tasks provider graph ref).reads.map (view tensors))) {fault : Fault}
    (failed : executeNode provider graph threads ref tensors = .error fault) : fault.Thrown := by
  obtain ⟨free, inside⟩ := inside
  rw [reads_of_free free] at inside
  rw [executeNode_eq ready, if_neg free] at failed
  cases made : provider.compute threads (nodeAt graph ref) ((nodeAt graph ref).inputs.map (view tensors))
      (view tensors (output (nodeAt graph ref))) with
  | ok result =>
    rw [made] at failed
    cases failed
  | error other =>
    rw [made] at failed
    cases failed
    exact (Provider.reuses_compute provider _ _).thrown inside threads _ _ made

/-- In a new buffer a node that leaves it does not throw. -/
theorem executeNode_astray (ready : Ready graph tensors ref) (threads : Gemm.Threads F)
    (astray : ¬Steady provider (nodeAt graph ref) ((tasks provider graph ref).reads.map (view tensors)))
    (fresh : view tensors (output (nodeAt graph ref)) = Tensor.empty) :
    ∃ fault, executeNode provider graph threads ref tensors = .error fault ∧ ¬fault.Thrown := by
  rw [executeNode_eq ready]
  by_cases entangled : Entangled (nodeAt graph ref)
  · exact ⟨.undefined, if_pos entangled, id⟩
  · rw [reads_of_free entangled] at astray
    have outside : ¬Provider.Inside provider (nodeAt graph ref) ((nodeAt graph ref).inputs.map (view tensors)) :=
      fun inside => astray ⟨entangled, inside⟩
    obtain ⟨fault, failed, silent⟩ := (Provider.reuses_compute provider _ _).silent outside threads
    exact ⟨fault, by rw [if_neg entangled, fresh, failed]; rfl, silent⟩

end Node

section Level
variable {provider : Provider} {graph : Graph F} {threads : NodeRef → Gemm.Threads F} {level : List NodeRef}
  {tensors after : Slots F} {outcome : Option Fault}

def SameKeys (before after : Slots F) : Prop := ∀ name, name ∈ after ↔ name ∈ before

omit [Scalar F] in
theorem Ready.of_keys {ref : NodeRef} (ready : Ready graph tensors ref) (same : SameKeys tensors after) :
    Ready graph after ref where
  live := ready.live
  inputs name member := (same name).mpr (ready.inputs name member)
  output := (same _).mpr ready.output

/-- What a node that returned did to the slots. -/
theorem executeNode_returns {ref : NodeRef} {threads : Gemm.Threads F} (ready : Ready graph tensors ref)
    (ran : executeNode provider graph threads ref tensors = .ok after) :
    ∃ result, value (tasks provider graph) (view tensors) ref = .ok result ∧
      view after = Function.update (view tensors) (tasks provider graph ref).write result ∧ SameKeys tensors after := by
  obtain ⟨result, made, rfl⟩ := (executeNode_ok_iff ready threads).mp ran
  exact ⟨result, made, by rw [tasks, task_write, view_insert], mem_insert_present ready.output result⟩

/-- Nodes of a level do not meet in a slot, but that they may read the same. -/
structure Apart (provider : Provider) (graph : Graph F) (level : List NodeRef) : Prop where
  reads : ∀ reader ∈ level, ∀ writer ∈ level, (tasks provider graph writer).write ∉ (tasks provider graph reader).reads
  distinct : Distinct (tasks provider graph) level

theorem Apart.tail {ref : NodeRef} (apart : Apart provider graph (ref :: level)) : Apart provider graph level where
  reads reader member writer found := apart.reads reader (List.mem_cons_of_mem _ member) writer
    (List.mem_cons_of_mem _ found)
  distinct := (List.pairwise_cons.mp apart.distinct).2

theorem Apart.perm {shuffled : List NodeRef} (perm : shuffled.Perm level) (apart : Apart provider graph level) :
    Apart provider graph shuffled where
  reads reader member writer found := apart.reads reader (perm.mem_iff.mp member) writer (perm.mem_iff.mp found)
  distinct := apart.distinct.perm perm

/-- The head of a level changes nothing for the others. -/
theorem Apart.ends_head {ref : NodeRef} (apart : Apart provider graph (ref :: level)) {before store : Text → Tensor F}
    {result : Tensor F}
    (made : value (tasks provider graph) before ref = .ok result) :
    Ends (tasks provider graph) (ref :: level) before store ↔
      Ends (tasks provider graph) level (Function.update before (tasks provider graph ref).write result) store :=
  Lib.Dataflow.ends_cons (fun reader member => apart.reads reader (List.mem_cons_of_mem _ member) ref List.mem_cons_self)
    (fun writer member => (List.pairwise_cons.mp apart.distinct).1 writer member) made

theorem Apart.reads_head {ref other : NodeRef} (apart : Apart provider graph (ref :: level)) (member : other ∈ level)
    {before : Text → Tensor F} {result : Tensor F} :
    (tasks provider graph other).reads.map (Function.update before (tasks provider graph ref).write result) =
      (tasks provider graph other).reads.map before := by
  refine List.map_congr_left fun key read => Function.update_of_ne ?_ _ _
  rintro rfl
  exact apart.reads other (List.mem_cons_of_mem _ member) ref List.mem_cons_self read

theorem executeLevel_frame (ready : ∀ ref ∈ level, Ready graph tensors ref)
    (ran : executeLevel provider graph threads level tensors = .ok (after, outcome)) :
    SameKeys tensors after ∧ ∀ key, ¬Writes (tasks provider graph) level key → view after key = view tensors key := by
  induction level generalizing tensors outcome with
  | nil =>
    cases ran
    exact ⟨fun _ => Iff.rfl, fun _ _ => rfl⟩
  | cons ref level ih =>
    have rest := fun other member => ready other (List.mem_cons_of_mem _ member)
    have beyond : ∀ key, ¬Writes (tasks provider graph) (ref :: level) key →
        key ≠ (tasks provider graph ref).write ∧ ¬Writes (tasks provider graph) level key := fun key outside =>
      ⟨fun same => outside ⟨ref, List.mem_cons_self, same.symm⟩,
        fun ⟨other, member, same⟩ => outside ⟨other, List.mem_cons_of_mem _ member, same⟩⟩
    rw [executeLevel] at ran
    split at ran
    next middle first =>
      obtain ⟨result, _, changed, same⟩ := executeNode_returns (ready ref List.mem_cons_self) first
      obtain ⟨keys, frame⟩ := ih (fun other member => (rest other member).of_keys same) ran
      refine ⟨fun name => (keys name).trans (same name), fun key outside => ?_⟩
      obtain ⟨different, later⟩ := beyond key outside
      rw [frame key later, changed, Function.update_of_ne different]
    next fault _ =>
      split at ran
      · obtain ⟨⟨final, ignored⟩, walked, last⟩ := Lib.bind_ok ran
        cases last
        obtain ⟨keys, frame⟩ := ih rest walked
        exact ⟨keys, fun key outside => frame key (beyond key outside).2⟩
      · cases ran

/-- A level that returned has done what its tasks do. -/
theorem ends_of_executeLevel (apart : Apart provider graph level) (ready : ∀ ref ∈ level, Ready graph tensors ref)
    (ran : executeLevel provider graph threads level tensors = .ok (after, none)) :
    Ends (tasks provider graph) level (view tensors) (view after) := by
  induction level generalizing tensors with
  | nil =>
    cases ran
    exact ⟨nofun, fun _ _ => rfl⟩
  | cons ref level ih =>
    rw [executeLevel] at ran
    split at ran
    next middle first =>
      obtain ⟨result, made, changed, same⟩ := executeNode_returns (ready ref List.mem_cons_self) first
      rw [apart.ends_head made, ← changed]
      exact ih apart.tail (fun other member => (ready other (List.mem_cons_of_mem _ member)).of_keys same) ran
    next fault _ =>
      split at ran
      · obtain ⟨_, _, last⟩ := Lib.bind_ok ran
        cases last
      · cases ran

/-- What the tasks of a level do is done, in any order and on any threads. -/
theorem executeLevel_of_ends (apart : Apart provider graph level) (ready : ∀ ref ∈ level, Ready graph tensors ref)
    (threads : NodeRef → Gemm.Threads F) {store : Text → Tensor F}
    (ends : Ends (tasks provider graph) level (view tensors) store) :
    ∃ after, executeLevel provider graph threads level tensors = .ok (after, none) ∧ view after = store := by
  induction level generalizing tensors with
  | nil => exact ⟨tensors, rfl, (funext fun key => ends.frame key nofun).symm⟩
  | cons ref level ih =>
    have made := ends.written ref List.mem_cons_self
    have first := (executeNode_ok_iff (ready ref List.mem_cons_self) (threads ref)).mpr ⟨_, made, rfl⟩
    obtain ⟨result, again, changed, same⟩ := executeNode_returns (ready ref List.mem_cons_self) first
    rw [apart.ends_head again, ← changed] at ends
    obtain ⟨after, ran, final⟩ := ih apart.tail
      (fun other member => (ready other (List.mem_cons_of_mem _ member)).of_keys same) ends
    refine ⟨after, ?_, final⟩
    rw [executeLevel, first]
    exact ran

/-- Nodes that stay inside their buffers leave a level by returning or throwing. -/
theorem executeLevel_steady (apart : Apart provider graph level) (ready : ∀ ref ∈ level, Ready graph tensors ref)
    (threads : NodeRef → Gemm.Threads F)
    (inside : ∀ ref ∈ level, Steady provider (nodeAt graph ref) ((tasks provider graph ref).reads.map (view tensors))) :
    ∃ after outcome, executeLevel provider graph threads level tensors = .ok (after, outcome) := by
  induction level generalizing tensors with
  | nil => exact ⟨tensors, none, rfl⟩
  | cons ref level ih =>
    have here := ready ref List.mem_cons_self
    have rest := fun other member => ready other (List.mem_cons_of_mem _ member)
    rw [executeLevel]
    cases ran : executeNode provider graph (threads ref) ref tensors with
    | ok middle =>
      obtain ⟨result, made, changed, same⟩ := executeNode_returns here ran
      refine ih apart.tail (fun other member => (rest other member).of_keys same) fun other member => ?_
      rw [changed, apart.reads_head member]
      exact inside other (List.mem_cons_of_mem _ member)
    | error fault =>
      have thrown := executeNode_steady here (threads ref) (inside ref List.mem_cons_self) ran
      obtain ⟨after, outcome, others⟩ := ih apart.tail rest fun other member => inside other (List.mem_cons_of_mem _ member)
      refine ⟨after, some fault, ?_⟩
      simp only [if_pos thrown, others]
      rfl

/-- A node that leaves a new buffer takes the level with it. -/
theorem executeLevel_astray (apart : Apart provider graph level) (ready : ∀ ref ∈ level, Ready graph tensors ref)
    (threads : NodeRef → Gemm.Threads F)
    (fresh : ∀ ref ∈ level, view tensors (tasks provider graph ref).write = Tensor.empty)
    (astray : ∃ ref ∈ level, ¬Steady provider (nodeAt graph ref) ((tasks provider graph ref).reads.map (view tensors))) :
    ∃ fault, executeLevel provider graph threads level tensors = .error fault := by
  induction level generalizing tensors with
  | nil =>
    obtain ⟨ref, member, _⟩ := astray
    cases member
  | cons ref level ih =>
    have here := ready ref List.mem_cons_self
    have rest := fun other member => ready other (List.mem_cons_of_mem _ member)
    have freshRest := fun other member => fresh other (List.mem_cons_of_mem _ member)
    rw [executeLevel]
    by_cases first : Steady provider (nodeAt graph ref) ((tasks provider graph ref).reads.map (view tensors))
    · obtain ⟨bad, member, outside⟩ := astray
      have later : bad ∈ level := by
        rcases List.mem_cons.mp member with rfl | later
        · exact absurd first outside
        · exact later
      cases ran : executeNode provider graph (threads ref) ref tensors with
      | ok middle =>
        obtain ⟨result, made, changed, same⟩ := executeNode_returns here ran
        refine ih apart.tail (fun other member => (rest other member).of_keys same) (fun other member => ?_) ⟨bad, later, ?_⟩
        · rw [changed, Function.update_of_ne ((List.pairwise_cons.mp apart.distinct).1 other member).symm]
          exact freshRest other member
        · rwa [changed, apart.reads_head later]
      | error fault =>
        obtain ⟨other, others⟩ := ih apart.tail rest freshRest ⟨bad, later, outside⟩
        by_cases thrown : fault.Thrown
        · refine ⟨other, ?_⟩
          simp only [if_pos thrown, others]
          rfl
        · exact ⟨fault, if_neg thrown⟩
    · have empty := fresh ref List.mem_cons_self
      rw [tasks, task_write] at empty
      obtain ⟨fault, failed, silent⟩ := executeNode_astray here (threads ref) first empty
      rw [failed]
      exact ⟨fault, if_neg silent⟩

end Level

section Levels
variable {provider : Provider} {graph : Graph F} {call : Call F} {levels : List (List NodeRef)} {tensors after : Slots F}
  {outcome : Option Fault}

theorem apart_of_legal {level : List NodeRef} (legal : Legal (tasks provider graph) (level :: levels)) :
    Apart provider graph level where
  reads reader member writer found read := legal.1 reader member _ read ⟨writer, List.mem_append_left _ found, rfl⟩
  distinct := legal.2.2.1

/-- A level of the schedule in the order a call takes it. -/
theorem apart_within {level : List NodeRef} (legal : Legal (tasks provider graph) (level :: levels)) :
    Apart provider graph (call.within level) :=
  (apart_of_legal legal).perm (call.perm level)

omit [Scalar F] in
theorem ready_within {level : List NodeRef} (ready : ∀ ref ∈ (level :: levels).flatten, Ready graph tensors ref) :
    ∀ ref ∈ call.within level, Ready graph tensors ref :=
  fun ref member => ready ref (List.mem_append_left _ ((call.perm level).mem_iff.mp member))

theorem executeLevels_frame (ready : ∀ ref ∈ levels.flatten, Ready graph tensors ref)
    (ran : executeLevels provider graph call levels tensors = .ok (after, outcome)) :
    SameKeys tensors after ∧ ∀ key, ¬Writes (tasks provider graph) levels.flatten key → view after key =
      view tensors key := by
  induction levels generalizing tensors outcome with
  | nil =>
    cases ran
    exact ⟨fun _ => Iff.rfl, fun _ _ => rfl⟩
  | cons level later ih =>
    obtain ⟨⟨middle, ended⟩, first, ran⟩ := Lib.bind_ok ran
    obtain ⟨keys, frame⟩ := executeLevel_frame (ready_within ready) first
    have here : ∀ key, ¬Writes (tasks provider graph) (level :: later).flatten key → view middle key = view tensors key := by
      intro key outside
      refine frame key fun written => (Lib.Dataflow.not_writes_append.mp outside).1 ?_
      exact (Lib.Dataflow.writes_perm (call.perm level)).mp written
    cases ended with
    | some fault =>
      cases ran
      exact ⟨keys, here⟩
    | none =>
      obtain ⟨keysLater, frameLater⟩ := ih (fun ref member => (ready ref (List.mem_append_right _ member)).of_keys keys) ran
      refine ⟨fun name => (keysLater name).trans (keys name), fun key outside => ?_⟩
      rw [frameLater key (Lib.Dataflow.not_writes_append.mp outside).2, here key outside]

theorem runs_of_executeLevels (legal : Legal (tasks provider graph) levels)
    (ready : ∀ ref ∈ levels.flatten, Ready graph tensors ref)
    (ran : executeLevels provider graph call levels tensors = .ok (after, none)) :
    Runs (tasks provider graph) levels (view tensors) (view after) := by
  induction levels generalizing tensors with
  | nil =>
    cases ran
    rfl
  | cons level later ih =>
    obtain ⟨⟨middle, ended⟩, first, ran⟩ := Lib.bind_ok ran
    cases ended with
    | some fault => cases ran
    | none =>
      have ends := ends_of_executeLevel (apart_within legal) (ready_within ready) first
      have keys := (executeLevel_frame (ready_within ready) first).1
      refine ⟨view middle, (Lib.Dataflow.Ends.perm (call.perm level)).mp ends, ?_⟩
      exact ih legal.2.2.2 (fun ref member => (ready ref (List.mem_append_right _ member)).of_keys keys) ran

theorem executeLevels_of_runs (legal : Legal (tasks provider graph) levels)
    (ready : ∀ ref ∈ levels.flatten, Ready graph tensors ref) {store : Text → Tensor F}
    (runs : Runs (tasks provider graph) levels (view tensors) store) :
    ∃ after, executeLevels provider graph call levels tensors = .ok (after, none) ∧ view after = store := by
  induction levels generalizing tensors with
  | nil => exact ⟨tensors, rfl, runs.symm⟩
  | cons level later ih =>
    obtain ⟨middle, ends, rest⟩ := runs
    obtain ⟨reached, first, rfl⟩ := executeLevel_of_ends (apart_within legal) (ready_within ready) call.threads
      ((Lib.Dataflow.Ends.perm (call.perm level)).mpr ends)
    have keys := (executeLevel_frame (ready_within ready) first).1
    obtain ⟨after, ran, final⟩ := ih legal.2.2.2
      (fun ref member => (ready ref (List.mem_append_right _ member)).of_keys keys) rest
    refine ⟨after, ?_, final⟩
    rw [executeLevels, first]
    exact ran

/-- Every node that is reached stays inside its buffers. -/
def Tame (provider : Provider) (graph : Graph F) : List (List NodeRef) → (Text → Tensor F) → Prop :=
  Throughout (tasks provider graph) fun ref => Steady provider (nodeAt graph ref)

theorem executeLevels_tame (legal : Legal (tasks provider graph) levels)
    (ready : ∀ ref ∈ levels.flatten, Ready graph tensors ref) (tame : Tame provider graph levels (view tensors)) :
    ∃ after outcome, executeLevels provider graph call levels tensors = .ok (after, outcome) := by
  induction levels generalizing tensors with
  | nil => exact ⟨tensors, none, rfl⟩
  | cons level later ih =>
    obtain ⟨inside, beyond⟩ := tame
    obtain ⟨middle, ended, first⟩ := executeLevel_steady (apart_within legal) (ready_within ready) call.threads
      fun ref member => inside ref ((call.perm level).mem_iff.mp member)
    cases ended with
    | some fault => exact ⟨middle, some fault, by rw [executeLevels, first]; rfl⟩
    | none =>
      have ends := ends_of_executeLevel (apart_within legal) (ready_within ready) first
      have keys := (executeLevel_frame (ready_within ready) first).1
      obtain ⟨after, outcome, ran⟩ := ih legal.2.2.2
        (fun ref member => (ready ref (List.mem_append_right _ member)).of_keys keys)
        (beyond _ ((Lib.Dataflow.Ends.perm (call.perm level)).mp ends))
      exact ⟨after, outcome, by rw [executeLevels, first]; exact ran⟩

theorem executeLevels_astray (legal : Legal (tasks provider graph) levels)
    (ready : ∀ ref ∈ levels.flatten, Ready graph tensors ref)
    (fresh : ∀ ref ∈ levels.flatten, view tensors (tasks provider graph ref).write = Tensor.empty)
    (astray : ¬Tame provider graph levels (view tensors)) :
    ∃ fault, executeLevels provider graph call levels tensors = .error fault := by
  induction levels generalizing tensors with
  | nil => exact absurd trivial astray
  | cons level later ih =>
    have freshHere : ∀ ref ∈ call.within level, view tensors (tasks provider graph ref).write = Tensor.empty :=
      fun ref member => fresh ref (List.mem_append_left _ ((call.perm level).mem_iff.mp member))
    by_cases inside : ∀ ref ∈ level, Steady provider (nodeAt graph ref) ((tasks provider graph ref).reads.map (view tensors))
    · obtain ⟨middle, ended, first⟩ := executeLevel_steady (apart_within legal) (ready_within ready) call.threads
        fun ref member => inside ref ((call.perm level).mem_iff.mp member)
      obtain ⟨store, ends, bad⟩ : ∃ store, Ends (tasks provider graph) level (view tensors) store ∧
          ¬Tame provider graph later store := by
        by_contra none
        refine astray ⟨inside, fun store ends => ?_⟩
        by_contra bad
        exact none ⟨store, ends, bad⟩
      obtain ⟨reached, again, rfl⟩ := executeLevel_of_ends (apart_within legal) (ready_within ready) call.threads
        ((Lib.Dataflow.Ends.perm (call.perm level)).mpr ends)
      cases first.symm.trans again
      have keys := (executeLevel_frame (ready_within ready) first).1
      have freshLater : ∀ ref ∈ later.flatten, view middle (tasks provider graph ref).write = Tensor.empty := by
        intro ref member
        rw [ends.frame _ fun ⟨writer, found, same⟩ => legal.2.1 writer found ⟨ref, member, same.symm⟩]
        exact fresh ref (List.mem_append_right _ member)
      obtain ⟨fault, failed⟩ := ih legal.2.2.2 (fun ref member => (ready ref (List.mem_append_right _ member)).of_keys keys)
        freshLater bad
      exact ⟨fault, by rw [executeLevels, first]; exact failed⟩
    · obtain ⟨ref, outside⟩ := not_forall.mp inside
      obtain ⟨member, outside⟩ := Classical.not_imp.mp outside
      obtain ⟨fault, failed⟩ := executeLevel_astray (apart_within legal) (ready_within ready) call.threads freshHere
        ⟨ref, (call.perm level).mem_iff.mpr member, outside⟩
      exact ⟨fault, by rw [executeLevels, failed]; rfl⟩

end Levels
end InferenceSession
end FromScratch.Inference
