import FromScratch.Proofs.LevelRuns
import FromScratch.Proofs.OptimizerSteps
import FromScratch.Proofs.TopologicalOrder

/-! What `prepare` establishes: a slot for every tensor the nodes name, the
initializers in theirs, and an order and levels in which no node meets what it
reads or writes in the hands of another. -/

namespace FromScratch.Inference
open Lib (FiniteMap)
open Lib.Dataflow (Legal Distinct)

namespace InferenceSession
variable {F : Type} [Scalar F]

section Slots
variable {tensors : Slots F} {name : Text}

theorem placeInitializer_eq (tensors : Slots F) (initializer : Text × Tensor F) :
    placeInitializer tensors initializer = .ok (tensors.emplace initializer.1 initializer.2) := by
  obtain ⟨made, fresh⟩ := Tensor.filled_shape initializer.2 Scalar.zero
  rw [placeInitializer, fresh]
  change (made.copyFrom initializer.2.data >>= fun resident => _) = _
  rw [Tensor.copyFrom_full (Tensor.filled_ok fresh).1]
  rfl

theorem placeInitializers_eq (entries : List (Text × Tensor F)) (tensors : Slots F) :
    entries.foldlM placeInitializer tensors =
      .ok (entries.foldl (fun tensors initializer => tensors.emplace initializer.1 initializer.2) tensors) := by
  induction entries generalizing tensors with
  | nil => rfl
  | cons entry entries ih =>
    rw [List.foldlM_cons, placeInitializer_eq]
    exact ih _

omit [Scalar F] in
theorem lookup_emplaced (names : List Text) (tensors : Slots F) (name : Text) :
    (names.foldl (fun tensors name => tensors.emplace name Tensor.empty) tensors).lookup name =
      if name ∈ names then some (view tensors name) else tensors.lookup name := by
  induction names generalizing tensors with
  | nil => simp
  | cons first names ih =>
    have here : view (tensors.emplace first Tensor.empty) name = view tensors name := by
      rw [view, FiniteMap.lookup_emplace]
      split
      next same =>
        subst same
        rfl
      next => rfl
    rw [List.foldl_cons, ih, here, FiniteMap.lookup_emplace]
    by_cases same : name = first
    · subst same
      simp [view]
    · simp [same]

/-- The slots of a model that is accepted. -/
def slotsOf (initializers : FiniteMap.Traversal Text (Tensor F)) (model : Model F) (inputName : Text)
    (nodes : List (Node F)) :
    Slots F :=
  nodes.foldl (fun tensors node => tensors.emplace (output node) Tensor.empty)
    (((initializers.entries model.initializers).foldl
      (fun tensors initializer => tensors.emplace initializer.1 initializer.2)
      (∅ : Slots F)).emplace inputName Tensor.empty)

omit [Scalar F] in
theorem lookup_slotsOf (initializers : FiniteMap.Traversal Text (Tensor F)) (model : Model F) (inputName : Text)
    (nodes : List (Node F)) (name : Text) :
    (slotsOf initializers model inputName nodes).lookup name =
      if name = inputName ∨ name ∈ nodes.map output then some ((model.initializers.lookup name).getD Tensor.empty)
      else model.initializers.lookup name := by
  have copied : ∀ key, ((initializers.entries model.initializers).foldl
      (fun tensors initializer => FiniteMap.emplace tensors initializer.1 initializer.2) (∅ : Slots F)).lookup key =
        model.initializers.lookup key := by
    refine initializers.lookup_copy (fun map key value other absent => ?_) model.initializers
    exact FiniteMap.lookup_emplace_fresh map key value other absent
  have placed := lookup_emplaced (nodes.map output) (((initializers.entries model.initializers).foldl
    (fun tensors initializer => FiniteMap.emplace tensors initializer.1 initializer.2)
      (∅ : Slots F)).emplace inputName Tensor.empty) name
  rw [List.foldl_map] at placed
  rw [slotsOf, placed, view, FiniteMap.lookup_emplace, copied, copied]
  by_cases same : name = inputName
  · subst same
    simp
  · simp [same]

omit [Scalar F] in
theorem mem_slotsOf {initializers : FiniteMap.Traversal Text (Tensor F)} {model : Model F} {inputName : Text}
    {nodes : List (Node F)} {name : Text} : name ∈ slotsOf initializers model inputName nodes ↔
      name ∈ model.initializers ∨ name = inputName ∨ name ∈ nodes.map output := by
  rw [← AList.lookup_isSome, lookup_slotsOf, ← AList.lookup_isSome]
  split
  next here => exact iff_of_true rfl (.inr here)
  next absent => exact (or_iff_left absent).symm

omit [Scalar F] in
theorem view_slotsOf {initializers : FiniteMap.Traversal Text (Tensor F)} {model : Model F} {inputName : Text}
    {nodes : List (Node F)} {name : Text} :
    view (slotsOf initializers model inputName nodes) name = (model.initializers.lookup name).getD Tensor.empty := by
  rw [view, lookup_slotsOf]
  split <;> rfl

end Slots

/-- What a session that has been prepared holds. -/
structure Scheduled (model : Model F) (session : Session F) (slots : Slots F) : Prop where
  graph : session.graph = model.graph
  firstInput : model.graph.inputs.head? = some session.inputName
  firstOutput : model.graph.outputs.head? = some session.outputName
  sorted : model.graph.topologicalSort = .ok session.order
  levelled : model.graph.executionLevels = .ok session.levels
  checked : ∀ ref ∈ session.order, Provider.supports (nodeAt model.graph ref).opType = true ∧
    ∃ name, (nodeAt model.graph ref).outputs = [name]
  keys : ∀ name, name ∈ slots ↔ name ∈ model.initializers ∨ name = session.inputName ∨
    ∃ ref ∈ session.order, output (nodeAt model.graph ref) = name
  held : ∀ name, view slots name = (model.initializers.lookup name).getD Tensor.empty
  reads : ∀ ref ∈ session.order, ∀ name ∈ (nodeAt model.graph ref).inputs, name ∈ slots
  produced : session.outputName ∈ slots

section Schedule
variable {initializers : FiniteMap.Traversal Text (Tensor F)} {parallel : Bool} {model : Model F} {session : Session F}
    {slots : Slots F}

omit [Scalar F] in
theorem nodes_eq {graph : Graph F} {order : List NodeRef} {nodes : List (Node F)}
    (found : (order.mapM fun ref => (·.node) <$> graph.deref ref) = .ok nodes) : nodes = order.map (nodeAt graph) := by
  induction order generalizing nodes with
  | nil =>
    cases found
    rfl
  | cons ref order ih =>
    rw [List.mapM_cons] at found
    obtain ⟨node, first, found⟩ := Lib.bind_ok found
    obtain ⟨rest, others, last⟩ := Lib.bind_ok found
    cases last
    rw [ih others, List.map_cons, nodeAt]
    cases here : graph.deref ref with
    | error fault =>
      rw [here] at first
      cases first
    | ok entry =>
      rw [here] at first
      cases first
      rfl

omit [Scalar F] in
theorem forM_ok {α : Type} {check : α → Except Fault Unit} {items : List α} {done : Unit}
    (ran : items.forM check = .ok done) :
    ∀ item ∈ items, check item = .ok () := by
  induction items with
  | nil => exact nofun
  | cons item items ih =>
    obtain ⟨_, first, rest⟩ := Lib.bind_ok ran
    exact List.forall_mem_cons.mpr ⟨first, ih rest⟩

omit [Scalar F] in
theorem ok_forM {α : Type} {check : α → Except Fault Unit} {items : List α} (each : ∀ item ∈ items, check item = .ok ()) :
    items.forM check = .ok () := by
  induction items with
  | nil => rfl
  | cons item items ih =>
    obtain ⟨first, rest⟩ := List.forall_mem_cons.mp each
    change (check item >>= fun _ => items.forM check) = .ok ()
    rw [first]
    exact ih rest

omit [Scalar F] in
theorem checkNode_ok {node : Node F} (accepted : checkNode node = .ok ()) :
    Provider.supports node.opType = true ∧ ∃ name, node.outputs = [name] := by
  rw [checkNode] at accepted
  split at accepted
  · cases accepted
  next supported =>
    simp only [Bool.not_eq_eq_eq_not, Bool.not_true, Bool.not_eq_false] at supported
    refine ⟨supported, List.length_eq_one_iff.mp ?_⟩
    by_contra several
    cases (if_pos several).symm.trans accepted

omit [Scalar F] in
theorem checkNode_accepts {node : Node F} {name : Text} (supported : Provider.supports node.opType = true)
    (single : node.outputs = [name]) : checkNode node = .ok () := by
  rw [checkNode, supported, single]
  rfl

omit [Scalar F] in
theorem ends_ok {graph : Graph F} {inputName outputName : Text} (named : ends graph = .ok (inputName, outputName)) :
    graph.inputs.head? = some inputName ∧ graph.outputs.head? = some outputName := by
  rw [ends] at named
  split at named
  next => cases named
  next => cases named
  next inputs outputs =>
    cases named
    exact ⟨by rw [inputs]; rfl, by rw [outputs]; rfl⟩

/-- `schedule` from where the model is known to have an order and its nodes are checked. -/
theorem schedule_eq {inputName outputName : Text} {order : List NodeRef} {levels : List (List NodeRef)}
    {nodes : List (Node F)}
    (named : ends model.graph = .ok (inputName, outputName)) (sorted : model.graph.topologicalSort = .ok order)
    (levelled : model.graph.executionLevels = .ok levels)
    (found : (order.mapM fun ref => (·.node) <$> model.graph.deref ref) = .ok nodes)
    (checked : nodes.forM checkNode = .ok ()) :
    schedule initializers parallel model =
      if outputName ∈ slotsOf initializers model inputName nodes then do
        nodes.forM (checkInputs (slotsOf initializers model inputName nodes))
        pure (⟨model.graph, order, levels, inputName, outputName, parallel⟩, slotsOf initializers model inputName nodes)
      else throw (.runtimeError (text "Graph output '" ++ outputName ++ text "' is not produced by any node")) := by
  rw [schedule, named]
  change (model.graph.topologicalSort >>= fun order => _) = _
  rw [sorted]
  change (model.graph.executionLevels >>= fun levels => _) = _
  rw [levelled]
  change ((order.mapM fun ref => (·.node) <$> model.graph.deref ref) >>= fun nodes => _) = _
  rw [found]
  change (nodes.forM checkNode >>= fun _ => _) = _
  rw [checked]
  change ((initializers.entries model.initializers).foldlM placeInitializer (∅ : Slots F) >>= fun tensors => _) = _
  rw [placeInitializers_eq]
  by_cases produced : outputName ∈ slotsOf initializers model inputName nodes
  · rw [if_pos produced]
    exact if_neg (not_not.mpr produced)
  · rw [if_neg produced]
    exact if_pos produced

theorem schedule_sound (made : schedule initializers parallel model = .ok (session, slots)) :
    Scheduled model session slots ∧ session.parallel = parallel := by
  obtain ⟨⟨inputName, outputName⟩, named, rest⟩ := Lib.bind_ok made
  obtain ⟨order, sorted, rest⟩ := Lib.bind_ok rest
  obtain ⟨levels, levelled, rest⟩ := Lib.bind_ok rest
  obtain ⟨nodes, found, rest⟩ := Lib.bind_ok rest
  obtain ⟨_, checked, rest⟩ := Lib.bind_ok rest
  clear rest
  rw [schedule_eq named sorted levelled found checked] at made
  split at made
  next produced =>
    obtain ⟨_, read, last⟩ := Lib.bind_ok made
    cases last
    cases nodes_eq found
    have nodeChecked := forM_ok checked
    have inputsChecked := forM_ok read
    obtain ⟨input, output⟩ := ends_ok named
    refine ⟨⟨rfl, input, output, sorted, levelled, fun ref member => ?_, fun name => ?_, fun name => view_slotsOf,
      fun ref member name reads => ?_, produced⟩, rfl⟩
    · exact checkNode_ok (nodeChecked _ (List.mem_map_of_mem member))
    · rw [mem_slotsOf, List.map_map, List.mem_map]
      rfl
    · have present := forM_ok (inputsChecked _ (List.mem_map_of_mem member)) name reads
      by_contra absent
      rw [if_neg absent] at present
      cases present
  next => cases made

end Schedule

section Pointers
variable {graph : Graph F} {ref : NodeRef} {entry : NodeEntry F}

omit [Scalar F] in
theorem nodeAt_deref (here : graph.deref ref = .ok entry) : nodeAt graph ref = entry.node := by
  rw [nodeAt, here]

omit [Scalar F] in
theorem has_nodeAt (here : graph.deref ref = .ok entry) : graph.Has ref.name (nodeAt graph ref) := by
  rw [nodeAt_deref here]
  exact Graph.has_lookup (Graph.deref_ok here).1

end Pointers

section Order
variable {provider : Provider} {model : Model F} {order : List NodeRef}

/-- Two pointers of the order are two nodes of the table. -/
theorem distinct_of_sorted (sequential : model.Sequential) (sorted : model.graph.topologicalSort = .ok order)
    (single : ∀ ref ∈ order, ∃ name, (nodeAt model.graph ref).outputs = [name]) :
    Distinct (tasks provider model.graph) order := by
  have closed := (Graph.topologicalSort_sound sorted).1
  refine closed.nodup.pairwise_of_forall_ne fun first here second there different same => different ?_
  obtain ⟨entry, points⟩ := closed.live here
  obtain ⟨other, pointsOther⟩ := closed.live there
  obtain ⟨name, outputs⟩ := single first here
  obtain ⟨name', outputs'⟩ := single second there
  rw [tasks, tasks, task_write, task_write, output, output, outputs, outputs'] at same
  have equal : first.name = second.name := by
    refine sequential.apart _ _ _ _ (has_nodeAt points) (has_nodeAt pointsOther) name ?_ ?_
    · rw [outputs]
      exact List.mem_cons_self
    · rw [outputs', show name = name' from same]
      exact List.mem_cons_self
  have pointer := sequential.kept.pointer_deref points
  rw [equal, sequential.kept.pointer_deref pointsOther] at pointer
  exact (Option.some.inj pointer).symm

/-- A node of the order that reads what another writes is linked to it. -/
theorem linked_of_reads (sequential : model.Sequential) {reader writer : NodeRef} {source target : NodeEntry F}
    (readerHere : model.graph.deref reader = .ok target) (writerHere : model.graph.deref writer = .ok source)
    (single : ∃ name, (nodeAt model.graph writer).outputs = [name])
    (reads : (tasks provider model.graph writer).write ∈ (tasks provider model.graph reader).reads) :
    reader.name ≠ writer.name ∧ reader ∈ source.children ∧ writer ∈ target.parents := by
  obtain ⟨name, outputs⟩ := single
  have written : output (nodeAt model.graph writer) ∈ (nodeAt model.graph writer).outputs := by
    rw [output, outputs]
    exact List.mem_cons_self
  rw [tasks, tasks, task_write, task] at reads
  split at reads
  · cases reads
  next free =>
    have feeds : Graph.Feeds (Graph.stored model.graph.nodeMap) (writer.name, reader.name) := by
      obtain ⟨id, from_⟩ := has_nodeAt writerHere
      obtain ⟨id', to_⟩ := has_nodeAt readerHere
      exact ⟨_, _, from_, to_, _, written, reads⟩
    have different : reader.name ≠ writer.name := by
      intro same
      have node : nodeAt model.graph reader = nodeAt model.graph writer :=
        (has_nodeAt readerHere).unique (by rw [same]; exact has_nodeAt writerHere)
      rw [node] at reads free
      exact free ⟨reads, .inr (sequential.selfless _ _ (has_nodeAt writerHere) _ written reads)⟩
    have down := (sequential.wired .children writer.name reader).mpr
      ⟨reader.name, different, feeds, sequential.kept.pointer_deref readerHere⟩
    have up := (sequential.wired .parents reader.name writer).mpr
      ⟨writer.name, different.symm, feeds, sequential.kept.pointer_deref writerHere⟩
    rw [Graph.linksOf, (Graph.deref_ok writerHere).1] at down
    rw [Graph.linksOf, (Graph.deref_ok readerHere).1] at up
    exact ⟨different, down, up⟩

theorem selfless_of_sorted (sequential : model.Sequential) (sorted : model.graph.topologicalSort = .ok order)
    (single : ∀ ref ∈ order, ∃ name, (nodeAt model.graph ref).outputs = [name]) :
    ∀ ref ∈ order, (tasks provider model.graph ref).write ∉ (tasks provider model.graph ref).reads := by
  intro ref member reads
  obtain ⟨entry, here⟩ := (Graph.topologicalSort_sound sorted).1.live member
  exact (linked_of_reads sequential here here (single ref member) reads).1 rfl

/-- A node that comes earlier reads nothing a later one writes. -/
theorem earlier_of_sorted (sequential : model.Sequential) (sorted : model.graph.topologicalSort = .ok order)
    (single : ∀ ref ∈ order, ∃ name, (nodeAt model.graph ref).outputs = [name]) :
    order.Pairwise fun first second => (tasks provider model.graph second).write ∉
      (tasks provider model.graph first).reads := by
  have closed := (Graph.topologicalSort_sound sorted).1
  refine closed.pairwise.imp_of_mem fun {first second} here there apart reads => ?_
  obtain ⟨target, readerHere⟩ := closed.live here
  obtain ⟨source, writerHere⟩ := closed.live there
  exact apart source writerHere (linked_of_reads sequential readerHere writerHere (single second there) reads).2.1

/-- A node that comes later and reads is on a higher level. -/
theorem higher_of_sorted (sequential : model.Sequential) (sorted : model.graph.topologicalSort = .ok order)
    (single : ∀ ref ∈ order, ∃ name, (nodeAt model.graph ref).outputs = [name]) {level : NodeRef → Nat}
    (levelled : Graph.Levelled model.graph level [] order) :
    ∀ reader ∈ order, ∀ writer ∈ order, (tasks provider model.graph writer).write ∈
      (tasks provider model.graph reader).reads →
      level writer < level reader := by
  have closed := (Graph.topologicalSort_sound sorted).1
  have both : order.Pairwise fun first second =>
      ((tasks provider model.graph second).write ∈ (tasks provider model.graph first).reads → level second < level first) ∧
        ((tasks provider model.graph first).write ∈ (tasks provider model.graph second).reads →
          level first < level second) := by
    have earlier := @earlier_of_sorted F _ provider model order sequential sorted single
    refine (earlier.and levelled.pairwise).imp_of_mem ?_
    rintro first second here there ⟨apart, above⟩
    refine ⟨fun reads => absurd reads apart, fun reads => ?_⟩
    obtain ⟨source, writerHere⟩ := closed.live here
    obtain ⟨target, readerHere⟩ := closed.live there
    exact above target readerHere (linked_of_reads sequential readerHere writerHere (single first here) reads).2.2
  have : Std.Symm fun first second =>
      ((tasks provider model.graph second).write ∈ (tasks provider model.graph first).reads → level second < level first) ∧
        ((tasks provider model.graph first).write ∈ (tasks provider model.graph second).reads →
          level first < level second) :=
    ⟨fun _ _ pair => ⟨pair.2, pair.1⟩⟩
  intro reader here writer there reads
  by_cases same : reader = writer
  · subst same
    exact absurd reads (selfless_of_sorted sequential sorted single reader here)
  · exact (both.forall here there same).1 reads

end Order

namespace Scheduled
variable {provider : Provider} {model : Model F} {session : Session F} {slots : Slots F}

omit [Scalar F] in
theorem single (scheduled : Scheduled model session slots) :
    ∀ ref ∈ session.order, ∃ name, (nodeAt model.graph ref).outputs = [name] :=
  fun ref member => (scheduled.checked ref member).2

omit [Scalar F] in
/-- However the session is run, it runs the nodes of the order. -/
theorem mem_levels (scheduled : Scheduled model session slots) (parallel : Bool) (ref : NodeRef) :
    ref ∈ (levelsOf { session with parallel }).flatten ↔ ref ∈ session.order := by
  rw [levelsOf]
  split
  · obtain ⟨order, level, count, sorted, _, made, below, _⟩ := Graph.executionLevels_sound scheduled.levelled
    cases scheduled.sorted.symm.trans sorted
    change ref ∈ session.levels.flatten ↔ _
    rw [made]
    exact Lib.Dataflow.mem_ranked below
  · exact Lib.Dataflow.mem_singletons

/-- However the session is run, no node meets what it reads or writes in the hands of another. -/
theorem legal (scheduled : Scheduled model session slots) (sequential : model.Sequential) (parallel : Bool) :
    Legal (tasks provider model.graph) (levelsOf { session with parallel }) := by
  have distinct := @distinct_of_sorted F _ provider model _ sequential scheduled.sorted scheduled.single
  rw [levelsOf]
  split
  · obtain ⟨order, level, count, sorted, levelled, made, _⟩ := Graph.executionLevels_sound scheduled.levelled
    cases scheduled.sorted.symm.trans sorted
    change Legal _ session.levels
    rw [made]
    exact Lib.Dataflow.legal_ranked count (higher_of_sorted sequential scheduled.sorted scheduled.single levelled) distinct
  · exact Lib.Dataflow.legal_singletons (selfless_of_sorted sequential scheduled.sorted scheduled.single)
      (earlier_of_sorted sequential scheduled.sorted scheduled.single) distinct

omit [Scalar F] in
/-- Every slot a node asks for is there. -/
theorem ready (scheduled : Scheduled model session slots) {tensors : Slots F} (keys : SameKeys slots tensors) :
    ∀ ref ∈ session.order, Ready model.graph tensors ref := by
  intro ref member
  have live := (Graph.topologicalSort_sound scheduled.sorted).1.live member
  refine ⟨live, fun name reads => (keys name).mpr (scheduled.reads ref member name reads), (keys _).mpr ?_⟩
  exact (scheduled.keys _).mpr (.inr (.inr ⟨ref, member, rfl⟩))

end Scheduled
end InferenceSession
end FromScratch.Inference
