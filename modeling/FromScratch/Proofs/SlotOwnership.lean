import FromScratch.Proofs.ModelReload
import FromScratch.Proofs.RunValues
import FromScratch.Proofs.ScheduleShape
import FromScratch.Proofs.SurvivingNodes

/-! Who owns a slot. The levels follow the tensors that are read, so no node of a
level writes what another reads; that two nodes of a level do not write the same
tensor, and that none writes an initializer or the request, is up to the model. -/

namespace FromScratch.Inference
open Lib (FiniteMap)
open Lib.Acyclic (Chain)
open Lib.Reader (Yields)
open Graph

namespace ModelLoader
variable {walk : FiniteMap.Traversal Text (NodeEntry FloatBits)}

theorem yields_assembled : Yields (readModel walk) Model.Assembled := by
  have initializer : ∀ model : Model FloatBits, model.Assembled → Yields (readInitializer model) Model.Assembled := by
    intro model assembled
    refine (Yields.any _).bind fun name _ => (Yields.any _).bind fun ndim _ => (Yields.any _).bind fun dims _ => ?_
    refine (Yields.any _).bind fun data _ => (Yields.any _).bind fun tensor _ => Yields.pure ?_
    exact assembled.addInitializer name tensor
  have node : ∀ model : Model FloatBits, model.Assembled → Yields (readNode walk model) Model.Assembled := by
    intro model assembled
    refine (Yields.any _).bind fun name _ => (Yields.any _).bind fun opType _ => (Yields.any _).bind fun inputs _ => ?_
    refine (Yields.any _).bind fun outputs _ => (Yields.any _).bind fun count _ => (Yields.any _).bind fun attrs _ =>
      Yields.pure ?_
    exact assembled.addNode walk name opType inputs outputs attrs
  refine (Yields.any _).bind fun numInitializers _ => ?_
  refine (@Yields.repeated Fault _ readInitializer (fun _ => Model.Assembled) (fun _ => initializer) numInitializers
    {} .new).bind fun tables read => ?_
  refine (Yields.any _).bind fun numNodes _ => ?_
  refine (@Yields.repeated Fault _ (readNode walk) (fun _ => Model.Assembled)
    (fun _ => node) numNodes tables read).bind fun model nodes => ?_
  refine (Yields.any _).bind fun graphInputs _ => (Yields.any _).bind fun graphOutputs _ => Yields.pure ?_
  exact (nodes.setInputs graphInputs).setOutputs graphOutputs

theorem load_assembled {path : Text} {file : Option (List UInt8)} {model : Model FloatBits}
    (accepted : load walk path file = .ok model) : model.Assembled :=
  load_yields yields_assembled accepted

end ModelLoader

section Rewritten
variable {F : Type} [Scalar F] {provider : Provider} {model result : Model F}

/-- Every round of the optimizer ends with the edges found anew. -/
theorem GraphOptimizer.Rewrite.wired (kept : model.graph.Kept) (rewrite : GraphOptimizer.Rewrite provider model result) :
    result.graph.Wired := by
  cases rewrite with
  | @fuse walk target producer found fusion =>
    have edited := (kept.edit producer.node.name (.opType .gemmRelu)).edit producer.node.name (.outputs target.node.outputs)
    rw [edit_edit] at edited
    refine Wired.removeNode edited fun absent => absurd ?_ absent
    exact (FiniteMap.mem_adjust _ _ _ _).mpr (has_lookup found).mem
  | fold walk threads found isConstant computed =>
    exact Wired.removeNode kept fun absent => absurd (has_lookup found).mem absent
  | eliminate walk found isDead => exact Wired.removeNode kept fun absent => absurd (has_lookup found).mem absent

theorem linked_rewrites (kept : model.graph.Kept) (linked : model.graph.Linked)
    (rewrites : Relation.ReflTransGen (GraphOptimizer.Rewrite provider) model result) :
    result.graph.Kept ∧ result.graph.Linked := by
  induction rewrites with
  | refl => exact ⟨kept, linked⟩
  | tail _ step ih =>
    have after := step.kept ih.1
    exact ⟨after, (step.wired ih.1).linked after⟩

end Rewritten

variable {F : Type}

/-- One node writes what another reads. -/
def Feeding (held : Text → Node F → Prop) (first last : Text) : Prop :=
  first ≠ last ∧ ∃ source target, held first source ∧ held last target ∧ ∃ output ∈ source.outputs, output ∈ target.inputs

/-- No node writes a weight or the request, and of two nodes that write one tensor one
ends a longer chain of nodes that feed each other than the other does. -/
structure Separate (held : Text → Node F → Prop) (weight : Text → Prop) (request : Option Text) : Prop where
  outside : ∀ name node, held name node → ∀ output ∈ node.outputs, ¬weight output ∧ request ≠ some output
  layers : ∀ first last source target, held first source → held last target → first ≠ last →
    ∀ output ∈ source.outputs, output ∈ target.outputs →
      ∃ length, ¬(Chain (Feeding held) length first ↔ Chain (Feeding held) length last)

/-- The nodes that come to run keep their slots apart: those of the model, or those
that the optimizer leaves of it, which makes weights of all it can compute. -/
def Model.SlotsApart (optimized : Bool) (model : Model F) : Prop :=
  if optimized then Separate (GraphOptimizer.Remaining model) (GraphOptimizer.Known model) model.graph.inputs.head?
  else Separate model.graph.Has (· ∈ model.initializers) model.graph.inputs.head?

theorem feeding_iff {graph : Graph F} {first last : Text} : Feeding graph.Has first last ↔ graph.Depends first last := by
  refine and_congr_right fun _ => ?_
  constructor
  · rintro ⟨source, target, from_, to_, shared⟩
    exact (feeds_has from_ to_).mpr shared
  · intro feeds
    obtain ⟨source, target, from_, to_⟩ := GraphOptimizer.feeds_ends feeds
    exact ⟨source, target, from_, to_, (feeds_has from_ to_).mp feeds⟩

/-- A chain of pointers to parents is a chain of nodes that feed each other. -/
theorem Graph.Linked.chain_iff {graph : Graph F} (linked : graph.Linked) (kept : graph.Kept) {order : List NodeRef}
    (sorted : graph.topologicalSort = .ok order) {length : ℕ} {ref : NodeRef}
    (live : pointer (stored graph.nodeMap) ref.name = some ref) :
    Chain graph.LiveParent length ref ↔ Chain (Feeding graph.Has) length ref.name := by
  constructor
  · intro chain
    induction chain with
    | start => exact .start _
    | step _ parent ih =>
      obtain ⟨from_, _, depends⟩ := (linked.liveParent_iff kept sorted).mp parent
      exact .step (ih from_) (feeding_iff.mpr depends)
  · intro chain
    generalize name : ref.name = last at chain
    induction chain generalizing ref with
    | start => exact .start _
    | @step length first last _ feeding ih =>
      subst name
      obtain ⟨_, source, _, from_, _⟩ := id feeding
      obtain ⟨id, pointed⟩ := GraphOptimizer.pointer_has kept from_
      exact .step (@ih ⟨first, id⟩ pointed rfl)
        ((linked.liveParent_iff kept sorted).mpr ⟨pointed, live, feeding_iff.mp feeding⟩)

namespace InferenceSession

/-- The slots of the nodes of a level while they run. -/
structure Owned (model : Model F) (session : Session F) : Prop where
  distinct : ∀ level ∈ session.levels, (level.map fun ref => output (nodeAt session.graph ref)).Nodup
  unread : ∀ level ∈ session.levels, ∀ writer ∈ level, ∀ reader ∈ level, writer ≠ reader →
    output (nodeAt session.graph writer) ∉ (nodeAt session.graph reader).inputs
  outside : ∀ level ∈ session.levels, ∀ ref ∈ level, output (nodeAt session.graph ref) ∉ model.initializers ∧
    output (nodeAt session.graph ref) ≠ session.inputName

section Rows
variable {model : Model F} {session : Session F} {slots : Slots F} {level : NodeRef → ℕ} {refs : List NodeRef}

/-- A level holds the nodes at which the longest chain has one length. -/
structure Rows (model : Model F) (session : Session F) (level : NodeRef → ℕ) : Prop where
  chains : ∀ ref ∈ session.order, ∀ length, Chain (Feeding model.graph.Has) length ref.name ↔ length ≤ level ref
  cut : ∀ refs ∈ session.levels, ∃ depth, refs = session.order.filter fun ref => level ref = depth
  row : ∀ ref ∈ session.order, (session.order.filter fun other => level other = level ref) ∈ session.levels

theorem Scheduled.rows (scheduled : Scheduled model session slots) (kept : model.graph.Kept)
    (linked : model.graph.Linked) : ∃ level, Rows model session level := by
  have sorted := scheduled.sorted
  obtain ⟨level, count, made, below, _, deepest⟩ := linked.heights kept sorted
  have levels := Except.ok.inj (scheduled.levelled.symm.trans made)
  refine ⟨level, fun ref member length => ?_, fun refs member => ?_, fun ref member => ?_⟩
  · have live := (deref_iff kept).mp ((kept.mem_order sorted ref).mp member)
    rw [← linked.chain_iff kept sorted live]
    exact Lib.Acyclic.chain_iff (fun first last _ parent => (parent.mem kept sorted).1) deepest member length
  · rw [levels] at member
    obtain ⟨depth, _, same⟩ := List.mem_map.mp member
    exact ⟨depth, same.symm⟩
  · rw [levels]
    exact List.mem_map.mpr ⟨level ref, List.mem_range.mpr (below ref member), rfl⟩

/-- The node of a pointer that is run, and the one tensor it writes. -/
theorem Scheduled.written (scheduled : Scheduled model session slots) (kept : model.graph.Kept) {ref : NodeRef}
    (member : ref ∈ session.order) :
    ∃ node output, model.graph.Has ref.name node ∧ nodeAt session.graph ref = node ∧ node.outputs = [output] ∧
      InferenceSession.output (nodeAt session.graph ref) = output := by
  obtain ⟨entry, here⟩ := (kept.mem_order scheduled.sorted ref).mp member
  obtain ⟨output, single⟩ := scheduled.single ref member
  refine ⟨_, output, has_nodeAt here, by rw [scheduled.graph], single, ?_⟩
  rw [scheduled.graph, InferenceSession.output, single]
  rfl

theorem Scheduled.names (scheduled : Scheduled model session slots) (kept : model.graph.Kept) {first last : NodeRef}
    (here : first ∈ session.order) (there : last ∈ session.order) (different : first ≠ last) : first.name ≠ last.name := by
  obtain ⟨_, found⟩ := (kept.mem_order scheduled.sorted first).mp here
  obtain ⟨_, found'⟩ := (kept.mem_order scheduled.sorted last).mp there
  intro same
  have pointed := kept.pointer_deref found
  rw [same, kept.pointer_deref found'] at pointed
  exact different (Option.some.inj pointed).symm

theorem Rows.separate (rows : Rows model session level) (scheduled : Scheduled model session slots)
    (kept : model.graph.Kept) (owned : Owned model session) :
    Separate model.graph.Has (· ∈ model.initializers) model.graph.inputs.head? := by
  have sorted := scheduled.sorted
  refine ⟨fun name node has output member => ?_,
    fun first last source target from_ to_ different output writes also => ?_⟩
  · obtain ⟨ref, inside, rfl, rfl⟩ := mem_sorted kept sorted has
    obtain ⟨_, _, found, _, single, same⟩ := scheduled.written kept inside
    cases has.unique found
    rw [single, List.mem_singleton] at member
    have outside := owned.outside _ (rows.row ref inside) ref (List.mem_filter.mpr ⟨inside, decide_eq_true rfl⟩)
    rw [same, ← member] at outside
    refine ⟨outside.1, fun first => outside.2 ?_⟩
    exact Option.some.inj (first.symm.trans scheduled.firstInput)
  · obtain ⟨ref, inside, rfl, rfl⟩ := mem_sorted kept sorted from_
    obtain ⟨other, within, rfl, rfl⟩ := mem_sorted kept sorted to_
    obtain ⟨_, _, has, _, single, named⟩ := scheduled.written kept inside
    obtain ⟨_, _, has', _, single', named'⟩ := scheduled.written kept within
    cases from_.unique has
    cases to_.unique has'
    rw [single, List.mem_singleton] at writes
    rw [single', List.mem_singleton] at also
    have apart : level ref ≠ level other := by
      intro same
      have distinct := (List.nodup_map_iff_inj_on ((topologicalSort_sound sorted).1.nodup.filter _)).mp
        (owned.distinct _ (rows.row ref inside))
      refine different (congrArg NodeRef.name (distinct ref (List.mem_filter.mpr ⟨inside, decide_eq_true rfl⟩) other
        (List.mem_filter.mpr ⟨within, decide_eq_true same.symm⟩) ?_))
      rw [named, named', ← writes, ← also]
    refine ⟨max (level ref) (level other), fun same => apart ?_⟩
    rw [rows.chains ref inside, rows.chains other within] at same
    omega

theorem Rows.distinct (rows : Rows model session level) (scheduled : Scheduled model session slots)
    (kept : model.graph.Kept) (separate : Separate model.graph.Has (· ∈ model.initializers) model.graph.inputs.head?)
    (member : refs ∈ session.levels) : (refs.map fun ref => output (nodeAt session.graph ref)).Nodup := by
  obtain ⟨depth, rfl⟩ := rows.cut refs member
  refine (List.nodup_map_iff_inj_on ((topologicalSort_sound scheduled.sorted).1.nodup.filter _)).mpr ?_
  intro first here last there same
  obtain ⟨inside, deep⟩ := List.mem_filter.mp here
  obtain ⟨within, deep'⟩ := List.mem_filter.mp there
  by_contra different
  obtain ⟨source, output, has, _, single, named⟩ := scheduled.written kept inside
  obtain ⟨target, output', has', _, single', named'⟩ := scheduled.written kept within
  rw [named, named'] at same
  obtain ⟨length, apart⟩ := separate.layers first.name last.name source target has has'
    (scheduled.names kept inside within different) output (by rw [single]; exact List.mem_cons_self)
    (by rw [single', same]; exact List.mem_cons_self)
  refine apart ?_
  rw [rows.chains first inside, rows.chains last within, of_decide_eq_true deep, of_decide_eq_true deep']

/-- What a node reads is written on an earlier level. -/
theorem Rows.unread (rows : Rows model session level) (scheduled : Scheduled model session slots)
    (kept : model.graph.Kept) (member : refs ∈ session.levels) {writer reader : NodeRef} (here : writer ∈ refs)
    (there : reader ∈ refs) (different : writer ≠ reader) :
    output (nodeAt session.graph writer) ∉ (nodeAt session.graph reader).inputs := by
  obtain ⟨depth, rfl⟩ := rows.cut refs member
  obtain ⟨inside, deep⟩ := List.mem_filter.mp here
  obtain ⟨within, deep'⟩ := List.mem_filter.mp there
  obtain ⟨source, output, has, _, single, named⟩ := scheduled.written kept inside
  obtain ⟨target, _, has', node, _, _⟩ := scheduled.written kept within
  intro reads
  rw [named, node] at reads
  have feeding : Feeding model.graph.Has writer.name reader.name :=
    ⟨scheduled.names kept inside within different, source, target, has, has', output,
      by rw [single]; exact List.mem_cons_self, reads⟩
  have longer := (rows.chains reader within _).mp (.step ((rows.chains writer inside _).mpr le_rfl) feeding)
  rw [of_decide_eq_true deep, of_decide_eq_true deep'] at longer
  omega

theorem Rows.outside (rows : Rows model session level) (scheduled : Scheduled model session slots)
    (kept : model.graph.Kept) (separate : Separate model.graph.Has (· ∈ model.initializers) model.graph.inputs.head?)
    (member : refs ∈ session.levels) {ref : NodeRef} (here : ref ∈ refs) :
    output (nodeAt session.graph ref) ∉ model.initializers ∧ output (nodeAt session.graph ref) ≠ session.inputName := by
  obtain ⟨depth, rfl⟩ := rows.cut refs member
  obtain ⟨node, output, has, _, single, named⟩ := scheduled.written kept (List.mem_filter.mp here).1
  have outside := separate.outside ref.name node has output (by rw [single]; exact List.mem_cons_self)
  rw [named]
  refine ⟨outside.1, fun same => outside.2 ?_⟩
  rw [same]
  exact scheduled.firstInput

theorem Scheduled.owned_iff (scheduled : Scheduled model session slots) (kept : model.graph.Kept)
    (linked : model.graph.Linked) :
    Owned model session ↔ Separate model.graph.Has (· ∈ model.initializers) model.graph.inputs.head? := by
  obtain ⟨level, rows⟩ := scheduled.rows kept linked
  constructor
  · exact rows.separate scheduled kept
  · intro separate
    exact {
      distinct := fun _ => rows.distinct scheduled kept separate
      unread := fun _ member _ here _ there => rows.unread scheduled kept member here there
      outside := fun _ member _ => rows.outside scheduled kept separate member }

end Rows

/-- The model that is scheduled: the one given, or what the optimizer makes of it. -/
def Readied [Scalar F] (config : SessionConfig) (platform : Platform F) (provider : Provider) (model ready : Model F) :
    Prop :=
  if config.graphOptimization then ∃ report, GraphOptimizer.run config.optimizerOptions platform provider model =
    .ok (ready, report)
  else ready = model

/-- A session owns its slots exactly if the nodes of the loaded model that come to run keep theirs apart. -/
theorem prepare_owned_iff {walk : FiniteMap.Traversal Text (NodeEntry FloatBits)} {path : Text}
    {file : Option (List UInt8)} {model : Model FloatBits} (loaded : ModelLoader.load walk path file = .ok model)
    {config : SessionConfig} {platform : Platform FloatBits} {initializers : FiniteMap.Traversal Text (Tensor FloatBits)}
    {provider : Provider} {session : Session FloatBits} {slots : Slots FloatBits}
    (prepared : prepare config platform initializers provider model = .ok (session, slots)) :
    ∃ ready, Readied config platform provider model ready ∧
      (Owned ready session ↔ model.SlotsApart config.graphOptimization) := by
  have assembled := ModelLoader.load_assembled loaded
  obtain ⟨_, _, made⟩ := Lib.bind_ok prepared
  split at made
  next optimized =>
    obtain ⟨⟨ready, report⟩, ran, accepted⟩ := Lib.bind_ok made
    obtain ⟨kept, linked⟩ := linked_rewrites assembled.kept assembled.linked (GraphOptimizer.run_rewrites assembled.kept ran)
    refine ⟨ready, ?_, ?_⟩
    · rw [Readied, if_pos optimized]
      exact ⟨report, ran⟩
    · have options : config.optimizerOptions = GraphOptimizer.everything := by
        rw [SessionConfig.optimizerOptions, optimized]
        rfl
      rw [options] at ran
      obtain ⟨nodes, weights, inputs⟩ := GraphOptimizer.run_remaining assembled ran
      rw [(schedule_sound accepted).1.owned_iff kept linked, Model.SlotsApart, if_pos optimized, nodes, inputs]
      simp only [weights]
  next plain =>
    refine ⟨model, ?_, ?_⟩
    · rw [Readied, if_neg plain]
    · rw [Model.SlotsApart, if_neg plain]
      exact (schedule_sound made).1.owned_iff assembled.kept assembled.linked

section Files

def bitsPlatform : Platform FloatBits := ⟨fun _ => .kept, fun _ => .kept, fun _ => .kept, fun _ => ⟨none, fun _ => ⟨[], []⟩⟩⟩

/-- A node by its name, the tensor it reads and the tensor it writes. -/
def reluOf (sketch : String × String × String) : Node FloatBits :=
  Node.make (text sketch.1) (text "Relu") [text sketch.2.1] [text sketch.2.2] ∅

/-- A weight and some nodes, with the tensor that is returned. -/
def fileOf (nodes : List (String × String × String)) (shown : String) : List UInt8 :=
  ModelLoader.kMagic ++ ModelLoader.writeU32 1 ++ ModelLoader.writeU32 1 ++
    ModelLoader.writeInitializer (text "w", ModelLoader.oneElement) ++ ModelLoader.writeU32 nodes.length ++
    (nodes.flatMap fun node => ModelLoader.writeNode ModelLoader.keptWalks (reluOf node)) ++
    ModelLoader.writeStrings [text "x"] ++ ModelLoader.writeStrings [text shown]

def modelOf (nodes : List (String × String × String)) (shown : String) : Model FloatBits where
  graph := { nodes.foldl (fun graph node => graph.addNode .kept (reluOf node)) ({} : Graph FloatBits) with
      inputs := [text "x"], outputs := [text shown] }
  initializers := AList.insert (text "w") ModelLoader.oneElement ∅

theorem modelOf_has {nodes : List (String × String × String)} {shown : String} {name : Text} {node : Node FloatBits}
    (has : (modelOf nodes shown).graph.Has name node) : ∃ found ∈ nodes, text found.1 = name ∧ node = reluOf found := by
  obtain ⟨id, here⟩ := has
  change stored (nodes.foldl _ ({} : Graph FloatBits)).nodeMap name = _ at here
  induction nodes using List.reverseRecOn with
  | nil => cases here
  | append_singleton earlier last ih =>
    rw [List.foldl_append] at here
    change stored (Graph.addNode .kept _ _).nodeMap name = _ at here
    rw [stored_addNode] at here
    split at here
    next same =>
      cases here
      exact ⟨last, List.mem_append_right _ List.mem_cons_self, same.symm, rfl⟩
    next =>
      obtain ⟨found, member, same⟩ := ih here
      exact ⟨found, List.mem_append_left _ member, same⟩

/-- Two nodes read the request, and the tensor one of them writes is written again one level below. -/
def rewritten : List (String × String × String) := [("a", "x", "y"), ("b", "x", "z"), ("c", "y", "z")]

theorem rewritten_has {name : Text} {node : Node FloatBits} (has : (modelOf rewritten "z").graph.Has name node) :
    (name = text "a" ∧ node = reluOf ("a", "x", "y")) ∨ (name = text "b" ∧ node = reluOf ("b", "x", "z")) ∨
      (name = text "c" ∧ node = reluOf ("c", "y", "z")) := by
  obtain ⟨found, member, rfl, rfl⟩ := modelOf_has has
  simp only [rewritten, List.mem_cons, List.not_mem_nil, or_false] at member
  rcases member with rfl | rfl | rfl
  · exact .inl ⟨rfl, rfl⟩
  · exact .inr (.inl ⟨rfl, rfl⟩)
  · exact .inr (.inr ⟨rfl, rfl⟩)

theorem rewritten_known {name : Text} (known : GraphOptimizer.Known (modelOf rewritten "z") name) : name = text "w" := by
  induction known with
  | initializer present => exact (AList.mem_insert _).mp present |>.resolve_right (AList.notMem_empty _)
  | node has _ _ _ _ ih =>
    rcases rewritten_has has with ⟨_, rfl⟩ | ⟨_, rfl⟩ | ⟨_, rfl⟩
    · exact absurd (ih (text "x") List.mem_cons_self) (by decide)
    · exact absurd (ih (text "x") List.mem_cons_self) (by decide)
    · exact absurd (ih (text "y") List.mem_cons_self) (by decide)

/-- The optimizer finds nothing to do. -/
theorem rewritten_remaining : GraphOptimizer.Remaining (modelOf rewritten "z") = (modelOf rewritten "z").graph.Has := by
  have varied : GraphOptimizer.Varied (modelOf rewritten "z") = (modelOf rewritten "z").graph.Has := by
    funext name node
    refine propext (and_iff_left_of_imp fun has folded => ?_)
    rcases rewritten_has has with ⟨_, rfl⟩ | ⟨_, rfl⟩ | ⟨_, rfl⟩
    · exact absurd (rewritten_known (folded.2.2.2 (text "x") List.mem_cons_self)) (by decide)
    · exact absurd (rewritten_known (folded.2.2.2 (text "x") List.mem_cons_self)) (by decide)
    · exact absurd (rewritten_known (folded.2.2.2 (text "y") List.mem_cons_self)) (by decide)
  have combined : GraphOptimizer.Combined (modelOf rewritten "z") = (modelOf rewritten "z").graph.Has := by
    rw [GraphOptimizer.Combined, if_pos (.inl (by decide +kernel)), varied]
    refine GraphOptimizer.compact_idle ?_
    rintro producer target ⟨_, gemm, relu, output, joins⟩
    have kind := joins.isGemm
    rcases rewritten_has joins.source with ⟨_, rfl⟩ | ⟨_, rfl⟩ | ⟨_, rfl⟩ <;> cases kind
  have lively : ∀ name, ¬GraphOptimizer.Idle (modelOf rewritten "z").graph.Has [text "z"] name := by
    intro name idle
    induction idle with
    | intro has unshown unread ih =>
      rcases rewritten_has has with ⟨_, rfl⟩ | ⟨_, rfl⟩ | ⟨_, rfl⟩
      · exact ih (text "y") List.mem_cons_self (text "c") (reluOf ("c", "y", "z")) ⟨2, rfl⟩ List.mem_cons_self
      · exact unshown (text "z") List.mem_cons_self List.mem_cons_self
      · exact unshown (text "z") List.mem_cons_self List.mem_cons_self
  funext name node
  refine propext ?_
  rw [GraphOptimizer.Remaining, combined]
  exact and_iff_left (lively name)

theorem rewritten_apart : (modelOf rewritten "z").SlotsApart true := by
  rw [Model.SlotsApart, if_pos rfl, rewritten_remaining]
  refine ⟨fun name node has output member => ⟨fun known => ?_, ?_⟩, ?_⟩
  · rw [rewritten_known known] at member
    rcases rewritten_has has with ⟨_, rfl⟩ | ⟨_, rfl⟩ | ⟨_, rfl⟩ <;> exact absurd member (by decide)
  · rintro ⟨⟩
    rcases rewritten_has has with ⟨_, rfl⟩ | ⟨_, rfl⟩ | ⟨_, rfl⟩ <;> exact absurd member (by decide)
  · have deep : Chain (Feeding (modelOf rewritten "z").graph.Has) 1 (text "c") := by
      refine .step (.start (text "a")) ⟨by decide, reluOf ("a", "x", "y"), reluOf ("c", "y", "z"), ⟨0, rfl⟩, ⟨2, rfl⟩, ?_⟩
      exact ⟨text "y", List.mem_cons_self, List.mem_cons_self⟩
    have flat : ¬Chain (Feeding (modelOf rewritten "z").graph.Has) 1 (text "b") := by
      rintro (_ | ⟨_, _, source, target, from_, to_, output, written, reads⟩)
      have same := to_.unique (⟨1, rfl⟩ : (modelOf rewritten "z").graph.Has (text "b") (reluOf ("b", "x", "z")))
      subst same
      obtain rfl := List.mem_singleton.mp reads
      rcases rewritten_has from_ with ⟨_, rfl⟩ | ⟨_, rfl⟩ | ⟨_, rfl⟩ <;> exact absurd written (by decide)
    intro first last source target here there different output writes also
    rcases rewritten_has here with ⟨rfl, rfl⟩ | ⟨rfl, rfl⟩ | ⟨rfl, rfl⟩ <;>
      rcases rewritten_has there with ⟨rfl, rfl⟩ | ⟨rfl, rfl⟩ | ⟨rfl, rfl⟩ <;>
      obtain rfl := List.mem_singleton.mp writes
    · exact absurd rfl different
    · exact absurd also (by decide)
    · exact absurd also (by decide)
    · exact absurd also (by decide)
    · exact absurd rfl different
    · exact ⟨1, fun same => flat (same.mpr deep)⟩
    · exact absurd also (by decide)
    · exact ⟨1, fun same => flat (same.mp deep)⟩
    · exact absurd rfl different

set_option maxRecDepth 8000 in
theorem prepare_owned_iff_rewritten : ∃ ready session slots, ModelLoader.load .kept [] (some (fileOf rewritten "z")) =
    .ok (modelOf rewritten "z") ∧
    prepare ⟨true, true⟩ bitsPlatform .kept ⟨.auto⟩ (modelOf rewritten "z") = .ok (session, slots) ∧
    (session.levels.map fun level => level.map NodeRef.name) = [[text "b", text "a"], [text "c"]] ∧
      Readied ⟨true, true⟩ bitsPlatform ⟨.auto⟩ (modelOf rewritten "z") ready ∧ Owned ready session := by
  have loaded : ModelLoader.load .kept [] (some (fileOf rewritten "z")) = .ok (modelOf rewritten "z") := by rfl
  obtain ⟨session, slots, prepared, levels⟩ : ∃ session slots,
      prepare ⟨true, true⟩ bitsPlatform .kept ⟨.auto⟩ (modelOf rewritten "z") = .ok (session, slots) ∧
      (session.levels.map fun level => level.map NodeRef.name) = [[text "b", text "a"], [text "c"]] := ⟨_, _, rfl, rfl⟩
  obtain ⟨ready, readied, owned⟩ := prepare_owned_iff loaded prepared
  exact ⟨ready, session, slots, loaded, prepared, levels, readied, owned.mpr rewritten_apart⟩

set_option maxRecDepth 4000 in
/-- Two nodes of one level write the weight. -/
theorem prepare_of_shared : ∃ session slots,
    ModelLoader.load .kept [] (some (fileOf [("a", "x", "w"), ("b", "x", "w")] "w")) =
        .ok (modelOf [("a", "x", "w"), ("b", "x", "w")] "w") ∧
      prepare ⟨false, true⟩ bitsPlatform .kept ⟨.auto⟩ (modelOf [("a", "x", "w"), ("b", "x", "w")] "w") =
        .ok (session, slots) ∧
      ¬Owned (modelOf [("a", "x", "w"), ("b", "x", "w")] "w") session := by
  refine ⟨_, _, rfl, rfl, fun owned => ?_⟩
  have distinct := owned.distinct _ List.mem_cons_self
  exact absurd distinct (by decide +kernel)

end Files

end InferenceSession
end FromScratch.Inference
