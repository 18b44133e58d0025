import FromScratch.Proofs.DeadNodes

/-! The nodes the optimizer leaves, told from the model it is given: those that are not
folded, a `Gemm` and its `Relu` as one node, without the nodes that lead to no graph
output and into no cycle. The pairs do not get in each other's way, so it makes no
difference in which order they are fused. -/

namespace FromScratch.Inference.GraphOptimizer
open Graph
open Lib (FiniteMap)
open Relation (ReflTransGen)

variable {F : Type}

/-- The two are fused: they have the tensor between them for themselves, and the name of the
producer was given once. -/
def Joined (held : Text → Node F → Prop) (ends : List Text) (once : Text → Prop) (producer target : Text) : Prop :=
  once producer ∧ ∃ gemm relu output, Joins held ends producer target gemm relu output

/-- The nodes when every pair has become one. -/
def Compact (held : Text → Node F → Prop) (ends : List Text) (once : Text → Prop) (name : Text) (node : Node F) : Prop :=
  (∀ producer, ¬Joined held ends once producer name) ∧ ∃ old, held name old ∧
    ((node = old ∧ ∀ target, ¬Joined held ends once name target) ∨
      ∃ target relu, Joined held ends once name target ∧ held target relu ∧ node = merged old relu.outputs)

/-- What the node writes is no graph output, and only such nodes read it. -/
inductive Idle (held : Text → Node F → Prop) (ends : List Text) : Text → Prop
  | intro {name : Text} {node : Node F} (has : held name node) (unshown : ∀ output ∈ node.outputs, output ∉ ends)
      (unread : ∀ output ∈ node.outputs, ∀ reader other, held reader other → output ∈ other.inputs → Idle held ends reader) :
      Idle held ends name

section Pairs
variable {held : Text → Node F → Prop} {ends : List Text} {once : Text → Prop} {producer target output : Text}
  {gemm relu : Node F}

theorem Joins.unique_target (joins : Joins held ends producer target gemm relu output) {other : Text} {left right : Node F}
    {shared : Text} (single : ∀ name first second, held name first → held name second → first = second)
    (again : Joins held ends producer other left right shared) : other = target := by
  have same := single _ _ _ again.source joins.source
  subst same
  have written := again.written
  rw [joins.written] at written
  obtain ⟨rfl, _⟩ := List.cons.inj written
  refine (joins.readers other right again.sink (by rw [again.read]; exact List.mem_cons_self)).resolve_left ?_
  rintro rfl
  cases again.isRelu.symm.trans (single _ _ _ again.sink again.source ▸ again.isGemm)

theorem Joins.unique_producer (joins : Joins held ends producer target gemm relu output) {other : Text}
    {left right : Node F} {shared : Text} (single : ∀ name first second, held name first → held name second → first = second)
    (again : Joins held ends other target left right shared) : other = producer := by
  have same := single _ _ _ again.sink joins.sink
  subst same
  have read := again.read
  rw [joins.read] at read
  obtain ⟨rfl, _⟩ := List.cons.inj read
  refine (joins.writers other left again.source (by rw [again.written]; exact List.mem_cons_self)).resolve_left ?_
  rintro rfl
  cases again.isGemm.symm.trans (single _ _ _ again.source again.sink ▸ again.isRelu)

theorem Joins.of_fused (joins : Joins held ends producer target gemm relu output) {other reader : Text}
    {left right : Node F} {shared : Text}
    (single : ∀ name first second, held name first → held name second → first = second)
    (again : Joins (Fused held producer target relu.outputs) ends other reader left right shared) :
    other ≠ producer ∧ Joins held ends other reader left right shared := by
  have mergedSource : Fused held producer target relu.outputs producer (merged gemm relu.outputs) :=
    ⟨joins.apart single, gemm, joins.source, (if_pos rfl).symm⟩
  obtain ⟨otherKept, old, source, isLeft⟩ := again.source
  obtain ⟨readerKept, old', sink, isRight⟩ := again.sink
  have otherApart : other ≠ producer := by
    rintro rfl
    rw [if_pos rfl] at isLeft
    cases (isLeft ▸ again.isGemm : (merged old relu.outputs).opType = .gemm)
  have readerApart : reader ≠ producer := by
    rintro rfl
    rw [if_pos rfl] at isRight
    cases (isRight ▸ again.isRelu : (merged old' relu.outputs).opType = .relu)
  rw [if_neg otherApart] at isLeft
  rw [if_neg readerApart] at isRight
  subst isLeft isRight
  have distinct : shared ≠ output := by
    rintro rfl
    rcases joins.readers reader right sink (by rw [again.read]; exact List.mem_cons_self) with same | same
    · exact readerApart same
    · exact readerKept same
  refine ⟨otherApart, source, again.isGemm, again.written, again.hidden, sink, again.isRelu, again.read,
    fun name node has writes => ?_, fun name node has reads => ?_⟩
  · by_cases gone : name = target
    · -- what the `Relu` wrote the fused node writes
      subst gone
      rw [single _ _ _ has joins.sink] at writes
      rcases again.writers _ _ mergedSource writes with same | same
      · exact absurd same.symm readerApart
      · exact absurd same.symm otherApart
    by_cases first : name = producer
    · subst first
      rw [single _ _ _ has joins.source, joins.written, List.mem_singleton] at writes
      exact absurd writes distinct
    · exact again.writers name node ⟨gone, node, has, (if_neg first).symm⟩ writes
  · by_cases gone : name = target
    · subst gone
      rw [single _ _ _ has joins.sink, joins.read, List.mem_singleton] at reads
      exact absurd reads distinct
    by_cases first : name = producer
    · subst first
      rw [single _ _ _ has joins.source] at reads
      exact again.readers _ _ mergedSource reads
    · exact again.readers name node ⟨gone, node, has, (if_neg first).symm⟩ reads

theorem Joins.fused (joins : Joins held ends producer target gemm relu output) {other reader : Text}
    {left right : Node F} {shared : Text}
    (single : ∀ name first second, held name first → held name second → first = second) (otherApart : other ≠ producer)
    (again : Joins held ends other reader left right shared) :
    Joins (Fused held producer target relu.outputs) ends other reader left right shared := by
  have readerKept : reader ≠ target := by
    rintro rfl
    exact otherApart (joins.unique_producer single again)
  have otherKept : other ≠ target := by
    rintro rfl
    cases again.isGemm.symm.trans (single _ _ _ again.source joins.sink ▸ joins.isRelu)
  have readerApart : reader ≠ producer := by
    rintro rfl
    cases again.isRelu.symm.trans (single _ _ _ again.sink joins.source ▸ joins.isGemm)
  refine ⟨⟨otherKept, left, again.source, (if_neg otherApart).symm⟩, again.isGemm, again.written, again.hidden,
    ⟨readerKept, right, again.sink, (if_neg readerApart).symm⟩, again.isRelu, again.read, ?_, ?_⟩
  · rintro name node ⟨kept, old, has, rfl⟩ writes
    by_cases first : name = producer
    · rw [if_pos first] at writes
      rcases again.writers target relu joins.sink writes with same | same
      · exact absurd same.symm readerKept
      · exact absurd same.symm otherKept
    · rw [if_neg first] at writes
      exact again.writers name old has writes
  · rintro name node ⟨kept, old, has, rfl⟩ reads
    refine again.readers name old has ?_
    split at reads <;> exact reads

/-- Fusing one pair leaves the others as they are. -/
theorem joined_fused (single : ∀ name first second, held name first → held name second → first = second)
    (joins : Joins held ends producer target gemm relu output) {other reader : Text} :
    Joined (Fused held producer target relu.outputs) ends once other reader ↔
      other ≠ producer ∧ Joined held ends once other reader := by
  constructor
  · rintro ⟨named, left, right, shared, again⟩
    obtain ⟨apart, before⟩ := joins.of_fused single again
    exact ⟨apart, named, left, right, shared, before⟩
  · rintro ⟨apart, named, left, right, shared, again⟩
    exact ⟨named, left, right, shared, joins.fused single apart again⟩

theorem compact_fused (single : ∀ name first second, held name first → held name second → first = second)
    (joins : Joins held ends producer target gemm relu output) (named : once producer) :
    Compact (Fused held producer target relu.outputs) ends once = Compact held ends once := by
  have joined : Joined held ends once producer target := ⟨named, gemm, relu, output, joins⟩
  have apart := joins.apart single
  funext name node
  refine propext ?_
  by_cases gone : name = target
  · subst gone
    refine iff_of_false ?_ ?_
    · rintro ⟨_, old, ⟨kept, _⟩, _⟩
      exact kept rfl
    · rintro ⟨unread, _⟩
      exact unread producer joined
  by_cases first : name = producer
  · subst first
    have unread : ∀ other, ¬Joined held ends once other name := by
      rintro other ⟨_, left, right, shared, again⟩
      cases again.isRelu.symm.trans (single _ _ _ again.sink joins.source ▸ joins.isGemm)
    constructor
    · rintro ⟨_, old, ⟨kept, gemm', has, rfl⟩, ⟨rfl, _⟩ | ⟨reader, right, again, _⟩⟩
      · refine ⟨unread, gemm', has, .inr ⟨target, relu, joined, joins.sink, ?_⟩⟩
        rw [if_pos rfl]
      · exact absurd rfl ((joined_fused single joins).mp again).1
    · rintro ⟨_, old, has, ⟨rfl, alone⟩ | ⟨reader, right, ⟨_, left, right', shared, again⟩, sink, rfl⟩⟩
      · exact absurd joined (alone target)
      · obtain rfl := joins.unique_target single again
        rw [single _ _ _ sink joins.sink]
        refine ⟨fun other again => unread other ((joined_fused single joins).mp again).2, _,
          ⟨gone, old, has, (if_pos rfl).symm⟩, .inl ⟨rfl, fun reader again => ?_⟩⟩
        exact ((joined_fused single joins).mp again).1 rfl
  · have above : ∀ other, Joined (Fused held producer target relu.outputs) ends once other name ↔
        Joined held ends once other name := by
      refine fun other => (joined_fused single joins).trans (and_iff_right_of_imp ?_)
      rintro ⟨_, left, right, shared, again⟩ rfl
      exact gone (joins.unique_target single again)
    have below : ∀ reader, Joined (Fused held producer target relu.outputs) ends once name reader ↔
        Joined held ends once name reader :=
      fun reader => (joined_fused single joins).trans (and_iff_right first)
    have here : ∀ old, Fused held producer target relu.outputs name old ↔ held name old := by
      intro old
      simp only [Fused, if_neg first, exists_eq_right', and_iff_right gone]
    simp only [Compact, above, below, here]
    refine and_congr_right fun _ => exists_congr fun old => and_congr_right fun _ => or_congr_right ?_
    refine exists_congr fun reader => exists_congr fun right => and_congr_right fun again => and_congr_left fun _ => ?_
    obtain ⟨_, left, right', shared, again⟩ := again
    have kept : reader ≠ target := by
      rintro rfl
      exact first (joins.unique_producer single again)
    have other : reader ≠ producer := by
      rintro rfl
      cases again.isRelu.symm.trans (single _ _ _ again.sink joins.source ▸ joins.isGemm)
    simp only [Fused, if_neg other, exists_eq_right', and_iff_right kept]

theorem compact_congr {once' : Text → Prop} (same : ∀ name node, held name node → (once name ↔ once' name)) :
    Compact held ends once = Compact held ends once' := by
  have joined : ∀ producer target, Joined held ends once producer target ↔ Joined held ends once' producer target := by
    intro producer target
    refine and_congr_left ?_
    rintro ⟨gemm, relu, output, joins⟩
    exact same _ _ joins.source
  funext name node
  simp only [Compact, joined]

/-- Where there is no pair, nothing changes. -/
theorem compact_idle (nothing : ∀ producer target, ¬Joined held ends once producer target) :
    Compact held ends once = held := by
  funext name node
  refine propext ⟨?_, fun has => ⟨fun producer => nothing producer name, node, has,
    .inl ⟨rfl, fun target => nothing name target⟩⟩⟩
  rintro ⟨_, old, has, ⟨rfl, _⟩ | ⟨target, relu, joined, _⟩⟩
  · exact has
  · exact absurd joined (nothing name target)

end Pairs
/-- The name was given to one node only. -/
def Once (graph : Graph F) (name : Text) : Prop := graph.insertionOrder.count name = 1

/-- The tables when the edges have just been rebuilt. -/
structure Rebuilt (graph : Graph F) : Prop where
  kept : graph.Kept
  wired : graph.Wired
  tallied : graph.Tallied

section Rounds
variable {model next result : Model F} {graph : Graph F} {walk : FiniteMap.Traversal Text (NodeEntry F)}
    {name removed : Text}

theorem Rebuilt.removeNode (kept : graph.Kept) (present : removed ∈ graph.nodeMap) :
    Rebuilt (graph.removeNode walk removed) :=
  ⟨kept.removeNode removed, Wired.removeNode kept fun absent => absurd present absent, Tallied.removeNode kept present⟩

theorem Rebuilt.fuse (kept : graph.Kept) {target : NodeEntry F} (producer : Node F)
    (found : graph.nodeMap.lookup target.node.name = some target) :
    Rebuilt (GraphOptimizer.fuse walk graph target.node producer) := by
  have edited := (kept.edit producer.name (.opType .gemmRelu)).edit producer.name (.outputs target.node.outputs)
  rw [edit_edit] at edited
  exact .removeNode edited ((FiniteMap.mem_adjust _ _ _ _).mpr (has_lookup found).mem)

theorem once_removeNode (apart : name ≠ removed) : Once (graph.removeNode walk removed) name ↔ Once graph name := by
  by_cases present : removed ∈ graph.nodeMap
  · rw [Once, Once, insertionOrder_removeNode removed present, List.count_filter (by simpa using apart)]
  · rw [Graph.removeNode, if_neg present]

/-- What a round of the fusion makes of the table of nodes. -/
theorem fuse_compact (kept : graph.Kept) {target producer : NodeEntry F}
    (found : graph.nodeMap.lookup target.node.name = some target) :
    Rebuilt (fuse walk graph target.node producer.node) ∧
      (fuse walk graph target.node producer.node).outputs = graph.outputs ∧
      ∀ ends, Compact (fuse walk graph target.node producer.node).Has ends
          (Once (fuse walk graph target.node producer.node)) =
        Compact (Fused graph.Has producer.node.name target.node.name target.node.outputs) ends (Once graph) := by
  refine ⟨Rebuilt.fuse kept producer.node found, outputs_removeNode, fun ends => ?_⟩
  have nodes : (fuse walk graph target.node producer.node).Has =
      Fused graph.Has producer.node.name target.node.name target.node.outputs := by
    funext name node
    exact propext has_fuse
  rw [nodes]
  refine compact_congr fun name node has => ?_
  rw [fuse, once_removeNode has.1]
  rfl

theorem Fuses.compact (rebuilt : Rebuilt model.graph) (step : Fuses model next) :
    Rebuilt next.graph ∧ next.graph.outputs = model.graph.outputs ∧
      Compact next.graph.Has next.graph.outputs (Once next.graph) =
        Compact model.graph.Has model.graph.outputs (Once model.graph) := by
  obtain ⟨walk, found, fusion⟩ := step
  obtain ⟨output, joins⟩ := fusion.joins rebuilt.kept rebuilt.wired found
  obtain ⟨after, same, compact⟩ := @fuse_compact F _ walk rebuilt.kept _ _ found
  refine ⟨after, same, ?_⟩
  rw [compact, same]
  exact compact_fused (fun _ _ _ => Has.unique) joins (fusion.once rebuilt.kept rebuilt.tallied found)

theorem Fuses.compact_run (rebuilt : Rebuilt model.graph) (steps : ReflTransGen Fuses model result) :
    Rebuilt result.graph ∧ result.graph.outputs = model.graph.outputs ∧
      Compact result.graph.Has result.graph.outputs (Once result.graph) =
        Compact model.graph.Has model.graph.outputs (Once model.graph) := by
  induction steps with
  | refl => exact ⟨rebuilt, rfl, rfl⟩
  | tail _ step ih =>
    obtain ⟨rebuilt, outputs, compact⟩ := ih
    obtain ⟨after, kept, same⟩ := step.compact rebuilt
    exact ⟨after, kept.trans outputs, same.trans compact⟩

theorem fuses_frame (steps : ReflTransGen Fuses model result) :
    result.graph.outputs = model.graph.outputs ∧ result.initializers = model.initializers := by
  induction steps with
  | refl => exact ⟨rfl, rfl⟩
  | tail _ step ih =>
    obtain ⟨walk, found, fusion⟩ := step
    exact ⟨outputs_removeNode.trans ih.1, ih.2⟩

/-- A whole fusion leaves one node for every pair, whichever it takes first. -/
theorem fuses_compact (rebuilt : Rebuilt model.graph) (steps : ReflTransGen Fuses model result)
    (nothing : ∀ name entry, result.graph.nodeMap.lookup name = some entry → fusible result.graph entry = .ok none) :
    result.graph.Has = Compact model.graph.Has model.graph.outputs (Once model.graph) := by
  obtain ⟨⟨kept, wired, tallied⟩, _, compact⟩ := Fuses.compact_run rebuilt steps
  rw [← compact]
  refine (compact_idle ?_).symm
  rintro producer target ⟨once, gemm, relu, output, joins⟩
  obtain ⟨first, second, found, fusible⟩ := joins.fusible kept wired tallied once
  cases (nothing target first found).symm.trans fusible

end Rounds

section Dead
variable {model result : Model F} {removed : List Text} {name : Text}

/-- What the elimination takes away leads nowhere. -/
theorem Elimination.idle (rounds : Elimination model removed result) :
    ∀ name ∈ removed, Idle model.graph.Has model.graph.outputs name := by
  induction rounds with
  | done => exact nofun
  | @round model result removed walk unused found isDead rest ih =>
    have first : Idle model.graph.Has model.graph.outputs unused.node.name :=
      .intro (has_lookup found) (fun output member => (isDead output member).1)
        fun output member reader other held reads => absurd reads ((isDead output member).2 reader other held)
    refine List.forall_mem_cons.mpr ⟨first, fun name member => ?_⟩
    have later := ih name member
    rw [outputs_removeNode] at later
    clear member
    induction later with
    | intro has unshown unread again =>
      refine .intro (has_removeNode.mp has).2 unshown fun output member reader other held reads => ?_
      by_cases same : reader = unused.node.name
      · exact same ▸ first
      · exact again output member reader other (has_removeNode.mpr ⟨same, held⟩) reads

/-- Nothing that leads nowhere is left at the end. -/
theorem Elimination.not_idle (rounds : Elimination model removed result) (busy : Busy result.graph)
    (idle : Idle model.graph.Has model.graph.outputs name) (node : Node F) : ¬result.graph.Has name node := by
  induction idle generalizing node with
  | intro has unshown unread ih =>
    intro still
    have used := busy _ _ still
    rw [(rounds.has.mp still).2.unique has] at used
    simp only [Dead, not_forall, not_and_or, not_not] at used
    obtain ⟨output, written, shown | ⟨reader, other, held, reads⟩⟩ := used
    · rw [rounds.frame.2.2.1] at shown
      exact unshown output written shown
    · exact ih output written reader other (rounds.has.mp held).2 reads other held

theorem Elimination.has_iff_idle (rounds : Elimination model removed result) (busy : Busy result.graph) :
    result.graph.Has = fun name node => model.graph.Has name node ∧ ¬Idle model.graph.Has model.graph.outputs name := by
  funext name node
  refine propext ⟨fun has => ⟨(rounds.has.mp has).2, fun idle => rounds.not_idle busy idle node has⟩, ?_⟩
  rintro ⟨has, lives⟩
  exact rounds.has.mpr ⟨fun member => lives (rounds.idle name member), has⟩

end Dead

/-- The nodes that are not folded. -/
def Varied (model : Model F) (name : Text) (node : Node F) : Prop := model.graph.Has name node ∧ ¬Folded model node

/-- Every name was given once, or a node is folded and the edges are found anew. -/
def Regular (model : Model F) : Prop :=
  model.graph.insertionOrder.Nodup ∨ ∃ name node, model.graph.Has name node ∧ Folded model node

/-- What the fusion finds first on the edges as they are. -/
def firstFusion (graph : Graph F) : Except Fault (Option (NodeEntry F × NodeEntry F)) := do
  let nodes ← graph.nodesInInsertionOrder
  nodes.findSomeM? (fusible graph)

open Classical in
/-- The nodes that the fusion leaves. Where a name was given twice and nothing is folded
it meets the edges as the calls have left them; what it finds there first is fused,
whether it is a pair or not, and that rebuilds the edges. -/
def Combined (model : Model F) : Text → Node F → Prop :=
  if Regular model then Compact (Varied model) model.graph.outputs (Once model.graph)
  else
    match firstFusion model.graph with
    | .ok (some (target, producer)) =>
      Compact (Fused model.graph.Has producer.node.name target.node.name target.node.outputs) model.graph.outputs
        (Once model.graph)
    | _ => model.graph.Has

/-- The nodes that the optimizer leaves. -/
def Remaining (model : Model F) (name : Text) (node : Node F) : Prop :=
  Combined model name node ∧ ¬Idle (Combined model) model.graph.outputs name

section Runs
variable [Scalar F] {provider : Provider} {platform : Platform F} {model result : Model F} {removed : List (Node F)}
  {fuel count : Nat} {report : OptimizationReport}

theorem Folds.rebuilt (kept : model.graph.Kept) (folds : Folds provider model removed result) (changed : removed ≠ []) :
    Rebuilt result.graph := by
  induction folds with
  | done => exact absurd rfl changed
  | @round model result removed walk threads candidate output found isConstant computed rest ih =>
    have after : Rebuilt (model.graph.removeNode walk candidate.node.name) := .removeNode kept (has_lookup found).mem
    cases rest with
    | done => exact after
    | round => exact ih after.kept (List.cons_ne_nil _ _)

theorem Folds.once (folds : Folds provider model removed result) {name : Text} {node : Node F}
    (has : result.graph.Has name node) (kept : model.graph.Kept) : Once result.graph name ↔ Once model.graph name := by
  induction folds with
  | done => rfl
  | @round model result removed walk threads candidate output found isConstant computed rest ih =>
    have still := ((rest.has (kept.removeNode _)).mp has).1
    exact (ih has (kept.removeNode _)).trans (once_removeNode (has_removeNode.mp still).1)

/-- A fusion on edges that may be out of date. -/
theorem fuseActivations_first (kept : model.graph.Kept)
    (ran : fuseActivations platform (fuel + 1) model = .ok (result, count)) :
    firstFusion model.graph = .ok none ∧ result = model ∨
      ∃ target producer, firstFusion model.graph = .ok (some (target, producer)) ∧
        result.graph.Has = Compact (Fused model.graph.Has producer.node.name target.node.name target.node.outputs)
          model.graph.outputs (Once model.graph) := by
  obtain ⟨nodes, listed, ran⟩ := Lib.bind_ok ran
  obtain ⟨choice, searched, ran⟩ := Lib.bind_ok ran
  have first : firstFusion model.graph = .ok choice := by
    rw [firstFusion, listed]
    exact searched
  cases choice with
  | none =>
    cases ran
    exact .inl ⟨first, rfl⟩
  | some pair =>
    obtain ⟨target, producer⟩ := pair
    obtain ⟨⟨next, fused⟩, rest, last⟩ := Lib.bind_ok ran
    cases last
    obtain ⟨item, member, made⟩ := findSomeM?_some searched
    obtain ⟨rfl, fusion⟩ := fusible_some made
    obtain ⟨rebuilt, outputs, compact⟩ :=
      @fuse_compact F _ (platform.fusing fuel) kept _ producer (listed_lookup kept listed member)
    obtain ⟨steps, nothing⟩ := fuseActivations_fuses rebuilt.kept rest
    refine .inr ⟨target, producer, first, ?_⟩
    rw [← compact, ← outputs]
    exact fuses_compact rebuilt steps nothing

theorem inputs_rewrites (rewrites : ReflTransGen (Rewrite provider) model result) :
    result.graph.inputs = model.graph.inputs := by
  induction rewrites with
  | refl => rfl
  | tail _ step ih =>
    refine Eq.trans ?_ ih
    cases step <;> exact inputs_removeNode

/-- What the optimizer leaves of a model that was built call by call. -/
theorem run_remaining (assembled : model.Assembled) (ran : run everything platform provider model = .ok (result, report)) :
    result.graph.Has = Remaining model ∧ (∀ name, name ∈ result.initializers ↔ Known model name) ∧
      result.graph.inputs = model.graph.inputs := by
  have kept := assembled.kept
  have inputs := inputs_rewrites (run_rewrites kept ran)
  obtain ⟨⟨folded, _⟩, fold, ran⟩ := Lib.bind_ok ran
  obtain ⟨⟨fused, _⟩, fuse, ran⟩ := Lib.bind_ok ran
  obtain ⟨⟨eliminated, _⟩, eliminate, last⟩ := Lib.bind_ok ran
  cases last
  obtain ⟨removed, folds, _, varying⟩ := foldConstants_folds kept fold
  have keptFolded := kept_rewrites kept folds.rewrites
  obtain ⟨fuses, nothing⟩ := fuseActivations_fuses keptFolded fuse
  have keptFused := kept_rewrites keptFolded (@fuseActivations_rewrites F _ provider _ _ _ _ _ keptFolded fuse)
  obtain ⟨gone, rounds, _, busy⟩ := eliminateDeadNodes_removes keptFused eliminate
  have varied : folded.graph.Has = Varied model := folds.has_iff kept varying
  have combined : fused.graph.Has = Combined model := by
    by_cases regular : Regular model
    · rw [Combined, if_pos regular]
      have rebuilt : Rebuilt folded.graph := by
        by_cases changed : removed = []
        · subst changed
          cases folds
          rcases regular with distinct | ⟨name, node, has, isFolded⟩
          · exact ⟨kept, assembled.wired distinct, (assembled.counted distinct).tallied kept distinct⟩
          · rw [varied] at has
            exact absurd isFolded has.2
        · exact folds.rebuilt kept changed
      rw [fuses_compact rebuilt fuses nothing, varied, folds.outputs]
      exact compact_congr fun name node has => folds.once (varied.symm ▸ has) kept
    · rw [Combined, if_neg regular]
      have unchanged : removed = [] := by
        refine List.eq_nil_iff_forall_not_mem.mpr fun node member => regular (.inr ?_)
        obtain ⟨name, has⟩ := folds.owned node member
        exact ⟨name, node, has, folds.folded (fun _ _ => id) (fun _ => .initializer) node member⟩
      subst unchanged
      cases folds
      rcases fuseActivations_first kept fuse with ⟨first, rfl⟩ | ⟨target, producer, first, nodes⟩
      · rw [first]
      · rw [first]
        exact nodes
  obtain ⟨shown, initializers⟩ := fuses_frame fuses
  have outputs := shown.trans folds.outputs
  refine ⟨?_, fun name => ?_, inputs⟩
  · rw [rounds.has_iff_idle busy, combined, outputs]
    rfl
  · rw [rounds.frame.2.2.2, initializers]
    exact ⟨folds.known (fun _ _ => id) (fun _ => .initializer) name, folds.complete kept varying⟩

end Runs

end FromScratch.Inference.GraphOptimizer
