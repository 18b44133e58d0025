import FromScratch.Inference.Optimizer
import FromScratch.Lib.Loop
import FromScratch.Proofs.GraphEdges
import Mathlib.Logic.Relation

/-! The passes as sequences of rewrites, each of one node, and what every rewrite
leaves as it was: the tables, the edges, and the one place where each tensor is
defined. -/

namespace FromScratch.Inference
open Lib (FiniteMap)

variable {F : Type}

namespace Graph
variable {graph : Graph F} {walk : FiniteMap.Traversal Text (NodeEntry F)} {name removed : Text} {node : Node F}

/-- The node stored under a name. -/
def Has (graph : Graph F) (name : Text) (node : Node F) : Prop := ∃ id, stored graph.nodeMap name = some (id, node)

/-- No node feeds itself, not even through others. -/
def Acyclic (graph : Graph F) : Prop :=
  ∀ name, ¬Relation.TransGen (fun first last => Feeds (stored graph.nodeMap) (first, last)) name name

theorem has_iff : graph.Has name node ↔ ∃ entry, graph.nodeMap.lookup name = some entry ∧ entry.node = node := by
  simp only [Has, stored_eq_some]
  constructor
  · rintro ⟨id, entry, found, _, same⟩
    exact ⟨entry, found, same⟩
  · rintro ⟨entry, found, same⟩
    exact ⟨entry.id, entry, found, rfl, same⟩

theorem feeds_has {graph : Graph F} {name other : Text} {writer reader : Node F} (has : graph.Has name writer)
    (found : graph.Has other reader) : Feeds (stored graph.nodeMap) (name, other) ↔
    ∃ output ∈ writer.outputs, output ∈ reader.inputs := by
  obtain ⟨id, here⟩ := has
  obtain ⟨id', there⟩ := found
  constructor
  · rintro ⟨source, target, from_, to_, shared⟩
    cases here.symm.trans from_
    cases there.symm.trans to_
    exact shared
  · exact fun shared => ⟨_, _, here, there, shared⟩

theorem has_lookup {entry : NodeEntry F} (found : graph.nodeMap.lookup name = some entry) : graph.Has name entry.node :=
  has_iff.mpr ⟨entry, found, rfl⟩

theorem Has.unique {other : Node F} (first : graph.Has name node) (second : graph.Has name other) : node = other := by
  obtain ⟨id, here⟩ := first
  obtain ⟨id', there⟩ := second
  cases here.symm.trans there
  rfl

theorem Has.mem (has : graph.Has name node) : name ∈ graph.nodeMap := by
  obtain ⟨id, here⟩ := has
  rw [mem_iff_stored, here]
  rfl

theorem Kept.has_name (kept : Kept graph) (has : graph.Has name node) : node.name = name := by
  obtain ⟨id, here⟩ := has
  exact kept.named name id node here

theorem has_removeNode : (graph.removeNode walk removed).Has name node ↔ name ≠ removed ∧ graph.Has name node := by
  simp only [Has, stored_removeNode]
  by_cases same : name = removed <;> simp [same]

theorem has_edit (edited : Text) (change : Node F → Node F) :
    (graph.edit edited change).Has name node ↔
      ∃ old, graph.Has name old ∧ node = if name = edited then change old else old := by
  simp only [Has, stored_edit]
  by_cases same : name = edited
  · simp only [same, if_true, Option.map_eq_some_iff, Prod.exists, Prod.mk.injEq]
    constructor
    · rintro ⟨id, _, old, found, rfl, rfl⟩
      exact ⟨old, ⟨_, found⟩, rfl⟩
    · rintro ⟨old, ⟨id, found⟩, rfl⟩
      exact ⟨id, id, old, found, rfl, rfl⟩
  · simp only [same, if_false]
    constructor
    · rintro ⟨id, found⟩
      exact ⟨node, ⟨id, found⟩, rfl⟩
    · rintro ⟨old, ⟨id, found⟩, rfl⟩
      exact ⟨id, found⟩

theorem edit_edit (edited : Text) (first second : Node F → Node F) :
    (graph.edit edited first).edit edited second = graph.edit edited fun node => second (first node) := by
  have twice : ∀ map : NodeMap F, (map.adjust edited fun entry => { entry with node := first entry.node }).adjust edited
      (fun entry => { entry with node := second entry.node }) =
        map.adjust edited fun entry => { entry with node := second (first entry.node) } := by
    intro map
    apply AList.ext
    simp only [FiniteMap.adjust, FiniteMap.mapValues, List.map_map]
    refine List.map_congr_left fun entry _ => ?_
    simp only [Function.comp_apply]
    split <;> rfl
  simp only [edit, twice]

@[simp] theorem inputs_removeNode : (graph.removeNode walk removed).inputs = graph.inputs := by
  rw [Graph.removeNode]
  split <;> rfl

@[simp] theorem outputs_removeNode : (graph.removeNode walk removed).outputs = graph.outputs := by
  rw [Graph.removeNode]
  split <;> rfl

theorem size_of_mem {map other : NodeMap F} (same : ∀ name, name ∈ map ↔ name ∈ other) :
    map.keys.length = other.keys.length := by
  refine ((List.perm_ext_iff_of_nodup map.keys_nodup other.keys_nodup).mpr fun name => ?_).length_eq
  rw [← AList.mem_keys, ← AList.mem_keys, same]

theorem size_of_stored {map other : NodeMap F} (same : stored map = stored other) : map.keys.length = other.keys.length :=
  size_of_mem fun name => by rw [mem_iff_stored, mem_iff_stored, same]

theorem size_removeNode (walk : FiniteMap.Traversal Text (NodeEntry F)) (present : removed ∈ graph.nodeMap) :
    (graph.removeNode walk removed).nodeMap.keys.length < graph.nodeMap.keys.length := by
  have key := AList.mem_keys.mp present
  rw [Graph.removeNode, if_pos present, size_of_stored stored_rebuildEdges, AList.keys_erase]
  refine lt_of_eq_of_lt (@List.length_erase_of_mem _ instBEqOfDecidableEq _ _ _ key) ?_
  exact Nat.sub_one_lt (List.length_pos_of_mem key).ne'

theorem nodup_removeNode (distinct : graph.insertionOrder.Nodup) : (graph.removeNode walk removed).insertionOrder.Nodup := by
  by_cases present : removed ∈ graph.nodeMap
  · rw [insertionOrder_removeNode removed present]
    exact distinct.filter _
  · rwa [Graph.removeNode, if_neg present]

end Graph

namespace GraphOptimizer
open Graph

/-- A `Relu` with one input, whose only parent is a `Gemm` that nobody else reads. -/
structure Fusion (graph : Graph F) (target producer : NodeEntry F) : Prop where
  relu : target.node.opType = .relu
  single : target.node.inputs.length = 1
  parent : ∃ entry ref, graph.nodeMap.lookup target.node.name = some entry ∧ entry.parents = [ref] ∧
    graph.deref ref = .ok producer
  gemm : producer.node.opType = .gemm
  output : ∃ output, producer.node.outputs = [output] ∧ output ∉ graph.outputs
  child : ∃ entry, graph.nodeMap.lookup producer.node.name = some entry ∧ entry.children.length = 1

theorem constant_iff {model : Model F} (node : Node F) : constant model node = true ↔
    (∃ output, node.outputs = [output]) ∧ Provider.supports node.opType = true ∧ node.inputs ≠ [] ∧
      ∀ input ∈ node.inputs, input ∈ model.initializers := by
  simp only [constant, Model.hasInitializer, Bool.and_eq_true, decide_eq_true_eq, List.all_eq_true, List.length_eq_one_iff,
    Bool.not_eq_true', List.isEmpty_eq_false_iff, and_assoc]

theorem entryAt_ok {graph : Graph F} {name : Text} {entry : NodeEntry F} (found : graph.entryAt name = .ok entry) :
    graph.nodeMap.lookup name = some entry := by
  rw [entryAt] at found
  split at found
  next held here =>
    cases found
    exact here
  next => cases found

theorem fusible_some {graph : Graph F} {target found producer : NodeEntry F}
    (made : fusible graph target = .ok (some (found, producer))) : found = target ∧ Fusion graph target producer := by
  rw [fusible] at made
  split at made
  · cases made
  next relu =>
    obtain ⟨isRelu, single⟩ := not_or.mp relu
    obtain ⟨entry, here, made⟩ := Lib.bind_ok made
    split at made
    next ref parents =>
      obtain ⟨parent, points, made⟩ := Lib.bind_ok made
      split at made
      next output gemm outputs =>
        obtain ⟨held, there, made⟩ := Lib.bind_ok made
        split at made
        · cases made
        next apart =>
          obtain ⟨child, hidden⟩ := not_or.mp apart
          cases made
          exact ⟨rfl, not_not.mp isRelu, not_not.mp single, ⟨entry, ref, entryAt_ok here, parents, points⟩, gemm,
            ⟨output, outputs, hidden⟩, ⟨held, entryAt_ok there, not_not.mp child⟩⟩
      next => cases made
    next => cases made

/-- Nothing in the table reads an output of the node, and none is an output of the graph. -/
def Dead (graph : Graph F) (node : Node F) : Prop :=
  ∀ output ∈ node.outputs, output ∉ graph.outputs ∧ ∀ name other, graph.Has name other → output ∉ other.inputs

/-- One round of the fusion. -/
inductive Fuses : Model F → Model F → Prop
  | step {model : Model F} (walk : FiniteMap.Traversal Text (NodeEntry F)) {target producer : NodeEntry F}
      (found : model.graph.nodeMap.lookup target.node.name = some target) (fusion : Fusion model.graph target producer) :
      Fuses model { model with graph := GraphOptimizer.fuse walk model.graph target.node producer.node }

/-- One round of the elimination. -/
inductive Eliminates : Model F → Model F → Prop
  | step {model : Model F} (walk : FiniteMap.Traversal Text (NodeEntry F)) {unused : NodeEntry F}
      (found : model.graph.nodeMap.lookup unused.node.name = some unused) (isDead : Dead model.graph unused.node) :
      Eliminates model { model with graph := model.graph.removeNode walk unused.node.name }

/-- One round of a pass. -/
inductive Rewrite [Scalar F] (provider : Provider) : Model F → Model F → Prop
  | fuse {model : Model F} (walk : FiniteMap.Traversal Text (NodeEntry F)) {target producer : NodeEntry F}
      (found : model.graph.nodeMap.lookup target.node.name = some target) (fusion : Fusion model.graph target producer) :
      Rewrite provider model { model with graph := GraphOptimizer.fuse walk model.graph target.node producer.node }
  | fold {model : Model F} (walk : FiniteMap.Traversal Text (NodeEntry F)) (threads : Gemm.Threads F)
      {candidate : NodeEntry F} {output : Tensor F}
      (found : model.graph.nodeMap.lookup candidate.node.name = some candidate)
      (isConstant : constant model candidate.node = true)
      (computed : provider.compute threads candidate.node
        (candidate.node.inputs.filterMap fun input => model.initializers.lookup input) Tensor.empty = .ok output) :
      Rewrite provider model { model.addInitializer (candidate.node.outputs.headD []) output with
        graph := model.graph.removeNode walk candidate.node.name }
  | eliminate {model : Model F} (walk : FiniteMap.Traversal Text (NodeEntry F)) {unused : NodeEntry F}
      (found : model.graph.nodeMap.lookup unused.node.name = some unused) (isDead : Dead model.graph unused.node) :
      Rewrite provider model { model with graph := model.graph.removeNode walk unused.node.name }

/-- The nodes that folding removes, in this order. -/
inductive Folds [Scalar F] (provider : Provider) : Model F → List (Node F) → Model F → Prop
  | done (model : Model F) : Folds provider model [] model
  | round {model result : Model F} {removed : List (Node F)} (walk : FiniteMap.Traversal Text (NodeEntry F))
      (threads : Gemm.Threads F) {candidate : NodeEntry F} {output : Tensor F}
      (found : model.graph.nodeMap.lookup candidate.node.name = some candidate)
      (isConstant : constant model candidate.node = true)
      (computed : provider.compute threads candidate.node
        (candidate.node.inputs.filterMap fun input => model.initializers.lookup input) Tensor.empty = .ok output)
      (rest : Folds provider { model.addInitializer (candidate.node.outputs.headD []) output with
        graph := model.graph.removeNode walk candidate.node.name } removed result) :
      Folds provider model (candidate.node :: removed) result

/-- Rounds of the elimination, which remove these names in this order. -/
inductive Elimination : Model F → List Text → Model F → Prop
  | done (model : Model F) : Elimination model [] model
  | round {model result : Model F} {removed : List Text} (walk : FiniteMap.Traversal Text (NodeEntry F))
      {unused : NodeEntry F}
      (found : model.graph.nodeMap.lookup unused.node.name = some unused) (isDead : Dead model.graph unused.node)
      (rest : Elimination { model with graph := model.graph.removeNode walk unused.node.name } removed result) :
      Elimination model (unused.node.name :: removed) result

/-- The elimination has come to its end. -/
def Busy (graph : Graph F) : Prop := ∀ name node, graph.Has name node → ¬Dead graph node

section Runs
variable [Scalar F] {provider : Provider} {platform : Platform F} {model result : Model F} {fuel count : Nat}

theorem findSomeM?_some {α β ε : Type} {f : α → Except ε (Option β)} {items : List α} {found : β}
    (searched : items.findSomeM? f = .ok (some found)) : ∃ item ∈ items, f item = .ok (some found) := by
  induction items with
  | nil => cases searched
  | cons item items ih =>
    rw [List.findSomeM?_cons] at searched
    obtain ⟨first, tried, searched⟩ := Lib.bind_ok searched
    cases first with
    | some value =>
      cases searched
      exact ⟨item, List.mem_cons_self, tried⟩
    | none =>
      obtain ⟨other, member, here⟩ := ih searched
      exact ⟨other, List.mem_cons_of_mem _ member, here⟩

omit [Scalar F] in
/-- What the tables hold under the names of the insertion order. -/
theorem listed_lookup (kept : model.graph.Kept) {nodes : List (NodeEntry F)}
    (listed : model.graph.nodesInInsertionOrder = .ok nodes)
    {entry : NodeEntry F} (member : entry ∈ nodes) : model.graph.nodeMap.lookup entry.node.name = some entry := by
  obtain ⟨found, same, _, each⟩ := nodes_of_kept kept
  cases listed.symm.trans same
  exact each entry member

omit [Scalar F] in
theorem mem_listed (kept : model.graph.Kept) {nodes : List (NodeEntry F)}
    (listed : model.graph.nodesInInsertionOrder = .ok nodes)
    {name : Text} {entry : NodeEntry F} (found : model.graph.nodeMap.lookup name = some entry) : entry ∈ nodes := by
  obtain ⟨all, same, order, each⟩ := nodes_of_kept kept
  cases listed.symm.trans same
  have member := (kept.listed name).mpr ((FiniteMap.mem_iff_lookup _ _).mpr ⟨entry, found⟩)
  rw [← order] at member
  obtain ⟨other, here, rfl⟩ := List.mem_map.mp member
  cases found.symm.trans (each other here)
  exact here

omit [Scalar F] in
theorem kept_fuse {graph : Graph F} (kept : graph.Kept) (walk : FiniteMap.Traversal Text (NodeEntry F))
    (target producer : Node F) :
    (fuse walk graph target producer).Kept := by
  have edited := (kept.edit producer.name (.opType .gemmRelu)).edit producer.name (.outputs target.outputs)
  rw [edit_edit] at edited
  exact edited.removeNode target.name

omit [Scalar F] in
theorem size_fuse {graph : Graph F} (walk : FiniteMap.Traversal Text (NodeEntry F)) {target : Node F} (producer : Node F)
    (present : target.name ∈ graph.nodeMap) :
    (fuse walk graph target producer).nodeMap.keys.length < graph.nodeMap.keys.length := by
  refine lt_of_lt_of_eq (size_removeNode walk ((FiniteMap.mem_adjust _ _ _ _).mpr present)) ?_
  exact size_of_mem fun name => FiniteMap.mem_adjust _ _ _ _

theorem Rewrite.kept (kept : model.graph.Kept) (rewrite : Rewrite provider model result) : result.graph.Kept := by
  cases rewrite with
  | fuse walk found fusion => exact kept_fuse kept walk _ _
  | fold walk threads found isConstant computed => exact kept.removeNode _
  | eliminate walk found isDead => exact kept.removeNode _

omit [Scalar F] in
theorem findSomeM?_none {α β ε : Type} {f : α → Except ε (Option β)} {items : List α}
    (searched : items.findSomeM? f = .ok none) :
    ∀ item ∈ items, f item = .ok none := by
  induction items with
  | nil => exact nofun
  | cons item items ih =>
    rw [List.findSomeM?_cons] at searched
    obtain ⟨first, tried, searched⟩ := Lib.bind_ok searched
    cases first with
    | some value => cases searched
    | none => exact List.forall_mem_cons.mpr ⟨tried, ih searched⟩

omit [Scalar F] in
theorem findSomeM?_ok {α β ε : Type} {f : α → Except ε (Option β)} {items : List α}
    (each : ∀ item ∈ items, ∃ choice, f item = .ok choice) : ∃ choice, items.findSomeM? f = .ok choice := by
  induction items with
  | nil => exact ⟨none, rfl⟩
  | cons item items ih =>
    obtain ⟨⟨choice, tried⟩, others⟩ := List.forall_mem_cons.mp each
    obtain ⟨found, rest⟩ := ih others
    rw [List.findSomeM?_cons, tried]
    cases choice with
    | some value => exact ⟨some value, rfl⟩
    | none => exact ⟨found, rest⟩

omit [Scalar F] in
/-- The pass fuses until it finds nothing. -/
theorem fuseActivations_fuses (kept : model.graph.Kept) (ran : fuseActivations platform fuel model = .ok (result, count)) :
    Relation.ReflTransGen Fuses model result ∧
      ∀ name entry, result.graph.nodeMap.lookup name = some entry → fusible result.graph entry = .ok none := by
  induction fuel generalizing model count with
  | zero => cases ran
  | succ fuel ih =>
    obtain ⟨nodes, listed, ran⟩ := Lib.bind_ok ran
    obtain ⟨choice, searched, ran⟩ := Lib.bind_ok ran
    cases choice with
    | none =>
      cases ran
      exact ⟨.refl, fun name entry found => findSomeM?_none searched entry (mem_listed kept listed found)⟩
    | some pair =>
      obtain ⟨target, producer⟩ := pair
      obtain ⟨⟨next, fused⟩, rest, last⟩ := Lib.bind_ok ran
      cases last
      obtain ⟨item, member, made⟩ := findSomeM?_some searched
      obtain ⟨rfl, fusion⟩ := fusible_some made
      obtain ⟨steps, settled⟩ := ih (kept_fuse kept _ _ _) rest
      exact ⟨.head (.step (platform.fusing fuel) (listed_lookup kept listed member) fusion) steps, settled⟩

theorem fuseActivations_rewrites (kept : model.graph.Kept)
    (ran : fuseActivations platform fuel model = .ok (result, count)) :
    Relation.ReflTransGen (Rewrite provider) model result := by
  refine (fuseActivations_fuses kept ran).1.lift id fun _ _ step => ?_
  obtain ⟨walk, found, fusion⟩ := step
  exact .fuse walk found fusion

theorem foldConstants_folds (kept : model.graph.Kept)
    (ran : foldConstants platform provider fuel model = .ok (result, count)) :
    ∃ removed, Folds provider model removed result ∧ removed.length = count ∧
      ∀ name node, result.graph.Has name node → constant result node = false := by
  induction fuel generalizing model count with
  | zero => cases ran
  | succ fuel ih =>
    obtain ⟨nodes, listed, ran⟩ := Lib.bind_ok ran
    split at ran
    next searched =>
      cases ran
      refine ⟨[], .done _, rfl, fun name node has => ?_⟩
      obtain ⟨entry, found, rfl⟩ := has_iff.mp has
      exact Bool.eq_false_iff.mpr (List.find?_eq_none.mp searched entry (mem_listed kept listed found))
    next candidate searched =>
      obtain ⟨output, computed, ran⟩ := Lib.bind_ok ran
      obtain ⟨⟨next, folded⟩, rest, last⟩ := Lib.bind_ok ran
      cases last
      have isConstant := List.find?_some searched
      have found := listed_lookup kept listed (List.mem_of_find?_eq_some searched)
      obtain ⟨removed, folds, long, settled⟩ := ih (kept.removeNode _) rest
      exact ⟨_, .round (platform.folding fuel) (platform.threads fuel) found isConstant computed folds,
        congrArg (· + 1) long, settled⟩

/-- What stays of the nodes is what was not folded. -/
theorem Folds.has {removed : List (Node F)} (folds : Folds provider model removed result) (kept : model.graph.Kept)
    {name : Text} {node : Node F} :
    result.graph.Has name node ↔ model.graph.Has name node ∧ node ∉ removed := by
  induction folds with
  | done => simp
  | @round model result removed walk threads candidate output found isConstant computed rest ih =>
    rw [ih (kept.removeNode _), has_removeNode, List.mem_cons, not_or, ← and_assoc,
      and_comm (a := name ≠ candidate.node.name)]
    refine and_congr_left fun _ => and_congr_right fun has => not_congr ?_
    constructor
    · rintro rfl
      exact has.unique (has_lookup found)
    · rintro rfl
      exact (kept.has_name has).symm

theorem Folds.owned {removed : List (Node F)} (folds : Folds provider model removed result) :
    ∀ node ∈ removed, ∃ name, model.graph.Has name node := by
  induction folds with
  | done => exact nofun
  | round walk threads found isConstant computed rest ih =>
    refine List.forall_mem_cons.mpr ⟨⟨_, has_lookup found⟩, fun node member => ?_⟩
    obtain ⟨name, has⟩ := ih node member
    exact ⟨name, (has_removeNode.mp has).2⟩

theorem Folds.rewrites {removed : List (Node F)} (folds : Folds provider model removed result) :
    Relation.ReflTransGen (Rewrite provider) model result := by
  induction folds with
  | done => exact .refl
  | round walk threads found isConstant computed _ ih => exact .head (.fold walk threads found isConstant computed) ih

theorem foldConstants_rewrites (kept : model.graph.Kept)
    (ran : foldConstants platform provider fuel model = .ok (result, count)) :
    Relation.ReflTransGen (Rewrite provider) model result := by
  obtain ⟨removed, folds, _⟩ := foldConstants_folds kept ran
  exact folds.rewrites

omit [Scalar F] in
/-- The node is dead if nothing in the table reads it. -/
theorem dead_iff (kept : model.graph.Kept) {nodes : List (NodeEntry F)}
    (listed : model.graph.nodesInInsertionOrder = .ok nodes)
    (node : Node F) : dead model.graph nodes node = true ↔ Dead model.graph node := by
  simp only [dead, Dead, List.all_eq_true, decide_eq_true_eq]
  refine forall_congr' fun output => forall_congr' fun _ => and_congr_right fun _ => ?_
  constructor
  · intro unread name other has
    obtain ⟨entry, found, rfl⟩ := has_iff.mp has
    exact unread entry (mem_listed kept listed found)
  · exact fun unread entry member => unread _ _ (has_lookup (listed_lookup kept listed member))

omit [Scalar F] in
theorem Elimination.eliminates {removed : List Text} (rounds : Elimination model removed result) :
    Relation.ReflTransGen Eliminates model result := by
  induction rounds with
  | done => exact .refl
  | round walk found isDead _ ih => exact .head (.step walk found isDead) ih

omit [Scalar F] in
theorem eliminateDeadNodes_removes (kept : model.graph.Kept)
    (ran : eliminateDeadNodes platform fuel model = .ok (result, count)) :
    ∃ removed, Elimination model removed result ∧ removed.length = count ∧ Busy result.graph := by
  induction fuel generalizing model count with
  | zero => cases ran
  | succ fuel ih =>
    obtain ⟨nodes, listed, ran⟩ := Lib.bind_ok ran
    split at ran
    next searched =>
      cases ran
      refine ⟨[], .done _, rfl, fun name node has => ?_⟩
      obtain ⟨entry, found, rfl⟩ := has_iff.mp has
      rw [← dead_iff kept listed]
      exact List.find?_eq_none.mp searched entry (mem_listed kept listed found)
    next unused searched =>
      obtain ⟨⟨next, eliminated⟩, rest, last⟩ := Lib.bind_ok ran
      cases last
      have isDead := List.find?_some searched
      rw [dead_iff kept listed] at isDead
      have found := listed_lookup kept listed (List.mem_of_find?_eq_some searched)
      obtain ⟨removed, rounds, rfl, busy⟩ := ih (kept.removeNode _) rest
      exact ⟨_, .round (platform.eliminating fuel) found isDead rounds, rfl, busy⟩

omit [Scalar F] in
theorem eliminateDeadNodes_eliminates (kept : model.graph.Kept)
    (ran : eliminateDeadNodes platform fuel model = .ok (result, count)) :
    Relation.ReflTransGen Eliminates model result ∧ Busy result.graph := by
  obtain ⟨removed, rounds, _, busy⟩ := eliminateDeadNodes_removes kept ran
  exact ⟨rounds.eliminates, busy⟩

omit [Scalar F] in
/-- The table gets smaller with every round. -/
theorem eliminateDeadNodes_returns (kept : model.graph.Kept) (enough : model.graph.nodeMap.keys.length < fuel) :
    ∃ result count, eliminateDeadNodes platform fuel model = .ok (result, count) := by
  induction fuel generalizing model with
  | zero => omega
  | succ fuel ih =>
    obtain ⟨nodes, listed, _⟩ := nodes_of_kept kept
    rw [eliminateDeadNodes, listed]
    simp only [bind, Except.bind]
    cases searched : nodes.find? fun entry => dead model.graph nodes entry.node with
    | none => exact ⟨model, 0, rfl⟩
    | some unused =>
      have found := listed_lookup kept listed (List.mem_of_find?_eq_some searched)
      have less := size_removeNode (platform.eliminating fuel) (has_lookup found).mem
      obtain ⟨result, count, rest⟩ := @ih
        { model with graph := model.graph.removeNode (platform.eliminating fuel) unused.node.name }
        (kept.removeNode _) (less.trans_le (Nat.lt_succ_iff.mp enough))
      refine ⟨result, count + 1, ?_⟩
      simp only [rest]
      rfl

theorem eliminateDeadNodes_rewrites (kept : model.graph.Kept)
    (ran : eliminateDeadNodes platform fuel model = .ok (result, count)) :
    Relation.ReflTransGen (Rewrite provider) model result := by
  refine (eliminateDeadNodes_eliminates kept ran).1.lift id fun _ _ step => ?_
  obtain ⟨walk, found, isDead⟩ := step
  exact .eliminate walk found isDead

theorem kept_rewrites (kept : model.graph.Kept) (rewrites : Relation.ReflTransGen (Rewrite provider) model result) :
    result.graph.Kept := by
  induction rewrites with
  | refl => exact kept
  | tail _ step ih => exact step.kept ih

theorem pass_rewrites {enabled : Bool} {rewrite : Nat → Model F → Except Fault (Model F × Nat)} (kept : model.graph.Kept)
    (each : ∀ fuel, rewrite fuel model = .ok (result, count) → Relation.ReflTransGen (Rewrite provider) model result)
    (ran : pass enabled rewrite model = .ok (result, count)) :
    Relation.ReflTransGen (Rewrite provider) model result ∧ result.graph.Kept := by
  have rewrites : Relation.ReflTransGen (Rewrite provider) model result := by
    rw [pass] at ran
    split at ran
    · exact each _ ran
    · cases ran
      exact .refl
  exact ⟨rewrites, kept_rewrites kept rewrites⟩

/-- Everything the optimizer does is a sequence of rewrites. -/
theorem run_rewrites {options : OptimizerOptions} {report : OptimizationReport} (kept : model.graph.Kept)
    (ran : run options platform provider model = .ok (result, report)) :
    Relation.ReflTransGen (Rewrite provider) model result := by
  obtain ⟨⟨folded, _⟩, fold, ran⟩ := Lib.bind_ok ran
  obtain ⟨⟨fused, _⟩, fuse, ran⟩ := Lib.bind_ok ran
  obtain ⟨⟨eliminated, _⟩, eliminate, last⟩ := Lib.bind_ok ran
  cases last
  obtain ⟨first, kept⟩ := pass_rewrites kept (fun _ => foldConstants_rewrites kept) fold
  obtain ⟨second, kept⟩ := pass_rewrites kept (fun _ => fuseActivations_rewrites kept) fuse
  obtain ⟨third, _⟩ := pass_rewrites kept (fun _ => eliminateDeadNodes_rewrites kept) eliminate
  exact (first.trans second).trans third

end Runs
end GraphOptimizer

/-- A tensor is a graph input, an initializer or an output of one node. -/
structure Model.DefinedOnce (model : Model F) : Prop where
  inputs : ∀ name ∈ model.graph.inputs, name ∉ model.initializers
  outputs : ∀ name node, model.graph.Has name node → ∀ output ∈ node.outputs,
    output ∉ model.graph.inputs ∧ output ∉ model.initializers
  nodes : ∀ name node other reader, model.graph.Has name node → model.graph.Has other reader →
    ∀ output ∈ node.outputs, output ∈ reader.outputs → name = other

/-- What the session relies on. Only the fusion of a cycle makes a node read its
own output. -/
structure Model.WellFormed (model : Model F) : Prop where
  kept : model.graph.Kept
  distinct : model.graph.insertionOrder.Nodup
  wired : model.graph.Wired
  once : model.DefinedOnce
  selfless : ∀ name node, model.graph.Has name node → ∀ output ∈ node.outputs, output ∈ node.inputs → node.opType = .gemmRelu

/-- What the order of the nodes relies on. -/
structure Model.Sequential (model : Model F) : Prop where
  kept : model.graph.Kept
  wired : model.graph.Wired
  apart : ∀ name node other reader, model.graph.Has name node → model.graph.Has other reader →
    ∀ output ∈ node.outputs, output ∈ reader.outputs → name = other
  selfless : ∀ name node, model.graph.Has name node → ∀ output ∈ node.outputs, output ∈ node.inputs → node.opType = .gemmRelu

theorem Model.WellFormed.sequential {model : Model F} (wellFormed : model.WellFormed) : model.Sequential :=
  ⟨wellFormed.kept, wellFormed.wired, wellFormed.once.nodes, wellFormed.selfless⟩

namespace GraphOptimizer
open Graph
variable [Scalar F] {provider : Provider} {model result : Model F} {walk : FiniteMap.Traversal Text (NodeEntry F)}

/-- The producer under the name and with the output of the fused pair. -/
def merged (node : Node F) (outputs : List Text) : Node F := (node.setOpType .gemmRelu).setOutputs outputs

omit [Scalar F] in
theorem has_fuse {graph : Graph F} {target producer : Node F} {name : Text} {node : Node F} :
    (fuse walk graph target producer).Has name node ↔ name ≠ target.name ∧
      ∃ old, graph.Has name old ∧ node = if name = producer.name then merged old target.outputs else old := by
  rw [fuse, has_removeNode, has_edit]
  rfl

omit [Scalar F] in
theorem removeNode_wellFormed (wellFormed : model.WellFormed) {removed : Text} (present : removed ∈ model.graph.nodeMap) :
    Model.WellFormed { model with graph := model.graph.removeNode walk removed } where
  kept := wellFormed.kept.removeNode removed
  distinct := nodup_removeNode wellFormed.distinct
  wired := Wired.removeNode wellFormed.kept fun absent => absurd present absent
  once := by
    refine ⟨fun name member => ?_, fun name node has output member => ?_, fun name node other reader has found => ?_⟩
    · rw [inputs_removeNode] at member
      exact wellFormed.once.inputs name member
    · rw [inputs_removeNode]
      exact wellFormed.once.outputs name node (has_removeNode.mp has).2 output member
    · exact wellFormed.once.nodes name node other reader (has_removeNode.mp has).2 (has_removeNode.mp found).2
  selfless name node has := wellFormed.selfless name node (has_removeNode.mp has).2

omit [Scalar F] in
theorem constant_reads {node : Node F} (isConstant : constant model node = true) :
    (∃ output, node.outputs = [output]) ∧ ∀ input ∈ node.inputs, input ∈ model.initializers := by
  simp only [constant, Bool.and_eq_true, decide_eq_true_eq, List.all_eq_true, List.length_eq_one_iff] at isConstant
  exact ⟨isConstant.1.1.1, fun input member => of_decide_eq_true (isConstant.2 input member)⟩

omit [Scalar F] in
theorem fuse_wellFormed (wellFormed : model.WellFormed) {target producer : NodeEntry F}
    (found : model.graph.nodeMap.lookup target.node.name = some target) :
    Model.WellFormed { model with graph := fuse walk model.graph target.node producer.node } where
  kept := kept_fuse wellFormed.kept _ _ _
  distinct := nodup_removeNode wellFormed.distinct
  wired := by
    have kept := (wellFormed.kept.edit producer.node.name (.opType .gemmRelu)).edit producer.node.name
      (.outputs target.node.outputs)
    rw [edit_edit] at kept
    refine Wired.removeNode kept fun absent => absurd ?_ absent
    exact (FiniteMap.mem_adjust _ _ _ _).mpr (has_lookup found).mem
  once := by
    have here := has_lookup found
    have old : ∀ name node, (fuse walk model.graph target.node producer.node).Has name node → ∀ output ∈ node.outputs,
        ∃ owner writer, model.graph.Has owner writer ∧ output ∈ writer.outputs ∧
          (owner = target.node.name → name = producer.node.name) ∧
          (owner ≠ target.node.name → owner = name) := by
      intro name node has output member
      obtain ⟨different, former, was, rfl⟩ := has_fuse.mp has
      split at member
      next same => exact ⟨_, _, here, member, fun _ => same, fun other => absurd rfl other⟩
      next => exact ⟨name, former, was, member, fun same => absurd same different, fun _ => rfl⟩
    refine ⟨fun name member => ?_, fun name node has output member => ?_,
      fun name node other reader has found output member shared => ?_⟩
    · exact wellFormed.once.inputs name (by rwa [fuse, inputs_removeNode] at member)
    · obtain ⟨owner, writer, was, writes, _⟩ := old name node has output member
      rw [fuse, inputs_removeNode]
      exact wellFormed.once.outputs owner writer was output writes
    · obtain ⟨owner, writer, was, writes, moved, stays⟩ := old name node has output member
      obtain ⟨owner', writer', was', writes', moved', stays'⟩ := old other reader found output shared
      have same := wellFormed.once.nodes owner writer owner' writer' was was' output writes writes'
      subst same
      by_cases gone : owner = target.node.name
      · rw [moved gone, moved' gone]
      · rw [← stays gone, ← stays' gone]
  selfless name node has output member read := by
    obtain ⟨_, old, was, rfl⟩ := has_fuse.mp has
    split at member
    next same =>
      rw [if_pos same]
      rfl
    next different =>
      rw [if_neg different] at read ⊢
      exact wellFormed.selfless name old was output member read

omit [Scalar F] in
theorem fold_wellFormed (wellFormed : model.WellFormed) {candidate : NodeEntry F} {value : Tensor F}
    (found : model.graph.nodeMap.lookup candidate.node.name = some candidate)
    (isConstant : constant model candidate.node = true) :
    Model.WellFormed { model.addInitializer (candidate.node.outputs.headD []) value with
      graph := model.graph.removeNode walk candidate.node.name } := by
  have here := has_lookup found
  obtain ⟨⟨output, single⟩, _⟩ := constant_reads isConstant
  have written : output ∈ candidate.node.outputs := by
    rw [single]
    exact List.mem_cons_self
  obtain ⟨notInput, _⟩ := wellFormed.once.outputs _ _ here output written
  have rest := @removeNode_wellFormed F model walk wellFormed _ here.mem
  have known : ∀ name, name ∈ (model.addInitializer (candidate.node.outputs.headD []) value).initializers ↔
      name = output ∨ name ∈ model.initializers := by
    intro name
    rw [single]
    exact AList.mem_insert _
  refine ⟨rest.kept, rest.distinct, rest.wired,
    ⟨fun name member absurdly => ?_, fun name node has other member => ?_, rest.once.nodes⟩,
    rest.selfless⟩
  · rcases (known name).mp absurdly with rfl | old
    · rw [inputs_removeNode] at member
      exact notInput member
    · exact rest.once.inputs name member old
  · obtain ⟨apart, fresh⟩ := rest.once.outputs name node has other member
    refine ⟨apart, fun absurdly => ?_⟩
    rcases (known other).mp absurdly with rfl | old
    · obtain ⟨different, was⟩ := has_removeNode.mp has
      exact different (wellFormed.once.nodes name node _ _ was here other member written)
    · exact fresh old

theorem Rewrite.wellFormed (wellFormed : model.WellFormed) (rewrite : Rewrite provider model result) :
    result.WellFormed := by
  cases rewrite with
  | fuse walk found fusion => exact fuse_wellFormed wellFormed found
  | fold walk threads found isConstant computed => exact fold_wellFormed wellFormed found isConstant
  | eliminate walk found isDead => exact removeNode_wellFormed wellFormed (has_lookup found).mem

end GraphOptimizer
end FromScratch.Inference
