import FromScratch.Inference.Graph

/-! What the graph's operations do to its two tables, edges aside: which nodes
are stored, under which names, and in which order they are listed. -/

namespace FromScratch.Inference
open Lib (FiniteMap)
open Lib.FiniteMap (lookup_insert_eq lookup_erase_eq lookup_adjust)

variable {F : Type}

namespace Graph
variable {map : NodeMap F} {graph : Graph F} {walk : FiniteMap.Traversal Text (NodeEntry F)}

/-- The stored node and the allocation it lives in. -/
def stored (map : NodeMap F) (name : Text) : Option (Nat × Node F) :=
  (map.lookup name).map fun entry => (entry.id, entry.node)

theorem mem_iff_stored (map : NodeMap F) (name : Text) : name ∈ map ↔ (stored map name).isSome := by
  rw [stored, Option.isSome_map, AList.lookup_isSome]

theorem stored_eq_some {name : Text} {id : Nat} {node : Node F} :
    stored map name = some (id, node) ↔ ∃ entry, map.lookup name = some entry ∧ entry.id = id ∧ entry.node = node := by
  simp [stored, Option.map_eq_some_iff]

theorem stored_adjust {key : Text} {f : NodeEntry F → NodeEntry F}
    (keeps : ∀ entry, (f entry).id = entry.id ∧ (f entry).node = entry.node) (name : Text) :
    stored (map.adjust key f) name = stored map name := by
  rw [stored, lookup_adjust]
  split
  next same =>
    subst same
    cases found : map.lookup name with
    | none => simp [stored, found]
    | some entry => simp [stored, found, keeps entry]
  next => rfl

@[simp] theorem stored_connect (producer consumer : Text) : stored (connect map producer consumer) = stored map := by
  funext name
  rw [connect]
  split
  · refine (stored_adjust ?_ name).trans (stored_adjust ?_ name)
    all_goals exact fun _ => ⟨rfl, rfl⟩
  · rfl

theorem stored_foldl {α : Type} {step : NodeMap F → α → NodeMap F}
    (keeps : ∀ map item, stored (step map item) = stored map) (items : List α) (map : NodeMap F) :
    stored (items.foldl step map) = stored map := by
  induction items generalizing map with
  | nil => rfl
  | cons item items ih => rw [List.foldl_cons, ih, keeps]

@[simp] theorem stored_updateEdges (name : Text) : stored (updateEdges walk map name) = stored map :=
  stored_foldl (fun _ _ => by rw [stored_connect, stored_connect]) _ _

@[simp] theorem stored_clearEdges : stored (clearEdges map) = stored map := by
  funext name
  simp [stored, clearEdges, Function.comp_def]

@[simp] theorem stored_rebuildEdges : stored (graph.rebuildEdges walk).nodeMap = stored graph.nodeMap := by
  rw [rebuildEdges]
  exact (stored_foldl (fun _ _ => stored_foldl (fun _ _ => stored_connect _ _) _ _) _ _).trans stored_clearEdges

theorem stored_addNode (node : Node F) (name : Text) :
    stored (graph.addNode walk node).nodeMap name =
      if name = node.name then some (graph.allocated, node) else stored graph.nodeMap name := by
  simp only [addNode, stored_updateEdges]
  simp only [stored, lookup_insert_eq]
  split
  · split <;> rfl
  · rfl

theorem stored_removeNode (removed name : Text) :
    stored (graph.removeNode walk removed).nodeMap name =
      if name = removed then none else stored graph.nodeMap name := by
  rw [removeNode]
  split
  · rw [stored_rebuildEdges]
    simp only [stored, lookup_erase_eq]
    split <;> rfl
  next missing =>
    split
    next same =>
      subst same
      rw [stored, AList.lookup_eq_none.mpr missing, Option.map_none]
    next => rfl

theorem stored_edit (edited name : Text) (change : Node F → Node F) :
    stored (graph.edit edited change).nodeMap name =
      if name = edited then (stored graph.nodeMap name).map fun found => (found.1, change found.2)
      else stored graph.nodeMap name := by
  simp only [edit, stored, lookup_adjust]
  split
  next same =>
    subst same
    simp [Function.comp_def]
  next => rfl

theorem insertionOrder_removeNode (removed : Text) (present : removed ∈ graph.nodeMap) :
    (graph.removeNode walk removed).insertionOrder = graph.insertionOrder.filter (· ≠ removed) := by
  rw [removeNode, if_pos present]
  rfl

theorem deref_ok {ref : NodeRef} {entry : NodeEntry F} (here : graph.deref ref = .ok entry) :
    graph.nodeMap.lookup ref.name = some entry ∧ entry.id = ref.id := by
  rw [deref] at here
  split at here
  next found same =>
    split at here
    next equal =>
      cases here
      exact ⟨same, equal⟩
    next => cases here
  next => cases here

theorem deref_ref {entry : NodeEntry F} (found : graph.nodeMap.lookup entry.node.name = some entry) :
    graph.deref entry.ref = .ok entry := by
  have here : graph.nodeMap.lookup entry.ref.name = some entry := found
  rw [deref, here]
  exact if_pos rfl

/-- The two tables agree: exactly the listed names are stored, each under its
own name, and the operation is the one its text says. -/
structure Kept (graph : Graph F) : Prop where
  listed : ∀ name, name ∈ graph.insertionOrder ↔ name ∈ graph.nodeMap
  named : ∀ name id node, stored graph.nodeMap name = some (id, node) → node.name = name
  typed : ∀ name id node, stored graph.nodeMap name = some (id, node) → node.opType = opTypeFromString node.opTypeStr
  fresh : ∀ name id node, stored graph.nodeMap name = some (id, node) → id < graph.allocated

namespace Kept

theorem empty : Kept ({} : Graph F) where
  listed _ := Iff.intro nofun nofun
  named := nofun
  typed := nofun
  fresh := nofun

theorem addNode (kept : Kept graph) {node : Node F} (typed : node.opType = opTypeFromString node.opTypeStr) :
    Kept (graph.addNode walk node) where
  listed name := by
    rw [mem_iff_stored, stored_addNode]
    change name ∈ graph.insertionOrder ++ [node.name] ↔ _
    rw [List.mem_append, List.mem_singleton, kept.listed]
    split
    next same => exact ⟨fun _ => rfl, fun _ => .inr same⟩
    next different => rw [← mem_iff_stored]; exact ⟨fun either => either.resolve_right different, .inl⟩
  named name id found here := by
    rw [stored_addNode] at here
    split at here
    next same => cases here; exact same.symm
    next => exact kept.named name id found here
  typed name id found here := by
    rw [stored_addNode] at here
    split at here
    next same => cases here; exact typed
    next => exact kept.typed name id found here
  fresh name id found here := by
    rw [stored_addNode] at here
    split at here
    next same => cases here; exact Nat.lt_succ_self _
    next => exact Nat.lt_succ_of_lt (kept.fresh name id found here)

theorem of_stored (kept : Kept graph) {other : Graph F} (order : other.insertionOrder = graph.insertionOrder)
    (same : stored other.nodeMap = stored graph.nodeMap) (allocated : other.allocated = graph.allocated) : Kept other where
  listed name := by rw [order, kept.listed, mem_iff_stored, mem_iff_stored, same]
  named := by rw [same]; exact kept.named
  typed := by rw [same]; exact kept.typed
  fresh := by rw [same, allocated]; exact kept.fresh

theorem rebuildEdges (kept : Kept graph) : Kept (graph.rebuildEdges walk) :=
  kept.of_stored rfl stored_rebuildEdges rfl

theorem removeNode (kept : Kept graph) (removed : Text) : Kept (graph.removeNode walk removed) := by
  have kinds : ∀ name id node, stored (graph.removeNode walk removed).nodeMap name = some (id, node) →
      stored graph.nodeMap name = some (id, node) := by
    intro name id node here
    rw [stored_removeNode] at here
    split at here
    next => cases here
    next => exact here
  refine ⟨?_, fun name id node here => kept.named name id node (kinds name id node here),
    fun name id node here => kept.typed name id node (kinds name id node here), ?_⟩
  · intro name
    rw [mem_iff_stored, stored_removeNode]
    by_cases present : removed ∈ graph.nodeMap
    · rw [insertionOrder_removeNode removed present, List.mem_filter, kept.listed]
      split
      next same => simp [same]
      next different => rw [← mem_iff_stored]; simp [different]
    · rw [Graph.removeNode, if_neg present, kept.listed]
      split
      next same => subst same; simp [present]
      next different => rw [← mem_iff_stored]
  · intro name id node here
    have bound := kept.fresh name id node (kinds name id node here)
    rw [Graph.removeNode]
    split <;> exact bound

theorem edit (kept : Kept graph) (edited : Text) (change : Edit F) : Kept (graph.edit edited change.apply) := by
  have kinds : ∀ name id node, stored (graph.edit edited change.apply).nodeMap name = some (id, node) →
      ∃ old, stored graph.nodeMap name = some (id, old) ∧ (node = old ∨ node = change.apply old) := by
    intro name id node here
    rw [stored_edit] at here
    split at here
    · obtain ⟨found, present, same⟩ := Option.map_eq_some_iff.mp here
      cases same
      exact ⟨found.2, present, .inr rfl⟩
    · exact ⟨node, here, .inl rfl⟩
  refine ⟨?_, ?_, ?_, ?_⟩
  · intro name
    rw [mem_iff_stored, stored_edit]
    change name ∈ graph.insertionOrder ↔ _
    rw [kept.listed, mem_iff_stored]
    split <;> simp
  · intro name id node here
    obtain ⟨old, present, rfl | rfl⟩ := kinds name id node here
    · exact kept.named name id node present
    · have named := kept.named name id old present
      cases change <;> exact named
  · intro name id node here
    obtain ⟨old, present, rfl | rfl⟩ := kinds name id node here
    · exact kept.typed name id node present
    · have typed := kept.typed name id old present
      cases change with
      | opType op => exact (opTypeFromString_toString op).symm
      | outputs names => exact typed
      | attr key value => exact typed
  · intro name id node here
    obtain ⟨old, present, _⟩ := kinds name id node here
    exact kept.fresh name id old present

end Kept

theorem Kept.named_lookup (kept : Kept graph) {name : Text} {entry : NodeEntry F}
    (found : graph.nodeMap.lookup name = some entry) : entry.node.name = name :=
  kept.named name entry.id entry.node (stored_eq_some.mpr ⟨entry, found, rfl, rfl⟩)

/-- What the pointers of the insertion order point at. -/
theorem nodes_of_kept (kept : Kept graph) : ∃ nodes, graph.nodesInInsertionOrder = .ok nodes ∧
    nodes.map (fun entry => entry.node.name) = graph.insertionOrder ∧
    ∀ entry ∈ nodes, graph.nodeMap.lookup entry.node.name = some entry := by
  have visit : ∀ names : List Text, (∀ name ∈ names, name ∈ graph.nodeMap) → ∃ nodes, names.mapM graph.entryAt = .ok nodes ∧
      nodes.map (fun entry => entry.node.name) = names ∧
      ∀ entry ∈ nodes, graph.nodeMap.lookup entry.node.name = some entry := by
    intro names
    induction names with
    | nil => intro _; exact ⟨[], rfl, rfl, nofun⟩
    | cons name names ih =>
      intro present
      obtain ⟨entry, found⟩ := (FiniteMap.mem_iff_lookup _ _).mp (present name List.mem_cons_self)
      obtain ⟨nodes, rest, same, each⟩ := ih fun other member => present other (List.mem_cons_of_mem _ member)
      have named := kept.named_lookup found
      refine ⟨entry :: nodes, ?_, ?_, List.forall_mem_cons.mpr ⟨named.symm ▸ found, each⟩⟩
      · simp [List.mapM_cons, entryAt, found, rest, bind, Except.bind, pure, Except.pure]
      · rw [List.map_cons, same, named]
  exact visit _ fun name member => (kept.listed name).mp member

end Graph

theorem Model.Built.kept {model : Model F} (built : model.Built) : model.graph.Kept := by
  induction built with
  | new => exact Graph.Kept.empty
  | addNode _ walk name opTypeStr inputs outputs attributes ih => exact ih.addNode rfl
  | removeNode _ walk name ih => exact ih.removeNode name
  | rebuildEdges _ walk ih => exact ih.rebuildEdges
  | edit _ name change ih => exact ih.edit name change
  | setInputs _ names ih => exact ih.of_stored rfl rfl rfl
  | setOutputs _ names ih => exact ih.of_stored rfl rfl rfl
  | addInitializer _ name tensor ih => exact ih
  | removeInitializer _ name ih => exact ih

end FromScratch.Inference
