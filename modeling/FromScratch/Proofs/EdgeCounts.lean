import FromScratch.Proofs.GraphRuns
import Mathlib.Data.List.Count

/-! How many times a pointer is in the lists of a node: once for every output of
the producer that the consumer reads, whether the edges were patched node by node
or rebuilt. -/

namespace FromScratch.Inference
open Lib (FiniteMap)
open Lib.FiniteMap (lookup_adjust lookup_insert_eq)

variable {F : Type}

namespace Graph

/-- The outputs of the first node that the second reads. -/
def edgesBetween (table : Text → Option (Nat × Node F)) (ends : Text × Text) : Nat :=
  match table ends.1, table ends.2 with
  | some source, some target => source.2.outputs.countP (· ∈ target.2.inputs)
  | _, _ => 0

/-- The pointers of the table carry the names of their nodes. -/
def Named (table : Text → Option (Nat × Node F)) : Prop := ∀ name id node, table name = some (id, node) → node.name = name

/-- How often a pointer belongs in a list of a node. -/
def due (side : Side) (table : Text → Option (Nat × Node F)) (name : Text) (ref : NodeRef) : Nat :=
  if pointer table ref.name = some ref ∧ ref.name ≠ name then edgesBetween table (side.ends name ref.name) else 0

section Counts
variable {map : NodeMap F} {walk : FiniteMap.Traversal Text (NodeEntry F)} {side : Side} {name : Text} {ref : NodeRef}

theorem edgesBetween_none {table : Text → Option (Nat × Node F)} {ends : Text × Text}
    (missing : table ends.1 = none ∨ table ends.2 = none) : edgesBetween table ends = 0 := by
  rw [edgesBetween]
  split
  next source target from_ to_ =>
    rcases missing with absent | absent
    · cases absent.symm.trans from_
    · cases absent.symm.trans to_
  next => rfl

theorem due_congr {table other : Text → Option (Nat × Node F)} (here : table name = other name)
    (there : table ref.name = other ref.name) :
    due side table name ref = due side other name ref := by
  have target : pointer table ref.name = pointer other ref.name := by rw [pointer, pointer, there]
  have edges : edgesBetween table (side.ends name ref.name) = edgesBetween other (side.ends name ref.name) := by
    cases side <;> simp only [edgesBetween, Side.ends, here, there]
  simp only [due, target, edges]

/-- `connect` adds an edge for every output that is read. -/
theorem count_links_connect (named : Named (stored map)) (producer consumer : Text) :
    (linksOf side (connect map producer consumer) name).count ref = (linksOf side map name).count ref +
      if side.ends name ref.name = (producer, consumer) ∧ pointer (stored map) ref.name = some ref then
        edgesBetween (stored map) (producer, consumer) else 0 := by
  by_cases both : ∃ source target, map.lookup producer = some source ∧ map.lookup consumer = some target
  · obtain ⟨source, target, from_, to_⟩ := both
    have amount : edgesBetween (stored map) (producer, consumer) = source.node.outputs.countP (· ∈ target.node.inputs) := by
      rw [edgesBetween, stored, stored, from_, to_]
      rfl
    have lookup := @far_lookup F map side producer consumer source target from_ to_
    have key : (side.far (source, target)).ref.name = side.far (producer, consumer) :=
      named _ _ _ (stored_eq_some.mpr ⟨_, lookup, rfl, rfl⟩)
    rw [links_connect from_ to_, List.count_append]
    congr 1
    by_cases near : name = side.near (producer, consumer)
    · rw [if_pos near, List.map_const', List.count_replicate, amount, List.countP_eq_length_filter]
      simp only [beq_iff_eq]
      refine if_congr ?_ rfl rfl
      constructor
      · rintro rfl
        refine ⟨Side.ends_eq.mpr ⟨near, key⟩, ?_⟩
        rw [key]
        exact pointer_lookup lookup
      · rintro ⟨pair, found⟩
        rw [(Side.ends_eq.mp pair).2, pointer_lookup lookup] at found
        exact Option.some.inj found
    · rw [if_neg near, if_neg fun pair => near (Side.ends_eq.mp pair.1).1]
      rfl
  · have nothing : edgesBetween (stored map) (producer, consumer) = 0 := by
      refine edgesBetween_none ?_
      by_contra present
      obtain ⟨first, second⟩ := not_or.mp present
      obtain ⟨⟨_, _⟩, from_⟩ := Option.ne_none_iff_exists'.mp first
      obtain ⟨⟨_, _⟩, to_⟩ := Option.ne_none_iff_exists'.mp second
      obtain ⟨entry, foundP, _⟩ := stored_eq_some.mp from_
      obtain ⟨next, foundC, _⟩ := stored_eq_some.mp to_
      exact both ⟨entry, next, foundP, foundC⟩
    rw [connect_missing both, nothing, ite_self, Nat.add_zero]

theorem count_links_pair (named : Named (stored map)) {pair : Text × Text} (apart : pair.1 ≠ pair.2) :
    (linksOf side (connect map pair.1 pair.2) name).count ref = (linksOf side map name).count ref +
      (if side.ends name ref.name = pair then 1 else 0) * due side (stored map) name ref := by
  rw [count_links_connect named, due]
  by_cases same : side.ends name ref.name = pair
  · have different : ref.name ≠ name := by
      rintro equal
      rw [← same, equal] at apart
      cases side <;> exact apart rfl
    simp only [same, different, true_and, and_true, if_true, Nat.one_mul, ne_eq, not_false_eq_true]
  · simp only [same, false_and, if_false, Nat.zero_mul]

/-- A loop adds what is due for every time it joins the two nodes. -/
theorem count_links_foldl {α : Type} {step : NodeMap F → α → NodeMap F} {joins : α → Nat} (items : List α)
    (keeps : ∀ map item, stored (step map item) = stored map)
    (adds : ∀ item ∈ items, ∀ map, Named (stored map) → (linksOf side (step map item) name).count ref =
      (linksOf side map name).count ref + joins item * due side (stored map) name ref)
    (named : Named (stored map)) :
    (linksOf side (items.foldl step map) name).count ref = (linksOf side map name).count ref +
      (items.map joins).sum * due side (stored map) name ref := by
  induction items generalizing map with
  | nil => simp
  | cons item items ih =>
    rw [List.foldl_cons, ih (fun other member => adds other (List.mem_cons_of_mem _ member)) (by rwa [keeps]),
      adds item List.mem_cons_self map named, keeps, List.map_cons, List.sum_cons, Nat.add_mul, Nat.add_assoc]

theorem sum_indicator {α : Type} [DecidableEq α] [BEq α] [LawfulBEq α] (items : List α) (sought : α) :
    (items.map fun item => if sought = item then 1 else 0).sum = items.count sought := by
  induction items with
  | nil => rfl
  | cons item items ih =>
    rw [List.map_cons, List.sum_cons, ih, List.count_cons, Nat.add_comm]
    by_cases same : sought = item
    · simp [same]
    · simp [same, Ne.symm same]

theorem count_links_pairs (named : Named (stored map)) (pairs : List (Text × Text))
    (apart : ∀ pair ∈ pairs, pair.1 ≠ pair.2) :
    (linksOf side (pairs.foldl (fun map pair => connect map pair.1 pair.2) map) name).count ref =
      (linksOf side map name).count ref + pairs.count (side.ends name ref.name) * due side (stored map) name ref := by
  have total := @count_links_foldl F map side name ref _ _ (fun pair => if side.ends name ref.name =
    pair then 1 else 0) pairs
    (fun map pair => stored_connect pair.1 pair.2)
      (fun pair member map named => count_links_pair named (apart pair member)) named
  rwa [sum_indicator] at total

/-- Something is due between two different nodes of the table only. -/
theorem due_ne_zero (owed : due side (stored map) name ref ≠ 0) :
    name ∈ map ∧ ref.name ∈ map ∧ ref.name ≠ name := by
  rw [due] at owed
  split at owed
  next both =>
    have present : ∀ key, (side.ends name ref.name).1 = key ∨ (side.ends name ref.name).2 = key → key ∈ map := by
      intro key either
      rw [mem_iff_stored, Option.isSome_iff_ne_none]
      intro missing
      refine owed (edgesBetween_none ?_)
      rcases either with rfl | rfl
      · exact .inl missing
      · exact .inr missing
    refine ⟨present name ?_, present ref.name ?_, both.2⟩
    · cases side <;> simp [Side.ends]
    · cases side <;> simp [Side.ends]
  next => exact absurd rfl owed

theorem count_both (others : List Text) (new first second : Text) :
    (others.flatMap fun other => [(other, new), (new, other)]).count (first, second) =
      (if second = new then others.count first else 0) + if first = new then others.count second else 0 := by
  induction others with
  | nil => simp
  | cons other others ih =>
    have here : [(other, new), (new, other)].count (first, second) =
        (if second = new then [other].count first else 0) + if first = new then [other].count second else 0 := by
      grind
    rw [List.flatMap_cons, List.count_append, ih, here]
    by_cases f : first = new <;> by_cases s : second =
      new <;> simp only [f, s, if_true, if_false, List.count_cons, List.count_nil] <;>
      omega

theorem count_filtered (new sought : Text) (present : sought ∈ map) :
    ((walk.keys map).filter (· ≠ new)).count sought = if sought = new then 0 else 1 := by
  split
  next same =>
    refine List.count_eq_zero.mpr fun member => ?_
    exact of_decide_eq_true (List.mem_filter.mp member).2 same
  next different =>
    refine List.count_eq_one_of_mem ((walk.nodup map).filter _) (List.mem_filter.mpr ⟨?_, decide_eq_true different⟩)
    exact (walk.mem_keys map sought).mpr present

theorem count_links_updateEdges (named : Named (stored map)) (new : Text) :
    (linksOf side (updateEdges walk map new) name).count ref = (linksOf side map name).count ref +
      if name = new ∨ ref.name = new then due side (stored map) name ref else 0 := by
  have pairs : updateEdges walk map new = (((walk.keys map).filter (· ≠ new)).flatMap fun other =>
      [(other, new), (new, other)]).foldl (fun map pair => connect map pair.1 pair.2) map := by
    rw [List.foldl_flatMap]
    rfl
  have apart : ∀ pair ∈ ((walk.keys map).filter (· ≠ new)).flatMap fun other => [(other, new), (new, other)],
    pair.1 ≠ pair.2 := by
    intro pair member
    obtain ⟨other, listed, either⟩ := List.mem_flatMap.mp member
    have different : other ≠ new := of_decide_eq_true (List.mem_filter.mp listed).2
    rcases List.mem_pair.mp either with rfl | rfl
    · exact different
    · exact different.symm
  rw [pairs, count_links_pairs named _ apart]
  congr 1
  by_cases zero : due side (stored map) name ref = 0
  · rw [zero, Nat.mul_zero, ite_self]
  obtain ⟨first, second, different⟩ := due_ne_zero zero
  have count : ((((walk.keys map).filter (· ≠ new)).flatMap fun other => [(other, new), (new, other)]).count
      (side.ends name ref.name)) = if name = new ∨ ref.name = new then 1 else 0 := by
    cases side with
    | children =>
      rw [Side.ends, count_both, count_filtered new name first, count_filtered new ref.name second]
      by_cases f : name = new <;> by_cases s : ref.name = new <;> simp [f, s]
      exact different (s.trans f.symm)
    | parents =>
      rw [Side.ends, count_both, count_filtered new name first, count_filtered new ref.name second]
      by_cases f : name = new <;> by_cases s : ref.name = new <;> simp [f, s]
      exact different (s.trans f.symm)
  rw [count]
  split <;> simp

/-- The inner loop of `rebuildEdges` joins a node to all the others. -/
theorem count_links_outgoing (named : Named (stored map)) (key : Text) :
    (linksOf side (((walk.keys map).filter (· ≠ key)).foldl (fun map other => connect map key other) map) name).count ref =
      (linksOf side map name).count ref + (if (side.ends name ref.name).1 = key then 1 else 0) * due side
      (stored map) name ref := by
  have apart : ∀ pair ∈ ((walk.keys map).filter (· ≠ key)).map fun other => (key, other), pair.1 ≠ pair.2 := by
    intro pair member
    obtain ⟨other, listed, rfl⟩ := List.mem_map.mp member
    have different : other ≠ key := of_decide_eq_true (List.mem_filter.mp listed).2
    exact different.symm
  have pairs := @count_links_pairs F map side name ref named _ apart
  rw [List.foldl_map] at pairs
  rw [pairs]
  congr 1
  by_cases zero : due side (stored map) name ref = 0
  · rw [zero, Nat.mul_zero, Nat.mul_zero]
  obtain ⟨first, second, different⟩ := due_ne_zero zero
  have reach : (side.ends name ref.name).2 ∈ map ∧ (side.ends name ref.name).2 ≠ (side.ends name ref.name).1 := by
    cases side with
    | children => exact ⟨second, different⟩
    | parents => exact ⟨first, different.symm⟩
  congr 1
  revert reach
  obtain ⟨producer, consumer⟩ := side.ends name ref.name
  intro reach
  by_cases same : producer = key
  · subst same
    rw [if_pos rfl, List.count_map_of_injective _ _ fun _ _ equal => congrArg Prod.snd equal, count_filtered _ _ reach.1,
      if_neg reach.2]
  · rw [if_neg same]
    refine List.count_eq_zero.mpr fun member => ?_
    obtain ⟨other, _, equal⟩ := List.mem_map.mp member
    exact same (congrArg Prod.fst equal).symm

/-- Rebuilding joins a node to the others every time its name is listed. -/
theorem count_links_rebuilt {graph : Graph F} (known : Named (stored graph.nodeMap)) :
    (linksOf side (graph.rebuildEdges walk).nodeMap name).count ref =
      graph.insertionOrder.count (side.ends name ref.name).1 * due side (stored graph.nodeMap) name ref := by
  have keeps : ∀ (map : NodeMap F) (key : Text),
      stored (((walk.keys map).filter (· ≠ key)).foldl (fun map other => connect map key other) map) = stored map := by
    intro map key
    exact stored_foldl (fun (map : NodeMap F) other => stored_connect key other) ((walk.keys map).filter (· ≠ key)) map
  have named : Named (stored (clearEdges graph.nodeMap)) := by
    rw [stored_clearEdges]
    exact known
  have total := @count_links_foldl F _ side name ref Text _ (fun key => if (side.ends name ref.name).1 = key then 1 else 0)
    graph.insertionOrder keeps (fun key _ map named => count_links_outgoing named key) named
  rw [sum_indicator, linksOf_clearEdges, stored_clearEdges, List.count_nil, Nat.zero_add] at total
  rw [rebuildEdges]
  exact total

/-- Where there is an edge to count, its producer is listed. -/
theorem listed_of_due {order : List Text} (listed : ∀ name, name ∈ map → name ∈ order)
    (counts : due side (stored map) name ref ≠ 0) : (side.ends name ref.name).1 ∈ order := by
  obtain ⟨first, second, _⟩ := due_ne_zero counts
  refine listed _ ?_
  cases side with
  | children => exact first
  | parents => exact second

theorem once_mul_due {order : List Text} (listed : ∀ name, name ∈ map → name ∈ order) (distinct : order.Nodup) :
    order.count (side.ends name ref.name).1 * due side (stored map) name ref = due side (stored map) name ref := by
  by_cases nothing : due side (stored map) name ref = 0
  · rw [nothing, Nat.mul_zero]
  · rw [List.count_eq_one_of_mem distinct (listed_of_due listed nothing), Nat.one_mul]

theorem count_links_rebuildEdges {graph : Graph F} (known : Named (stored graph.nodeMap))
    (listed : ∀ name, name ∈ graph.nodeMap → name ∈ graph.insertionOrder) (distinct : graph.insertionOrder.Nodup) :
    (linksOf side (graph.rebuildEdges walk).nodeMap name).count ref = due side (stored graph.nodeMap) name ref :=
  (count_links_rebuilt known).trans (once_mul_due listed distinct)

end Counts

/-- Every pointer is in a list as often as the names of the tensors say. -/
def Counted (graph : Graph F) : Prop :=
  ∀ side name ref, (linksOf side graph.nodeMap name).count ref = due side (stored graph.nodeMap) name ref

section Runs
variable {graph : Graph F} {calls : List (GraphCall F)} {call : GraphCall F} {walk : FiniteMap.Traversal Text (NodeEntry F)}

theorem Counted.empty : Counted ({} : Graph F) := by
  intro side name ref
  exact List.count_nil

/-- The node is a new one. -/
theorem Counted.addNode (counted : Counted graph) {node : Node F} (named : Named (stored (graph.addNode walk node).nodeMap))
    (absent : node.name ∉ graph.nodeMap) : Counted (graph.addNode walk node) := by
  intro side name ref
  have missing : graph.nodeMap.lookup node.name = none := AList.lookup_eq_none.mpr absent
  have before : ∀ entry : NodeEntry F, side.links entry = [] →
      linksOf side (graph.nodeMap.insert node.name entry) name = linksOf side graph.nodeMap name := by
    intro entry bare
    rw [linksOf, linksOf, lookup_insert_eq]
    split
    next same =>
      rw [same, missing]
      exact bare
    next => rfl
  have table := @stored_addNode _ graph walk node
  revert named table
  simp only [Graph.addNode, missing, stored_updateEdges]
  intro named table
  rw [count_links_updateEdges named, before ⟨graph.allocated, node, [], []⟩ (by cases side <;> rfl), counted side name ref]
  by_cases touched : name = node.name ∨ ref.name = node.name
  · rw [if_pos touched]
    have nothing : due side (stored graph.nodeMap) name ref = 0 := by
      by_contra none
      obtain ⟨first, second, _⟩ := due_ne_zero none
      rcases touched with same | same
      · exact absent (same ▸ first)
      · exact absent (same ▸ second)
    rw [nothing, Nat.zero_add]
  · rw [if_neg touched, Nat.add_zero]
    obtain ⟨first, second⟩ := not_or.mp touched
    have here := table name
    have there := table ref.name
    rw [if_neg first] at here
    rw [if_neg second] at there
    exact due_congr here.symm there.symm

theorem Counted.removeNode (kept : graph.Kept) {removed : Text} (counted : removed ∉ graph.nodeMap → Counted graph)
    (distinct : (graph.insertionOrder.filter (· ≠ removed)).Nodup) : Counted (graph.removeNode walk removed) := by
  intro side name ref
  rw [Graph.removeNode]
  split
  next =>
    have known : Named (stored (graph.nodeMap.erase removed)) := by
      intro name id node found
      obtain ⟨entry, here, same⟩ := stored_eq_some.mp found
      by_cases gone : name = removed
      · rw [gone, AList.lookup_erase] at here
        cases here
      · rw [AList.lookup_erase_ne gone] at here
        exact kept.named name id node (stored_eq_some.mpr ⟨entry, here, same⟩)
    have listed : ∀ name, name ∈ graph.nodeMap.erase removed → name ∈ graph.insertionOrder.filter (· ≠ removed) := by
      intro name member
      obtain ⟨different, here⟩ := AList.mem_erase.mp member
      exact List.mem_filter.mpr ⟨(kept.listed name).mpr here, decide_eq_true different⟩
    rw [count_links_rebuildEdges known listed distinct, stored_rebuildEdges]
  next absent => exact counted absent side name ref

/-- Every pointer is in a list as often as rebuilding puts it there: once for each time its producer's
name has been given. -/
def Tallied (graph : Graph F) : Prop :=
  ∀ side name ref, (linksOf side graph.nodeMap name).count ref =
    graph.insertionOrder.count (side.ends name ref.name).1 * due side (stored graph.nodeMap) name ref

theorem Counted.tallied (counted : Counted graph) (kept : graph.Kept) (distinct : graph.insertionOrder.Nodup) :
    Tallied graph := by
  intro side name ref
  rw [once_mul_due (fun name => (kept.listed name).mpr) distinct]
  exact counted side name ref

theorem Tallied.removeNode (kept : graph.Kept) {removed : Text} (present : removed ∈ graph.nodeMap) :
    Tallied (graph.removeNode walk removed) := by
  intro side name ref
  have known := (@Kept.removeNode F graph walk kept removed).named
  rw [Graph.removeNode, if_pos present] at known ⊢
  rw [stored_rebuildEdges] at known ⊢
  exact count_links_rebuilt known

theorem Counted.rebuilt (kept : graph.Kept) (distinct : graph.insertionOrder.Nodup) : Counted (graph.rebuildEdges walk) := by
  intro side name ref
  rw [count_links_rebuildEdges kept.named (fun name => (kept.listed name).mpr) distinct, stored_rebuildEdges]

theorem Counted.edit (counted : Counted graph) (edited : Text) (change : Edit F)
    (same : ∀ node : Node F, (change.apply node).outputs = node.outputs) : Counted (graph.edit edited change.apply) := by
  intro side name ref
  obtain ⟨_, points, links⟩ := @edit_table F graph edited change same side
  have edges : ∀ ends, edgesBetween (stored (graph.edit edited change.apply).nodeMap) ends =
    edgesBetween (stored graph.nodeMap) ends := by
    intro ends
    obtain ⟨f, first, keepsF⟩ := @edit_stored F graph edited change same ends.1
    obtain ⟨g, second, keepsG⟩ := @edit_stored F graph edited change same ends.2
    rw [edgesBetween, edgesBetween, first, second]
    cases stored graph.nodeMap ends.1 with
    | none => rfl
    | some source =>
      cases stored graph.nodeMap ends.2 with
      | none => rfl
      | some target => simp only [Option.map_some, (keepsF source).2.2.2, (keepsG target).2.2.1]
  simp only [due, points, links, edges]
  exact counted side name ref

theorem counted_after (fresh : FreshRun calls) : Sound (after calls) ∧ Counted (after calls) := by
  refine @after_induction F calls (fun graph => Sound graph ∧ Counted graph) ⟨⟨Kept.empty, List.nodup_nil, Wired.empty⟩,
    Counted.empty⟩ ?_ fresh
  rintro graph call ⟨sound, counted⟩ fresh
  have next := sound.run fresh
  refine ⟨next, ?_⟩
  cases call with
  | addNode walk name opTypeStr inputs outputs attributes => exact counted.addNode next.kept.named fresh
  | removeNode walk name => exact Counted.removeNode sound.kept (fun _ => counted) (sound.distinct.filter _)

/-- What a call makes of the table of nodes. -/
def recorded (nodes : Text → Option (Node F)) : GraphCall F → Text → Option (Node F)
  | .addNode _ name opTypeStr inputs outputs attributes =>
    Function.update nodes name (some (Node.make name opTypeStr inputs outputs attributes))
  | .removeNode _ name => Function.update nodes name none

/-- The nodes that the calls leave: under a name stands the node of its last
`addNode`, unless the name has been removed since. -/
def given (calls : List (GraphCall F)) : Text → Option (Node F) := calls.foldl recorded fun _ => none

/-- The outputs of the first node of the table that the second reads. -/
def edgesGiven (nodes : Text → Option (Node F)) (ends : Text × Text) : Nat :=
  match nodes ends.1, nodes ends.2 with
  | some source, some target => source.outputs.countP (· ∈ target.inputs)
  | _, _ => 0

theorem edgesBetween_eq (table : Text → Option (Nat × Node F)) (ends : Text × Text) :
    edgesBetween table ends = edgesGiven (fun name => (table name).map Prod.snd) ends := by
  rw [edgesBetween, edgesGiven]
  cases table ends.1 with
  | none => rfl
  | some source => cases table ends.2 <;> rfl

/-- The graph stores what it was given. -/
theorem stored_after (calls : List (GraphCall F)) (name : Text) :
    (stored (after calls).nodeMap name).map Prod.snd = given calls name := by
  induction calls using List.reverseRecOn with
  | nil => rfl
  | append_singleton earlier call ih =>
    rw [after_append, given, List.foldl_append, List.foldl_cons, List.foldl_nil]
    cases call with
    | addNode walk new opTypeStr inputs outputs attributes =>
      have table := @stored_addNode _ (after earlier) walk (Node.make new opTypeStr inputs outputs attributes) name
      rw [GraphCall.run, table, recorded, Function.update_apply, apply_ite (Option.map Prod.snd)]
      exact if_congr Iff.rfl rfl ih
    | removeNode walk removed =>
      rw [GraphCall.run, stored_removeNode, recorded, Function.update_apply, apply_ite (Option.map Prod.snd)]
      exact if_congr Iff.rfl rfl ih

/-- The nodes are those of the calls, and patching the edges at every call gives
the multisets of `rebuildEdges`: one pointer for every output of the one node that
is an input of the other. -/
theorem after_counts (fresh : FreshRun calls) :
    (∀ name, (stored (after calls).nodeMap name).map Prod.snd = given calls name) ∧
      ∀ side name,
        (∀ ref, (linksOf side (after calls).nodeMap name).count ref =
          if pointer (stored (after calls).nodeMap) ref.name = some ref ∧ ref.name ≠ name then
            edgesGiven (given calls) (side.ends name ref.name) else 0) ∧
        ∀ walk, (linksOf side (after calls).nodeMap name).Perm
          (linksOf side ((after calls).rebuildEdges walk).nodeMap name) := by
  obtain ⟨sound, counted⟩ := counted_after fresh
  have nodes : (fun name => (stored (after calls).nodeMap name).map Prod.snd) = given calls :=
    funext (stored_after calls)
  refine ⟨stored_after calls, fun side name => ⟨fun ref => ?_, fun walk => List.perm_iff_count.mpr fun ref => ?_⟩⟩
  · rw [counted side name ref, due, edgesBetween_eq, nodes]
  · rw [counted side name ref, count_links_rebuildEdges sound.kept.named
      (fun name => (sound.kept.listed name).mpr) sound.distinct]

/-- The consumer comes first, another one is removed again, and `a` names its output twice. -/
theorem after_counts_pair : ∃ calls : List (GraphCall Nat), FreshRun calls ∧ calls.length = 4 ∧
    linksOf .parents (after calls).nodeMap (text "b") = [⟨text "a", 2⟩, ⟨text "a", 2⟩] ∧
    edgesGiven (given calls) (text "a", text "b") = 2 ∧
    ∀ walk, (linksOf .parents (after calls).nodeMap (text "b")).Perm
      (linksOf .parents ((after calls).rebuildEdges walk).nodeMap (text "b")) := by
  let add (name : String) (inputs outputs : List String) : GraphCall Nat :=
    .addNode .kept (text name) (text "Relu") (inputs.map text) (outputs.map text) ∅
  let calls : List (GraphCall Nat) :=
    [add "b" ["t"] ["y"], add "c" ["t"] ["z"], add "a" ["x"] ["t", "t"], .removeNode .kept (text "c")]
  have fresh : FreshRun calls :=
    (((FreshRun.empty.append (by decide +kernel)).append (by decide +kernel)).append (by decide +kernel)).append trivial
  have parents : linksOf .parents (after calls).nodeMap (text "b") = [⟨text "a", 2⟩, ⟨text "a", 2⟩] := by decide +kernel
  obtain ⟨count, same⟩ := (after_counts fresh).2 .parents (text "b")
  have edges := count ⟨text "a", 2⟩
  rw [if_pos (by decide +kernel), parents] at edges
  exact ⟨calls, fresh, rfl, parents, edges.symm, same⟩

end Runs
end Graph

theorem Model.Assembled.counted {model : Model F} (assembled : model.Assembled)
    (distinct : model.graph.insertionOrder.Nodup) :
    model.graph.Counted := by
  induction assembled with
  | new => exact Graph.Counted.empty
  | @addNode model assembled walk name opTypeStr inputs outputs attributes ih =>
    obtain ⟨before, _, apart⟩ := List.nodup_append.mp distinct
    refine (ih before).addNode (assembled.kept.addNode rfl).named fun present => ?_
    exact apart _ ((assembled.kept.listed _).mpr present) _ List.mem_cons_self rfl
  | @removeNode model assembled walk name ih =>
    refine Graph.Counted.removeNode assembled.kept (fun absent => ih ?_) ?_
    · rwa [Graph.removeNode, if_neg absent] at distinct
    · by_cases present : name ∈ model.graph.nodeMap
      · rwa [Graph.insertionOrder_removeNode name present] at distinct
      · rw [Graph.removeNode, if_neg present] at distinct
        exact distinct.filter _
  | rebuildEdges assembled walk _ => exact Graph.Counted.rebuilt assembled.kept distinct
  | edit assembled name change same ih => exact (ih distinct).edit name change same
  | rename assembled name outputs walk _ =>
    exact Graph.Counted.rebuilt (assembled.kept.edit name (.outputs outputs)) distinct
  | setInputs _ _ ih => exact ih distinct
  | setOutputs _ _ ih => exact ih distinct
  | addInitializer _ _ _ ih => exact ih distinct
  | removeInitializer _ _ ih => exact ih distinct

end FromScratch.Inference
