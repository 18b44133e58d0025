import FromScratch.Proofs.GraphTables

/-! The edges of the graph. Adding a node connects it with every node it feeds or
reads; rebuilding connects all. In a graph of distinct nodes the edges are then
those that the names of the tensors give, and no pointer is left behind. -/

namespace FromScratch.Inference
open Lib (FiniteMap)
open Lib.FiniteMap (lookup_adjust lookup_insert_eq)

variable {F : Type}

/-- The two lists of pointers an entry keeps. -/
inductive Side where
  | children | parents

namespace Side

def links : Side → NodeEntry F → List NodeRef
  | .children, entry => entry.children
  | .parents, entry => entry.parents

/-- The producer and the consumer, seen from an entry. -/
def ends : Side → Text → Text → Text × Text
  | .children, name, other => (name, other)
  | .parents, name, other => (other, name)

/-- The end whose entry keeps the list. -/
def near {α : Type} : Side → α × α → α
  | .children, ends => ends.1
  | .parents, ends => ends.2

/-- The end the list points to. -/
def far {α : Type} : Side → α × α → α
  | .children, ends => ends.2
  | .parents, ends => ends.1

theorem ends_eq {side : Side} {name other : Text} {pair : Text × Text} :
    side.ends name other = pair ↔ name = side.near pair ∧ other = side.far pair := by
  cases side with
  | children => exact Prod.ext_iff
  | parents => exact Prod.ext_iff.trans and_comm

end Side

namespace Graph

/-- A node writes a tensor another reads. -/
def Feeds (table : Text → Option (Nat × Node F)) (ends : Text × Text) : Prop :=
  ∃ source target, table ends.1 = some source ∧ table ends.2 = some target ∧
    ∃ output ∈ source.2.outputs, output ∈ target.2.inputs

def pointer (table : Text → Option (Nat × Node F)) (name : Text) : Option NodeRef :=
  (table name).map fun found => ⟨found.2.name, found.1⟩

def linksOf (side : Side) (map : NodeMap F) (name : Text) : List NodeRef :=
  ((map.lookup name).map side.links).getD []

section Links
variable {map : NodeMap F} {walk : FiniteMap.Traversal Text (NodeEntry F)} {side : Side} {name : Text} {ref : NodeRef}

theorem linksOf_adjust (key : Text) (f : NodeEntry F → NodeEntry F) (more : List NodeRef)
    (grows : ∀ entry, side.links (f entry) = side.links entry ++ more) :
    linksOf side (map.adjust key f) name =
      linksOf side map name ++ if name = key ∧ key ∈ map then more else [] := by
  rw [linksOf, linksOf, lookup_adjust]
  by_cases same : name = key
  · subst same
    cases found : map.lookup name with
    | none => simp [AList.lookup_eq_none.mp found]
    | some entry =>
      have present : name ∈ map := (FiniteMap.mem_iff_lookup _ _).mpr ⟨entry, found⟩
      simp [present, grows]
  · simp [same]

theorem pointer_lookup {entry : NodeEntry F} (found : map.lookup name = some entry) :
    pointer (stored map) name = some entry.ref := by
  rw [pointer, stored, found]
  rfl

theorem feeds_lookup {producer consumer : Text} {source target : NodeEntry F} (from_ : map.lookup producer = some source)
    (to_ : map.lookup consumer = some target) :
    Feeds (stored map) (producer, consumer) ↔ source.node.outputs.filter (· ∈ target.node.inputs) ≠ [] := by
  rw [Feeds, stored, stored, from_, to_, Ne, List.filter_eq_nil_iff]
  simp

theorem far_lookup {producer consumer : Text} {source target : NodeEntry F} (from_ : map.lookup producer = some source)
    (to_ : map.lookup consumer = some target) :
    map.lookup (side.far (producer, consumer)) = some (side.far (source, target)) := by
  cases side with
  | children => exact to_
  | parents => exact from_

/-- `connect` adds a pointer to the other end for every output that is read. -/
theorem links_connect {producer consumer : Text} {source target : NodeEntry F} (from_ : map.lookup producer = some source)
    (to_ : map.lookup consumer = some target) :
    linksOf side (connect map producer consumer) name = linksOf side map name ++
      if name = side.near (producer, consumer) then
        (source.node.outputs.filter (· ∈ target.node.inputs)).map fun _ => (side.far (source, target)).ref else [] := by
  have presentP : producer ∈ map := (FiniteMap.mem_iff_lookup _ _).mpr ⟨source, from_⟩
  have presentC : consumer ∈ map := (FiniteMap.mem_iff_lookup _ _).mpr ⟨target, to_⟩
  simp only [connect, from_, to_]
  cases side with
  | children =>
    rw [linksOf_adjust consumer _ [], linksOf_adjust producer _ _ fun _ => rfl]
    · simp only [Side.near, Side.far, presentP, and_true, ite_self, List.append_nil]
      rfl
    · exact fun _ => (List.append_nil _).symm
  | parents =>
    rw [linksOf_adjust consumer _ _ fun _ => rfl, linksOf_adjust producer _ []]
    · simp only [Side.near, Side.far, FiniteMap.mem_adjust, presentC, and_true, ite_self, List.append_nil]
      rfl
    · exact fun _ => (List.append_nil _).symm

theorem connect_missing {producer consumer : Text}
    (missing : ¬∃ source target, map.lookup producer = some source ∧ map.lookup consumer = some target) :
    connect map producer consumer = map := by
  rw [connect]
  split
  next source target from_ to_ => exact absurd ⟨source, target, from_, to_⟩ missing
  next => rfl

/-- `connect` gives the producer and the consumer a pointer to each other. -/
theorem mem_links_connect (producer consumer : Text) :
    ref ∈ linksOf side (connect map producer consumer) name ↔
      ref ∈ linksOf side map name ∨ ∃ other, side.ends name other = (producer, consumer) ∧
        Feeds (stored map) (producer, consumer) ∧ pointer (stored map) other = some ref := by
  by_cases both : ∃ source target, map.lookup producer = some source ∧ map.lookup consumer = some target
  · obtain ⟨source, target, from_, to_⟩ := both
    have other := pointer_lookup (@far_lookup F map side producer consumer source target from_ to_)
    rw [links_connect from_ to_, List.mem_append]
    refine or_congr Iff.rfl ?_
    simp only [Side.ends_eq]
    split
    next near =>
      rw [List.map_const', List.mem_replicate, Ne, List.length_eq_zero_iff, ← Ne, ← feeds_lookup from_ to_]
      constructor
      · rintro ⟨feeds, rfl⟩
        exact ⟨_, ⟨near, rfl⟩, feeds, other⟩
      · rintro ⟨_, ⟨_, rfl⟩, feeds, found⟩
        exact ⟨feeds, Option.some.inj (found.symm.trans other)⟩
    next elsewhere => simp [elsewhere]
  · rw [connect_missing both]
    refine (or_iff_left ?_).symm
    rintro ⟨other, _, ⟨source, target, from_, to_, _⟩, _⟩
    obtain ⟨entry, foundP, _⟩ := stored_eq_some.mp from_
    obtain ⟨next, foundC, _⟩ := stored_eq_some.mp to_
    exact both ⟨entry, next, foundP, foundC⟩

/-- A loop that connects some pairs adds the links of those that feed each other. -/
theorem mem_links_foldl {α : Type} {step : NodeMap F → α → NodeMap F} {joins : α → Text × Text → Prop}
    (keeps : ∀ map item, stored (step map item) = stored map)
    (adds : ∀ map item name, ref ∈ linksOf side (step map item) name ↔ ref ∈ linksOf side map name ∨
      ∃ other, joins item (side.ends name other) ∧ Feeds (stored map) (side.ends name other) ∧
        pointer (stored map) other = some ref)
    (items : List α) :
    ref ∈ linksOf side (items.foldl step map) name ↔ ref ∈ linksOf side map name ∨
      ∃ other, (∃ item ∈ items, joins item (side.ends name other)) ∧ Feeds (stored map) (side.ends name other) ∧
        pointer (stored map) other = some ref := by
  induction items generalizing map with
  | nil => simp
  | cons item items ih =>
    rw [List.foldl_cons, ih, adds, keeps, or_assoc, ← exists_or]
    refine or_congr Iff.rfl (exists_congr fun other => ?_)
    rw [← or_and_right]
    simp only [List.mem_cons, exists_eq_or_imp]

theorem mem_links_pairs (pairs : List (Text × Text)) :
    ref ∈ linksOf side (pairs.foldl (fun map pair => connect map pair.1 pair.2) map) name ↔
      ref ∈ linksOf side map name ∨ ∃ other, side.ends name other ∈ pairs ∧
        Feeds (stored map) (side.ends name other) ∧ pointer (stored map) other = some ref := by
  rw [@mem_links_foldl F map side name ref _ _ (fun pair ends => ends = pair) (fun map pair => stored_connect pair.1 pair.2)]
  · simp
  · intro map pair name
    rw [mem_links_connect]
    refine or_congr Iff.rfl (exists_congr fun other => and_congr_right fun same => ?_)
    rw [same]

theorem mem_links_updateEdges (new : Text) :
    ref ∈ linksOf side (updateEdges walk map new) name ↔ ref ∈ linksOf side map name ∨
      ∃ other, other ≠ name ∧ (name = new ∨ other = new) ∧ Feeds (stored map) (side.ends name other) ∧
        pointer (stored map) other = some ref := by
  have pairs : updateEdges walk map new = (((walk.keys map).filter (· ≠ new)).flatMap fun other =>
      [(other, new), (new, other)]).foldl (fun map pair => connect map pair.1 pair.2) map := by
    rw [List.foldl_flatMap]
    rfl
  rw [pairs, mem_links_pairs]
  refine or_congr Iff.rfl (exists_congr fun other => ?_)
  refine (and_congr_left fun linked => ?_).trans and_assoc
  obtain ⟨⟨source, target, from_, to_, _⟩, _⟩ := linked
  have known : ∀ key found, stored map key = some found → key ∈ walk.keys map := by
    intro key found same
    rw [walk.mem_keys, mem_iff_stored, same]
    rfl
  have first := known _ _ from_
  have second := known _ _ to_
  rw [List.mem_flatMap]
  constructor
  · rintro ⟨key, member, joined⟩
    have different : key ≠ new := of_decide_eq_true (List.mem_filter.mp member).2
    cases side with
    | children =>
      rcases List.mem_pair.mp joined with same | same
      · cases same
        exact ⟨Ne.symm different, .inr rfl⟩
      · cases same
        exact ⟨different, .inl rfl⟩
    | parents =>
      rcases List.mem_pair.mp joined with same | same
      · cases same
        exact ⟨different, .inl rfl⟩
      · cases same
        exact ⟨Ne.symm different, .inr rfl⟩
  · rintro ⟨different, rfl | rfl⟩
    · refine ⟨other, List.mem_filter.mpr ⟨?_, decide_eq_true different⟩, ?_⟩
      · cases side <;> assumption
      · cases side <;> simp [Side.ends]
    · refine ⟨name, List.mem_filter.mpr ⟨?_, decide_eq_true (Ne.symm different)⟩, ?_⟩
      · cases side <;> assumption
      · cases side <;> simp [Side.ends]

theorem linksOf_clearEdges (side : Side) (map : NodeMap F) (name : Text) : linksOf side (clearEdges map) name = [] := by
  rw [linksOf, clearEdges, FiniteMap.lookup_mapValues]
  cases map.lookup name with
  | none => rfl
  | some entry => cases side <;> rfl

theorem mem_links_rebuildEdges {graph : Graph F} (listed : ∀ name, name ∈ graph.nodeMap → name ∈ graph.insertionOrder) :
    ref ∈ linksOf side (graph.rebuildEdges walk).nodeMap name ↔
      ∃ other, other ≠ name ∧ Feeds (stored graph.nodeMap) (side.ends name other) ∧
        pointer (stored graph.nodeMap) other = some ref := by
  have keeps : ∀ (map : NodeMap F) (key : Text),
      stored (((walk.keys map).filter (· ≠ key)).foldl (fun map other => connect map key other) map) = stored map := by
    intro map key
    have walked := stored_foldl (fun (map : NodeMap F) other => stored_connect key other)
      ((walk.keys map).filter (· ≠ key)) map
    exact walked
  have adds : ∀ (map : NodeMap F) (key name : Text),
      ref ∈ linksOf side (((walk.keys map).filter (· ≠ key)).foldl (fun map other => connect map key other) map) name ↔
        ref ∈ linksOf side map name ∨ ∃ other, (∃ consumer, consumer ≠ key ∧ side.ends name other = (key, consumer)) ∧
          Feeds (stored map) (side.ends name other) ∧ pointer (stored map) other = some ref := by
    intro map key name
    have pairs := @mem_links_pairs F map side name ref (((walk.keys map).filter (· ≠ key)).map fun other => (key, other))
    rw [List.foldl_map] at pairs
    rw [pairs]
    refine or_congr Iff.rfl (exists_congr fun other => and_congr_left fun linked => ?_)
    obtain ⟨⟨source, target, _, to_, _⟩, _⟩ := linked
    rw [List.mem_map]
    constructor
    · rintro ⟨consumer, member, same⟩
      exact ⟨consumer, of_decide_eq_true (List.mem_filter.mp member).2, same.symm⟩
    · rintro ⟨consumer, different, same⟩
      rw [same] at to_
      refine ⟨consumer, List.mem_filter.mpr ⟨?_, decide_eq_true different⟩, same.symm⟩
      rw [walk.mem_keys, mem_iff_stored, to_]
      rfl
  rw [rebuildEdges]
  simp only []
  rw [@mem_links_foldl F _ side name ref Text _ (fun key ends => ∃ consumer, consumer ≠ key ∧
    ends = (key, consumer)) keeps adds,
    linksOf_clearEdges, stored_clearEdges]
  simp only [List.not_mem_nil, false_or]
  refine exists_congr fun other => (and_congr_left fun linked => ?_)
  obtain ⟨⟨source, target, from_, to_, _⟩, _⟩ := linked
  constructor
  · rintro ⟨key, _, consumer, different, same⟩
    cases side <;> cases same
    · exact different
    · exact Ne.symm different
  · intro different
    refine ⟨(side.ends name other).1, listed _ ?_, (side.ends name other).2, ?_, rfl⟩
    · rw [mem_iff_stored, from_]
      rfl
    · cases side
      · exact different
      · exact Ne.symm different

end Links
section Adding
variable {graph : Graph F} {walk : FiniteMap.Traversal Text (NodeEntry F)} {side : Side} {name other : Text} {ref : NodeRef}

theorem mem_links_addNode (node : Node F) :
    ref ∈ linksOf side (graph.addNode walk node).nodeMap name ↔ ref ∈ linksOf side graph.nodeMap name ∨
      ∃ other, other ≠ name ∧ (name = node.name ∨ other = node.name) ∧
        Feeds (stored (graph.addNode walk node).nodeMap) (side.ends name other) ∧
        pointer (stored (graph.addNode walk node).nodeMap) other = some ref := by
  simp only [addNode, mem_links_updateEdges, stored_updateEdges]
  refine or_congr ?_ Iff.rfl
  -- the entry of a node that is replaced keeps its pointers
  rw [linksOf, linksOf, lookup_insert_eq]
  by_cases same : name = node.name
  · subst same
    rw [if_pos rfl]
    cases graph.nodeMap.lookup node.name with
    | none => cases side <;> rfl
    | some old => cases side <;> rfl
  · rw [if_neg same]

/-- Nothing changes between two other nodes. -/
theorem addNode_apart (node : Node F) (first : name ≠ node.name) (second : other ≠ node.name) :
    (Feeds (stored (graph.addNode walk node).nodeMap) (side.ends name other) ↔
        Feeds (stored graph.nodeMap) (side.ends name other)) ∧
      pointer (stored (graph.addNode walk node).nodeMap) other = pointer (stored graph.nodeMap) other := by
  have away : ∀ key, key ≠ node.name → stored (graph.addNode walk node).nodeMap key = stored graph.nodeMap key := by
    intro key different
    rw [stored_addNode, if_neg different]
  cases side <;> simp only [Feeds, pointer, Side.ends, away _ first, away _ second, and_self]

theorem Kept.pointer_name (kept : Kept graph) (found : pointer (stored graph.nodeMap) name = some ref) :
    ref.name = name := by
  obtain ⟨⟨id, node⟩, here, rfl⟩ := Option.map_eq_some_iff.mp found
  exact kept.named name id node here

theorem Kept.pointer_deref (kept : Kept graph) {entry : NodeEntry F} (here : graph.deref ref = .ok entry) :
    pointer (stored graph.nodeMap) ref.name = some ref := by
  obtain ⟨found, same⟩ := deref_ok here
  rw [pointer_lookup found, NodeEntry.ref, kept.named_lookup found, same]

theorem Kept.pointer_inj (kept : Kept graph) (first : pointer (stored graph.nodeMap) name = some ref)
    (second : pointer (stored graph.nodeMap) other = some ref) : name = other :=
  (kept.pointer_name first).symm.trans (kept.pointer_name second)

theorem Kept.pointer_lt (kept : Kept graph) (found : pointer (stored graph.nodeMap) name = some ref) :
    ref.id < graph.allocated := by
  obtain ⟨⟨id, node⟩, here, rfl⟩ := Option.map_eq_some_iff.mp found
  exact kept.fresh name id node here

/-- The edges are those that the names of the tensors give. -/
def Wired (graph : Graph F) : Prop :=
  ∀ side name ref, ref ∈ linksOf side graph.nodeMap name ↔ ∃ other, other ≠ name ∧
    Feeds (stored graph.nodeMap) (side.ends name other) ∧ pointer (stored graph.nodeMap) other = some ref

/-- What is left of that when nodes are replaced: no edge is missing, a pointer to
a parent that is still there is answered by one of its pointers, and by a stale one
if the parent feeds the node no more. -/
structure Linked (graph : Graph F) : Prop where
  complete : ∀ side name other ref, other ≠ name → Feeds (stored graph.nodeMap) (side.ends name other) →
    pointer (stored graph.nodeMap) other = some ref → ref ∈ linksOf side graph.nodeMap name
  mirrored : ∀ name other ref, ref ∈ linksOf .parents graph.nodeMap name →
    pointer (stored graph.nodeMap) other = some ref → ∃ id, ⟨name, id⟩ ∈ linksOf .children graph.nodeMap other
  bounded : ∀ side name ref, ref ∈ linksOf side graph.nodeMap name → ref.id < graph.allocated
  honest : ∀ name other ref, ref ∈ linksOf .parents graph.nodeMap name → pointer (stored graph.nodeMap) other = some ref →
    Feeds (stored graph.nodeMap) (other, name) ∨
      ∃ id, ⟨name, id⟩ ∈ linksOf .children graph.nodeMap other ∧ pointer (stored graph.nodeMap) name ≠ some ⟨name, id⟩

theorem Wired.linked (wired : Wired graph) (kept : Kept graph) : Linked graph where
  complete side name other ref different feeds found := (wired side name ref).mpr ⟨other, different, feeds, found⟩
  mirrored name other ref member found := by
    obtain ⟨producer, different, feeds, here⟩ := (wired .parents name ref).mp member
    cases kept.pointer_inj found here
    obtain ⟨source, target, from_, to_, _⟩ := id feeds
    have back : pointer (stored graph.nodeMap) name = some ⟨target.2.name, target.1⟩ := by
      change stored graph.nodeMap name = some target at to_
      rw [pointer, to_]
      rfl
    refine ⟨target.1, ?_⟩
    rw [← kept.named name target.1 target.2 to_]
    rw [kept.named name target.1 target.2 to_] at back ⊢
    exact (wired .children other _).mpr ⟨name, different.symm, feeds, back⟩
  bounded side name ref member := by
    obtain ⟨other, _, _, found⟩ := (wired side name ref).mp member
    exact kept.pointer_lt found
  honest name other ref member found := by
    obtain ⟨producer, _, feeds, here⟩ := (wired .parents name ref).mp member
    cases kept.pointer_inj found here
    exact .inl feeds

theorem Wired.empty : Wired ({} : Graph F) := by
  intro side name ref
  refine iff_of_false ?_ ?_
  · exact List.not_mem_nil
  · rintro ⟨other, _, _, found⟩
    cases found

theorem Kept.rebuilt (kept : Kept graph) : Wired (graph.rebuildEdges walk) := by
  intro side name ref
  rw [mem_links_rebuildEdges fun name => (kept.listed name).mpr, stored_rebuildEdges]

theorem Wired.removeNode (kept : Kept graph) {removed : Text} (wired : removed ∉ graph.nodeMap → Wired graph) :
    Wired (graph.removeNode walk removed) := by
  rw [Graph.removeNode]
  split
  next =>
    intro side name ref
    have listed : ∀ name, name ∈ graph.nodeMap.erase removed → name ∈ graph.insertionOrder.filter (· ≠ removed) := by
      intro name member
      obtain ⟨different, here⟩ := AList.mem_erase.mp member
      exact List.mem_filter.mpr ⟨(kept.listed name).mpr here, decide_eq_true different⟩
    rw [mem_links_rebuildEdges listed, stored_rebuildEdges]
  next absent => exact wired absent

/-- The node is a new one. -/
theorem Wired.addNode (wired : Wired graph) {node : Node F} (absent : node.name ∉ graph.nodeMap) :
    Wired (graph.addNode walk node) := by
  have missing : stored graph.nodeMap node.name = none := by rw [stored, AList.lookup_eq_none.mpr absent]; rfl
  intro side name ref
  rw [mem_links_addNode, wired side name ref]
  constructor
  · rintro (⟨other, different, feeds, found⟩ | ⟨other, different, _, feeds, found⟩)
    · have known : ∀ key, (side.ends name other).1 = key ∨ (side.ends name other).2 = key → key ≠ node.name := by
        obtain ⟨source, target, from_, to_, _⟩ := feeds
        rintro key (rfl | rfl) same
        · rw [same, missing] at from_
          cases from_
        · rw [same, missing] at to_
          cases to_
      have first : name ≠ node.name := known name (by cases side <;> simp [Side.ends])
      have second : other ≠ node.name := known other (by cases side <;> simp [Side.ends])
      obtain ⟨same, found'⟩ := @addNode_apart F graph walk side name other node first second
      exact ⟨other, different, same.mpr feeds, found'.trans found⟩
    · exact ⟨other, different, feeds, found⟩
  · rintro ⟨other, different, feeds, found⟩
    by_cases touched : name = node.name ∨ other = node.name
    · exact .inr ⟨other, different, touched, feeds, found⟩
    · obtain ⟨first, second⟩ := not_or.mp touched
      obtain ⟨same, found'⟩ := @addNode_apart F graph walk side name other node first second
      exact .inl ⟨other, different, same.mp feeds, found'.symm.trans found⟩

/-- The node may replace one of its name. -/
theorem Linked.addNode (linked : Linked graph) (kept : Kept graph) {node : Node F}
    (typed : node.opType = opTypeFromString node.opTypeStr) : Linked (graph.addNode walk node) where
  complete side name other ref different feeds found := by
    rw [mem_links_addNode]
    by_cases touched : name = node.name ∨ other = node.name
    · exact .inr ⟨other, different, touched, feeds, found⟩
    · obtain ⟨first, second⟩ := not_or.mp touched
      obtain ⟨same, found'⟩ := @addNode_apart F graph walk side name other node first second
      exact .inl (linked.complete side name other ref different (same.mp feeds) (found'.symm.trans found))
  mirrored name other ref member found := by
    have after := @Kept.addNode F graph walk kept node typed
    rw [mem_links_addNode] at member
    rcases member with earlier | ⟨producer, different, touched, feeds, here⟩
    · by_cases new : other = node.name
      · -- pointers to the node that has just been made are not old ones
        subst new
        have bound := linked.bounded _ _ _ earlier
        rw [pointer, stored_addNode, if_pos rfl] at found
        cases found
        exact absurd bound (lt_irrefl _)
      · rw [pointer, stored_addNode, if_neg new] at found
        obtain ⟨id, back⟩ := linked.mirrored name other ref earlier found
        exact ⟨id, mem_links_addNode node |>.mpr (.inl back)⟩
    · cases after.pointer_inj found here
      obtain ⟨source, target, from_, to_, _⟩ := id feeds
      have named := after.named name target.1 target.2 to_
      refine ⟨target.1, mem_links_addNode node |>.mpr (.inr ⟨name, different.symm, touched.symm, feeds, ?_⟩)⟩
      change stored (graph.addNode walk node).nodeMap name = some target at to_
      rw [pointer, to_, Option.map_some, named]
  bounded side name ref member := by
    rw [mem_links_addNode] at member
    rcases member with earlier | ⟨other, _, _, _, found⟩
    · exact Nat.lt_succ_of_lt (linked.bounded side name ref earlier)
    · exact (@Kept.addNode F graph walk kept node typed).pointer_lt found
  honest name other ref member found := by
    have after := @Kept.addNode F graph walk kept node typed
    rw [mem_links_addNode] at member
    rcases member with earlier | ⟨producer, different, touched, feeds, here⟩
    · by_cases new : other = node.name
      · subst new
        have bound := linked.bounded _ _ _ earlier
        rw [pointer, stored_addNode, if_pos rfl] at found
        cases found
        exact absurd bound (lt_irrefl _)
      · have before := found
        rw [pointer, stored_addNode, if_neg new] at before
        by_cases replaced : name = node.name
        · -- the parent's pointer is to the node that was there before
          obtain ⟨id, back⟩ := linked.mirrored name other ref earlier before
          refine .inr ⟨id, mem_links_addNode node |>.mpr (.inl back), fun current => ?_⟩
          have bound := linked.bounded _ _ _ back
          rw [pointer, stored_addNode, if_pos replaced] at current
          cases current
          exact absurd bound (lt_irrefl _)
        · obtain ⟨same, _⟩ := @addNode_apart F graph walk .parents name other node replaced new
          rcases linked.honest name other ref earlier before with feeds | ⟨id, back, stale⟩
          · exact .inl (same.mpr feeds)
          · refine .inr ⟨id, mem_links_addNode node |>.mpr (.inl back), ?_⟩
            rwa [pointer, stored_addNode, if_neg replaced]
    · cases after.pointer_inj found here
      exact .inl feeds

end Adding

section Editing
variable {graph : Graph F} {edited : Text} {change : Edit F}

/-- An edit that leaves the outputs alone keeps all that the edges are made of. -/
theorem edit_stored (same : ∀ node : Node F, (change.apply node).outputs = node.outputs) (name : Text) :
    ∃ f : Nat × Node F → Nat × Node F, stored (graph.edit edited change.apply).nodeMap name =
      (stored graph.nodeMap name).map f ∧
      ∀ found, (f found).1 = found.1 ∧ (f found).2.name = found.2.name ∧ (f found).2.inputs = found.2.inputs ∧
        (f found).2.outputs = found.2.outputs := by
  have reads : ∀ node : Node F, (change.apply node).inputs = node.inputs := fun node => by cases change <;> rfl
  have named : ∀ node : Node F, (change.apply node).name = node.name := fun node => by cases change <;> rfl
  rw [stored_edit]
  split
  · exact ⟨_, rfl, fun found => ⟨rfl, named found.2, reads found.2, same found.2⟩⟩
  · exact ⟨id, Option.map_id'.symm ▸ rfl, fun _ => ⟨rfl, rfl, rfl, rfl⟩⟩

/-- Such an edit moves no edge. -/
theorem edit_table (same : ∀ node : Node F, (change.apply node).outputs = node.outputs) (side : Side) :
    (∀ ends, Feeds (stored (graph.edit edited change.apply).nodeMap) ends ↔ Feeds (stored graph.nodeMap) ends) ∧
      (∀ name, pointer (stored (graph.edit edited change.apply).nodeMap) name = pointer (stored graph.nodeMap) name) ∧
      ∀ name, linksOf side (graph.edit edited change.apply).nodeMap name = linksOf side graph.nodeMap name := by
  have table := @edit_stored F graph edited change same
  refine ⟨fun ends => ?_, fun name => ?_, fun name => ?_⟩
  · obtain ⟨f, first, keepsF⟩ := table ends.1
    obtain ⟨g, second, keepsG⟩ := table ends.2
    rw [Feeds, Feeds, first, second]
    constructor
    · rintro ⟨source, target, from_, to_, output, written, read⟩
      obtain ⟨producer, stays, rfl⟩ := Option.map_eq_some_iff.mp from_
      obtain ⟨consumer, remains, rfl⟩ := Option.map_eq_some_iff.mp to_
      rw [(keepsF producer).2.2.2] at written
      rw [(keepsG consumer).2.2.1] at read
      exact ⟨producer, consumer, stays, remains, output, written, read⟩
    · rintro ⟨source, target, from_, to_, output, written, read⟩
      refine ⟨f source, g target, by rw [from_]; rfl, by rw [to_]; rfl, output, ?_, ?_⟩
      · rwa [(keepsF source).2.2.2]
      · rwa [(keepsG target).2.2.1]
  · obtain ⟨f, here, keeps⟩ := table name
    rw [pointer, pointer, here, Option.map_map]
    congr 1
    funext found
    simp only [Function.comp_apply, (keeps found).1, (keeps found).2.1]
  · rw [edit, linksOf_adjust edited _ [] fun entry => by cases side <;> exact (List.append_nil _).symm]
    simp

theorem Wired.edit (wired : Wired graph) (edited : Text) (change : Edit F)
    (same : ∀ node : Node F, (change.apply node).outputs = node.outputs) : Wired (graph.edit edited change.apply) := by
  intro side name ref
  obtain ⟨feeds, points, links⟩ := @edit_table F graph edited change same side
  simp only [feeds, points, links]
  exact wired side name ref

theorem Linked.edit (linked : Linked graph) (edited : Text) (change : Edit F)
    (same : ∀ node : Node F, (change.apply node).outputs = node.outputs) : Linked (graph.edit edited change.apply) where
  complete side name other ref different := by
    obtain ⟨feeds, points, links⟩ := @edit_table F graph edited change same side
    simp only [feeds, points, links]
    exact linked.complete side name other ref different
  mirrored name other ref := by
    obtain ⟨_, points, parents⟩ := @edit_table F graph edited change same .parents
    obtain ⟨_, _, children⟩ := @edit_table F graph edited change same .children
    simp only [points, parents, children]
    exact linked.mirrored name other ref
  bounded side name ref := by
    obtain ⟨_, _, links⟩ := @edit_table F graph edited change same side
    simp only [links]
    exact linked.bounded side name ref
  honest name other ref := by
    obtain ⟨feeds, points, parents⟩ := @edit_table F graph edited change same .parents
    obtain ⟨_, _, children⟩ := @edit_table F graph edited change same .children
    simp only [feeds, points, parents, children]
    exact linked.honest name other ref

end Editing
end Graph

/-- The models the public interface builds when the edges are rebuilt after the
outputs of a node have been renamed, as the optimizer does. -/
inductive Model.Assembled : Model F → Prop
  | new : Assembled {}
  | addNode {model : Model F} (assembled : Assembled model) (walk : FiniteMap.Traversal Text (NodeEntry F))
      (name opTypeStr : Text) (inputs outputs : List Text) (attributes : FiniteMap Text (Attribute F)) :
      Assembled { model with graph := model.graph.addNode walk (Node.make name opTypeStr inputs outputs attributes) }
  | removeNode {model : Model F} (assembled : Assembled model) (walk : FiniteMap.Traversal Text (NodeEntry F))
      (name : Text) :
      Assembled { model with graph := model.graph.removeNode walk name }
  | rebuildEdges {model : Model F} (assembled : Assembled model) (walk : FiniteMap.Traversal Text (NodeEntry F)) :
      Assembled { model with graph := model.graph.rebuildEdges walk }
  | edit {model : Model F} (assembled : Assembled model) (name : Text) (change : Edit F)
      (same : ∀ node, (change.apply node).outputs = node.outputs) :
      Assembled { model with graph := model.graph.edit name change.apply }
  | rename {model : Model F} (assembled : Assembled model) (name : Text) (outputs : List Text)
      (walk : FiniteMap.Traversal Text (NodeEntry F)) :
      Assembled { model with graph := (model.graph.edit name (Edit.outputs outputs).apply).rebuildEdges walk }
  | setInputs {model : Model F} (assembled : Assembled model) (names : List Text) :
      Assembled { model with graph := { model.graph with inputs := names } }
  | setOutputs {model : Model F} (assembled : Assembled model) (names : List Text) :
      Assembled { model with graph := { model.graph with outputs := names } }
  | addInitializer {model : Model F} (assembled : Assembled model) (name : Text) (tensor : Tensor F) :
      Assembled (model.addInitializer name tensor)
  | removeInitializer {model : Model F} (assembled : Assembled model) (name : Text) :
      Assembled (model.removeInitializer name)

namespace Model.Assembled
variable {model : Model F}

theorem built (assembled : model.Assembled) : model.Built := by
  induction assembled with
  | new => exact .new
  | addNode _ walk name opTypeStr inputs outputs attributes ih =>
    exact ih.addNode walk name opTypeStr inputs outputs attributes
  | removeNode _ walk name ih => exact ih.removeNode walk name
  | rebuildEdges _ walk ih => exact ih.rebuildEdges walk
  | edit _ name change _ ih => exact ih.edit name change
  | rename _ name outputs walk ih => exact (ih.edit name (.outputs outputs)).rebuildEdges walk
  | setInputs _ names ih => exact ih.setInputs names
  | setOutputs _ names ih => exact ih.setOutputs names
  | addInitializer _ name tensor ih => exact ih.addInitializer name tensor
  | removeInitializer _ name ih => exact ih.removeInitializer name

theorem kept (assembled : model.Assembled) : model.graph.Kept := assembled.built.kept

theorem wired (assembled : model.Assembled) (distinct : model.graph.insertionOrder.Nodup) : model.graph.Wired := by
  induction assembled with
  | new => exact Graph.Wired.empty
  | @addNode model assembled walk name opTypeStr inputs outputs attributes ih =>
    obtain ⟨before, _, apart⟩ := List.nodup_append.mp distinct
    refine (ih before).addNode fun present => ?_
    exact apart _ ((assembled.kept.listed _).mpr present) _ List.mem_cons_self rfl
  | removeNode assembled walk name ih =>
    refine Graph.Wired.removeNode assembled.kept fun absent => ih ?_
    rwa [Graph.removeNode, if_neg absent] at distinct
  | rebuildEdges assembled walk _ => exact assembled.kept.rebuilt
  | edit assembled name change same ih => exact (ih distinct).edit name change same
  | rename assembled name outputs walk _ => exact (assembled.kept.edit name (.outputs outputs)).rebuilt
  | setInputs _ _ ih => exact ih distinct
  | setOutputs _ _ ih => exact ih distinct
  | addInitializer _ _ _ ih => exact ih distinct
  | removeInitializer _ _ ih => exact ih distinct

theorem linked (assembled : model.Assembled) : model.graph.Linked := by
  induction assembled with
  | new => exact Graph.Wired.empty.linked Graph.Kept.empty
  | addNode assembled walk name opTypeStr inputs outputs attributes ih => exact ih.addNode assembled.kept rfl
  | @removeNode model assembled walk name ih =>
    by_cases present : name ∈ model.graph.nodeMap
    · exact (Graph.Wired.removeNode assembled.kept fun absent => absurd present absent).linked
        (assembled.kept.removeNode name)
    · rw [Graph.removeNode, if_neg present]
      exact ih
  | rebuildEdges assembled walk _ => exact assembled.kept.rebuilt.linked assembled.kept.rebuildEdges
  | edit assembled name change same ih => exact ih.edit name change same
  | rename assembled name outputs walk _ =>
    have kept := assembled.kept.edit name (.outputs outputs)
    exact kept.rebuilt.linked kept.rebuildEdges
  | setInputs _ _ ih => exact ⟨ih.complete, ih.mirrored, ih.bounded, ih.honest⟩
  | setOutputs _ _ ih => exact ⟨ih.complete, ih.mirrored, ih.bounded, ih.honest⟩
  | addInitializer _ _ _ ih => exact ih
  | removeInitializer _ _ ih => exact ih

end Model.Assembled
end FromScratch.Inference
