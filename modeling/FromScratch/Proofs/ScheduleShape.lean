import FromScratch.Lib.Acyclic
import FromScratch.Lib.Dataflow
import FromScratch.Proofs.GraphRuns
import FromScratch.Proofs.TopologicalOrder

/-! The schedules of a graph that was built call by call. The search throws
exactly if the names of the tensors close a cycle of several nodes, and a node's
level is the length of the longest chain of parents that ends in it. -/

namespace FromScratch.Inference
open Lib (FiniteMap)
open Lib.Acyclic (Chain)
open Relation (TransGen)

variable {F : Type}

namespace Graph

/-- A pointer in the list of parents. -/
def Parent (graph : Graph F) (first last : NodeRef) : Prop := ∃ entry, graph.deref last = .ok entry ∧ first ∈ entry.parents

/-- A parent that is still there. -/
def LiveParent (graph : Graph F) (first last : NodeRef) : Prop := graph.Parent first last ∧ ∃ entry, graph.deref first =
    .ok entry

/-- One node writes what another reads. -/
def Depends (graph : Graph F) (first last : Text) : Prop := first ≠ last ∧ Feeds (stored graph.nodeMap) (first, last)

section Levels
variable {graph : Graph F} {order : List NodeRef}

theorem Closed.not_child {ref : NodeRef} (closed : Closed graph order) (member : ref ∈ order) {entry : NodeEntry F}
    (here : graph.deref ref = .ok entry) : ref ∉ entry.children := by
  induction order with
  | nil => cases member
  | cons first earlier ih =>
    rcases List.mem_cons.mp member with rfl | later
    · obtain ⟨other, found, all⟩ := closed.1
      cases here.symm.trans found
      exact fun below => closed.2.1 (all _ below)
    · exact ih closed.2.2 later

/-- The order has the nodes that are there. -/
theorem Kept.mem_order (kept : Kept graph) (sorted : graph.topologicalSort = .ok order) (ref : NodeRef) :
    ref ∈ order ↔ ∃ entry, graph.deref ref = .ok entry := by
  obtain ⟨closed, reached⟩ := topologicalSort_sound sorted
  refine ⟨closed.live, ?_⟩
  rintro ⟨entry, here⟩
  obtain ⟨found, same⟩ := deref_ok here
  have member := reached ref.name ((kept.listed _).mpr ((FiniteMap.mem_iff_lookup _ _).mpr ⟨entry, found⟩)) entry found
  rwa [NodeEntry.ref, kept.named_lookup found, same] at member

theorem LiveParent.mem (kept : Kept graph) (sorted : graph.topologicalSort = .ok order) {first last : NodeRef}
    (parent : graph.LiveParent first last) : first ∈ order ∧ last ∈ order := by
  obtain ⟨⟨entry, here, _⟩, live⟩ := parent
  exact ⟨(kept.mem_order sorted first).mpr live, (kept.mem_order sorted last).mpr ⟨entry, here⟩⟩

/-- Where the search has returned, no pointer to a child is stale. -/
theorem Linked.child (linked : Linked graph) (kept : Kept graph) (sorted : graph.topologicalSort = .ok order)
    {first last : NodeRef} {entry : NodeEntry F} (here : graph.deref first = .ok entry)
    (parent : graph.LiveParent first last) :
    last ∈ entry.children := by
  obtain ⟨⟨target, there, above⟩, _⟩ := parent
  have closed := (topologicalSort_sound sorted).1
  have link : first ∈ linksOf .parents graph.nodeMap last.name := by rwa [mem_links_deref there]
  obtain ⟨id, back⟩ := linked.mirrored last.name first.name first link (kept.pointer_deref here)
  rw [mem_links_deref here] at back
  obtain ⟨other, found⟩ := closed.live (closed.children ((kept.mem_order sorted first).mpr ⟨entry, here⟩) here back)
  have same := kept.pointer_deref found
  rw [kept.pointer_deref there] at same
  rwa [Option.some.inj same]

/-- Where the search has returned, the live parents are the nodes that feed the node. -/
theorem Linked.liveParent_iff (linked : Linked graph) (kept : Kept graph) (sorted : graph.topologicalSort = .ok order)
    {first last : NodeRef} : graph.LiveParent first last ↔ pointer (stored graph.nodeMap) first.name = some first ∧
      pointer (stored graph.nodeMap) last.name = some last ∧ graph.Depends first.name last.name := by
  constructor
  · intro parent
    obtain ⟨⟨target, there, above⟩, entry, here⟩ := id parent
    have from_ := kept.pointer_deref here
    have to_ := kept.pointer_deref there
    refine ⟨from_, to_, fun same => ?_, ?_⟩
    · rw [same, to_] at from_
      obtain rfl := Option.some.inj from_
      exact (topologicalSort_sound sorted).1.not_child ((kept.mem_order sorted _).mpr ⟨entry, here⟩) here
        (linked.child kept sorted here parent)
    · have link : first ∈ linksOf .parents graph.nodeMap last.name := by rwa [mem_links_deref there]
      refine (linked.honest last.name first.name first link from_).resolve_right ?_
      rintro ⟨id, back, stale⟩
      have closed := (topologicalSort_sound sorted).1
      rw [mem_links_deref here] at back
      obtain ⟨other, found⟩ := closed.live (closed.children ((kept.mem_order sorted first).mpr ⟨entry, here⟩) here back)
      exact stale (kept.pointer_deref found)
  · rintro ⟨from_, to_, apart, feeds⟩
    obtain ⟨target, there⟩ := (deref_iff kept).mpr to_
    have link := linked.complete .parents last.name first.name first apart feeds from_
    rw [mem_links_deref there] at link
    exact ⟨⟨target, there, link⟩, (deref_iff kept).mpr from_⟩

theorem Linked.later (linked : Linked graph) (kept : Kept graph) (sorted : graph.topologicalSort = .ok order) :
    order.Pairwise fun first second => ¬graph.LiveParent second first := by
  refine (topologicalSort_sound sorted).1.pairwise.imp_of_mem fun _ _ apart parent => ?_
  obtain ⟨entry, here⟩ := parent.2
  exact apart entry here (linked.child kept sorted here parent)

theorem Linked.not_parent (linked : Linked graph) (kept : Kept graph) (sorted : graph.topologicalSort = .ok order)
    (ref : NodeRef) :
    ¬graph.LiveParent ref ref := by
  intro parent
  obtain ⟨entry, here⟩ := parent.2
  exact (topologicalSort_sound sorted).1.not_child ((kept.mem_order sorted ref).mpr ⟨entry, here⟩) here
    (linked.child kept sorted here parent)

/-- A level is one more than the deepest level among the parents. -/
theorem Linked.heights (linked : Linked graph) (kept : Kept graph) (sorted : graph.topologicalSort = .ok order) :
    ∃ (level : NodeRef → Nat) (count : Nat),
      graph.executionLevels = .ok ((List.range count).map fun current => order.filter fun ref => level ref = current) ∧
      (∀ ref ∈ order, level ref < count) ∧ (0 < count → ∃ ref ∈ order, level ref + 1 = count) ∧
      ∀ ref ∈ order, ∀ k, k < level ref ↔ ∃ parent, graph.LiveParent parent ref ∧ k ≤ level parent := by
  obtain ⟨levels, made⟩ := executionLevels_complete sorted
  obtain ⟨order', level, count, sorted', levelled, cut, below, top⟩ := executionLevels_sound made
  cases sorted.symm.trans sorted'
  refine ⟨level, count, cut ▸ made, below, top, fun ref member k => ?_⟩
  have later : order.Pairwise fun first second => ∀ entry, graph.deref first = .ok entry → second ∉ entry.parents :=
    (linked.later kept sorted).imp_of_mem fun _ there apart entry here parent =>
      apart ⟨⟨entry, here, parent⟩, (kept.mem_order sorted _).mp there⟩
  have selfless : ∀ ref entry, graph.deref ref = .ok entry → ref ∉ entry.parents := fun ref entry here parent =>
    linked.not_parent kept sorted ref ⟨⟨entry, here, parent⟩, entry, here⟩
  obtain ⟨entry, here, deepest⟩ := levelled.deepest later selfless member
  rw [deepest k]
  constructor
  · rintro ⟨parent, above, inside, long⟩
    exact ⟨parent, ⟨⟨entry, here, above⟩, (kept.mem_order sorted _).mp (inside.resolve_left List.not_mem_nil)⟩, long⟩
  · rintro ⟨parent, above, long⟩
    have inside := (above.mem kept sorted).1
    obtain ⟨⟨other, points, member⟩, _⟩ := above
    cases here.symm.trans points
    exact ⟨parent, member, .inr inside, long⟩

end Levels

section Edges
variable {graph : Graph F} {ref other : NodeRef}

theorem Sound.parent_iff (sound : Sound graph) : graph.Parent other ref ↔
    pointer (stored graph.nodeMap) other.name = some other ∧ pointer (stored graph.nodeMap) ref.name = some ref ∧
      graph.Depends other.name ref.name := by
  constructor
  · rintro ⟨entry, here, member⟩
    have link : other ∈ linksOf .parents graph.nodeMap ref.name := by rwa [mem_links_deref here]
    obtain ⟨found, edge⟩ := (sound.mem_links .parents ref.name).mp link
    exact ⟨found, (deref_iff sound.kept).mp ⟨entry, here⟩, edge⟩
  · rintro ⟨found, target, edge⟩
    obtain ⟨entry, here⟩ := (deref_iff sound.kept).mpr target
    refine ⟨entry, here, ?_⟩
    have link := (sound.mem_links .parents ref.name).mpr ⟨found, edge⟩
    rwa [mem_links_deref here] at link

/-- The lists of children hold the same edges. -/
theorem Sound.child_iff (sound : Sound graph) {entry : NodeEntry F} (here : graph.deref ref = .ok entry) :
    other ∈ entry.children ↔ graph.Parent ref other := by
  have link : other ∈ entry.children ↔ other ∈ linksOf .children graph.nodeMap ref.name := by rw [mem_links_deref here]; rfl
  rw [link, sound.mem_links, sound.parent_iff]
  have found := sound.kept.pointer_deref here
  constructor
  · rintro ⟨target, different, feeds⟩
    exact ⟨found, target, different.symm, feeds⟩
  · rintro ⟨_, target, different, feeds⟩
    exact ⟨target, different.symm, feeds⟩

end Edges

section Cycles
variable {graph : Graph F}

theorem Sound.descends (sound : Sound graph) (ref : NodeRef) (live : pointer (stored graph.nodeMap) ref.name = some ref) :
    ∃ entry, graph.deref ref = .ok entry ∧ ∀ child ∈ entry.children,
      pointer (stored graph.nodeMap) child.name = some child ∧ graph.Depends ref.name child.name := by
  obtain ⟨entry, here⟩ := (deref_iff sound.kept).mpr live
  refine ⟨entry, here, fun child below => ?_⟩
  obtain ⟨_, target, edge⟩ := sound.parent_iff.mp ((sound.child_iff here).mp below)
  exact ⟨target, edge⟩

theorem Sound.listed (sound : Sound graph) (name : Text) (member : name ∈ graph.insertionOrder) :
    ∃ entry, graph.nodeMap.lookup name = some entry ∧ pointer (stored graph.nodeMap) entry.ref.name = some entry.ref := by
  obtain ⟨entry, found⟩ := (FiniteMap.mem_iff_lookup _ _).mp ((sound.kept.listed name).mp member)
  refine ⟨entry, found, ?_⟩
  rw [NodeEntry.ref, sound.kept.named_lookup found, pointer_lookup found, NodeEntry.ref, sound.kept.named_lookup found]

theorem depends_mem {first last : Text} (edge : graph.Depends first last) :
    first ∈ graph.nodeMap ∧ last ∈ graph.nodeMap := by
  obtain ⟨_, source, target, from_, to_, _⟩ := edge
  change stored graph.nodeMap first = some source at from_
  change stored graph.nodeMap last = some target at to_
  rw [mem_iff_stored, mem_iff_stored, from_, to_]
  exact ⟨rfl, rfl⟩

theorem Sound.linked (sound : Sound graph) : Linked graph := sound.wired.linked sound.kept

theorem Sound.liveParent_iff (sound : Sound graph) {first last : NodeRef} :
    graph.LiveParent first last ↔ graph.Parent first last :=
  and_iff_left_of_imp fun parent => (deref_iff sound.kept).mpr (sound.parent_iff.mp parent).1

/-- Whoever depends comes later. -/
theorem Sound.later (sound : Sound graph) {order : List NodeRef} (sorted : graph.topologicalSort = .ok order) :
    order.Pairwise fun first second => ¬graph.Parent second first :=
  (sound.linked.later sound.kept sorted).imp fun apart parent => apart (sound.liveParent_iff.mpr parent)

theorem Sound.mem_order (sound : Sound graph) {order : List NodeRef} (sorted : graph.topologicalSort = .ok order)
    (ref : NodeRef) :
    ref ∈ order ↔ pointer (stored graph.nodeMap) ref.name = some ref :=
  (sound.kept.mem_order sorted ref).trans (deref_iff sound.kept)

theorem Sound.heights (sound : Sound graph) {order : List NodeRef} (sorted : graph.topologicalSort = .ok order) :
    ∃ (level : NodeRef → Nat) (count : Nat),
      graph.executionLevels = .ok ((List.range count).map fun current => order.filter fun ref => level ref = current) ∧
      (∀ ref ∈ order, level ref < count) ∧ (0 < count → ∃ ref ∈ order, level ref + 1 = count) ∧
      ∀ ref ∈ order, ∀ k, k < level ref ↔ ∃ parent, graph.Parent parent ref ∧ k ≤ level parent := by
  obtain ⟨level, count, made, below, top, deepest⟩ := sound.linked.heights sound.kept sorted
  refine ⟨level, count, made, below, top, fun ref member k => ?_⟩
  simp only [deepest ref member k, sound.liveParent_iff]

/-- The search returns an order exactly if there is no cycle. -/
theorem Sound.sorts_iff (sound : Sound graph) :
    (∃ order, graph.topologicalSort = .ok order) ↔ ∀ name, ¬TransGen graph.Depends name name := by
  constructor
  · rintro ⟨order, sorted⟩ name cycle
    obtain ⟨level, _, _, _, _, deepest⟩ := sound.heights sorted
    -- the depth of a name is the level of its node
    have grows : ∀ first last, graph.Depends first last → ((pointer (stored graph.nodeMap) first).map level).getD 0 <
        ((pointer (stored graph.nodeMap) last).map level).getD 0 := by
      intro first last edge
      obtain ⟨_, source, target, from_, to_, _⟩ := id edge
      change stored graph.nodeMap first = some source at from_
      change stored graph.nodeMap last = some target at to_
      have above : pointer (stored graph.nodeMap) first = some ⟨source.2.name, source.1⟩ := by rw [pointer, from_]; rfl
      have below : pointer (stored graph.nodeMap) last = some ⟨target.2.name, target.1⟩ := by rw [pointer, to_]; rfl
      have parent : graph.Parent ⟨source.2.name, source.1⟩ ⟨target.2.name, target.1⟩ := by
        rw [sound.parent_iff, sound.kept.named _ _ _ from_, sound.kept.named _ _ _ to_]
        rw [sound.kept.named _ _ _ from_] at above
        rw [sound.kept.named _ _ _ to_] at below
        exact ⟨above, below, edge⟩
      rw [above, below]
      exact (deepest _ ((sound.mem_order sorted _).mpr (sound.parent_iff.mp parent).2.1) _).mpr ⟨_, parent, le_rfl⟩
    exact lt_irrefl _ (Lib.Acyclic.grows_along grows cycle)
  · intro acyclic
    obtain ⟨rank, falls, bounded⟩ := Lib.Acyclic.exists_rank graph.nodeMap.keys.toFinset
      (fun first last edge => List.mem_toFinset.mpr (AList.mem_keys.mp (depends_mem edge).2)) acyclic
    refine @topologicalSort_complete F graph (fun ref => rank ref.name)
      (fun ref => pointer (stored graph.nodeMap) ref.name = some ref)
      (fun ref live => ?_) (fun ref _ => ?_) sound.listed
    · obtain ⟨entry, here, below⟩ := sound.descends ref live
      exact ⟨entry, here, fun child member => ⟨(below child member).1, falls _ _ (below child member).2⟩⟩
    · exact (bounded ref.name).trans (List.toFinset_card_le _)

end Cycles

/-- The levels are the lengths of the longest chains of parents. -/
structure Layered (graph : Graph F) (levels : List (List NodeRef)) : Prop where
  longest : ∀ depth level, levels[depth]? = some level → ∀ ref ∈ level, ∀ length, Chain graph.Parent length ref ↔
    length ≤ depth
  higher : ∀ depth level, levels[depth]? = some level → ∀ ref ∈ level, ∀ parent, graph.Parent parent ref →
    ∃ (above : Nat) (higher : List NodeRef), levels[above]? = some higher ∧ parent ∈ higher ∧ above < depth
  apart : ∀ level ∈ levels, ∀ first ∈ level, ∀ last ∈ level, ¬TransGen graph.Parent first last
  occupied : ∀ level ∈ levels, level ≠ []

section Levels
variable {graph : Graph F} {order : List NodeRef}

theorem Sound.parent_mem (sound : Sound graph) (sorted : graph.topologicalSort = .ok order) {first last : NodeRef}
    (parent : graph.Parent first last) : first ∈ order ∧ last ∈ order := by
  obtain ⟨above, below, _⟩ := sound.parent_iff.mp parent
  exact ⟨(sound.mem_order sorted first).mpr above, (sound.mem_order sorted last).mpr below⟩

theorem Sound.layered (sound : Sound graph) (sorted : graph.topologicalSort = .ok order) :
    ∃ levels, graph.executionLevels = .ok levels ∧ levels.flatten.Perm order ∧ Layered graph levels := by
  obtain ⟨level, count, made, below, top, deepest⟩ := sound.heights sorted
  have distinct := (topologicalSort_sound sorted).1.nodup
  have grows : ∀ first last, graph.Parent first last → level first < level last := fun first last parent =>
    (deepest last (sound.parent_mem sorted parent).2 _).mpr ⟨first, parent, le_rfl⟩
  have cut : ∀ depth found, ((List.range count).map fun current => order.filter fun ref => level ref =
    current)[depth]? = some found →
      ∀ ref ∈ found, ref ∈ order ∧ level ref = depth := by
    intro depth found same ref member
    rw [List.getElem?_map] at same
    obtain ⟨current, here, rfl⟩ := Option.map_eq_some_iff.mp same
    obtain ⟨inside, rfl⟩ := List.getElem?_eq_some_iff.mp here
    rw [List.getElem_range] at member
    exact ⟨(List.mem_filter.mp member).1, of_decide_eq_true (List.mem_filter.mp member).2⟩
  -- from the last level upwards, through a deepest parent
  have filled : ∀ below depth, depth + below + 1 = count → ∃ ref ∈ order, level ref = depth := by
    intro below
    induction below with
    | zero =>
      intro depth last
      obtain ⟨ref, member, same⟩ := top (by omega)
      exact ⟨ref, member, by omega⟩
    | succ below ih =>
      intro depth last
      obtain ⟨ref, member, same⟩ := ih (depth + 1) (by omega)
      obtain ⟨parent, above, long⟩ := (deepest ref member depth).mp (by omega)
      have less := grows parent ref above
      exact ⟨parent, (sound.parent_mem sorted above).1, by omega⟩
  refine ⟨_, made, Lib.Dataflow.ranked_perm distinct below, ?_, ?_, ?_, ?_⟩
  · intro depth found same ref member length
    obtain ⟨inside, rfl⟩ := cut depth found same ref member
    have closed : ∀ first last, last ∈ order → graph.Parent first last → first ∈ order :=
      fun first last _ parent => (sound.parent_mem sorted parent).1
    exact Lib.Acyclic.chain_iff closed deepest inside length
  · intro depth found same ref member parent above
    obtain ⟨inside, rfl⟩ := cut depth found same ref member
    have here := (sound.parent_mem sorted above).1
    refine ⟨level parent, order.filter fun ref => level ref = level parent, ?_, ?_, grows parent ref above⟩
    · rw [List.getElem?_map, List.getElem?_range (below parent here)]
      rfl
    · exact List.mem_filter.mpr ⟨here, decide_eq_true rfl⟩
  · intro found member first here last there path
    obtain ⟨depth, same⟩ := List.getElem?_of_mem member
    have less := Lib.Acyclic.grows_along grows path
    rw [(cut depth found same first here).2, (cut depth found same last there).2] at less
    exact lt_irrefl _ less
  · intro found member
    obtain ⟨depth, inside, rfl⟩ := List.mem_map.mp member
    obtain ⟨ref, here, same⟩ := filled (count - 1 - depth) depth (by have := List.mem_range.mp inside; omega)
    exact List.ne_nil_of_mem (List.mem_filter.mpr ⟨here, decide_eq_true same⟩)

/-- The order lists every node once. -/
theorem Sound.names_order (sound : Sound graph) (sorted : graph.topologicalSort = .ok order) :
    (order.map NodeRef.name).Perm graph.insertionOrder := by
  have distinct : (order.map NodeRef.name).Nodup := by
    refine (List.nodup_map_iff_inj_on (topologicalSort_sound sorted).1.nodup).mpr fun first here second there same => ?_
    have above := (sound.mem_order sorted first).mp here
    rw [same, (sound.mem_order sorted second).mp there] at above
    exact (Option.some.inj above).symm
  refine (List.perm_ext_iff_of_nodup distinct sound.distinct).mpr fun name => ?_
  rw [sound.kept.listed, List.mem_map]
  constructor
  · rintro ⟨ref, member, rfl⟩
    obtain ⟨entry, here⟩ := (topologicalSort_sound sorted).1.live member
    exact (FiniteMap.mem_iff_lookup _ _).mpr ⟨entry, (deref_ok here).1⟩
  · intro present
    obtain ⟨entry, found, live⟩ := sound.listed name ((sound.kept.listed name).mpr present)
    exact ⟨entry.ref, (sound.mem_order sorted _).mpr live, sound.kept.named_lookup found⟩

theorem Sound.idxOf_lt (sound : Sound graph) (sorted : graph.topologicalSort = .ok order) {first last : NodeRef}
    (parent : graph.Parent first last) : order.idxOf first < order.idxOf last := by
  obtain ⟨here, there⟩ := sound.parent_mem sorted parent
  rcases Nat.lt_trichotomy (order.idxOf first) (order.idxOf last) with less | same | more
  · exact less
  · have equal := (List.idxOf_inj here).mp same
    exact absurd (congrArg NodeRef.name equal) (sound.parent_iff.mp parent).2.2.1
  · have apart := List.pairwise_iff_getElem.mp (sound.later sorted) _ _ (List.idxOf_lt_length_of_mem there)
      (List.idxOf_lt_length_of_mem here) more
    rw [List.getElem_idxOf, List.getElem_idxOf] at apart
    exact absurd parent apart

end Levels

section Runs
variable {calls : List (GraphCall F)}

/-- The search of a graph that was built of nodes with names of their own throws
exactly if the nodes depend on each other in a circle. A node that reads its own
output is none. -/
theorem topologicalSort_throws_iff (fresh : FreshRun calls) :
    ((∃ what, (after calls).topologicalSort = .error (.runtimeError what)) ↔
    ∃ name, TransGen (after calls).Depends name name) ∧
      ((∃ order, (after calls).topologicalSort = .ok order) ↔ ¬∃ name, TransGen (after calls).Depends name name) := by
  have sound := sound_after fresh
  have sorts := sound.sorts_iff
  rw [← not_exists] at sorts
  refine ⟨?_, sorts⟩
  constructor
  · rintro ⟨what, failed⟩
    by_contra acyclic
    obtain ⟨order, sorted⟩ := sorts.mpr acyclic
    cases failed.symm.trans sorted
  · intro cyclic
    refine (@topologicalSort_outcome F _ (fun ref => pointer (stored (after calls).nodeMap) ref.name = some ref) ?_ ?_
      sound.listed).resolve_left fun sorted => sorts.mp sorted cyclic
    · intro first second here there same
      rw [same, there] at here
      exact (Option.some.inj here).symm
    · intro ref live
      obtain ⟨entry, here, below⟩ := sound.descends ref live
      exact ⟨entry, here, fun child member => (below child member).1⟩

/-- Two nodes that read each other. -/
theorem topologicalSort_throws_pair : ∃ calls : List (GraphCall Nat), FreshRun calls ∧
    ∃ what, (after calls).topologicalSort = .error (.runtimeError what) := by
  let add (name input output : String) : GraphCall Nat :=
    .addNode .kept (text name) (text "Relu") [text input] [text output] ∅
  have fresh : FreshRun (([] ++ [add "a" "y" "x"]) ++ [add "b" "x" "y"]) :=
    (FreshRun.empty.append (by decide +kernel)).append (by decide +kernel)
  have there : (after (([] ++ [add "a" "y" "x"]) ++ [add "b" "x" "y"])).Depends (text "a") (text "b") :=
    ⟨by decide, _, _, rfl, rfl, text "x", by decide +kernel, by decide +kernel⟩
  have back : (after (([] ++ [add "a" "y" "x"]) ++ [add "b" "x" "y"])).Depends (text "b") (text "a") :=
    ⟨by decide, _, _, rfl, rfl, text "y", by decide +kernel, by decide +kernel⟩
  exact ⟨_, fresh, (topologicalSort_throws_iff fresh).1.mpr ⟨text "a", .head there (.single back)⟩⟩

/-- A node that reads its own output closes a cycle of one, and is put in order. -/
theorem topologicalSort_of_selfReader : ∃ calls : List (GraphCall Nat), FreshRun calls ∧
    (∃ order, (after calls).topologicalSort = .ok order) ∧
      ∃ name, TransGen (fun first last => Feeds (stored (after calls).nodeMap) (first, last)) name name := by
  let loop : GraphCall Nat := .addNode .kept (text "a") (text "Relu") [text "t"] [text "t"] ∅
  have fresh : FreshRun ([] ++ [loop]) := FreshRun.empty.append (by decide +kernel)
  exact ⟨_, fresh, ⟨_, rfl⟩, text "a", .single ⟨_, _, rfl, rfl, text "t", by decide +kernel, by decide +kernel⟩⟩

/-- Where the search returns, its order lists each node once, and the order and the
levels are right. -/
theorem schedules_valid (fresh : FreshRun calls) {order : List NodeRef}
    (sorted : (after calls).topologicalSort = .ok order) :
    ((after calls).insertionOrder.Nodup ∧ ∀ name, name ∈ (after calls).insertionOrder ↔ name ∈ (after calls).nodeMap) ∧
      (order.map NodeRef.name).Perm (after calls).insertionOrder ∧
      (∀ ref ∈ order, ∃ entry, (after calls).deref ref = .ok entry) ∧
      (∀ first last, (after calls).Parent first last → order.idxOf first < order.idxOf last) ∧
      ∃ levels, (after calls).executionLevels = .ok levels ∧ levels.flatten.Perm order ∧ Layered (after calls) levels := by
  have sound := sound_after fresh
  exact ⟨⟨sound.distinct, sound.kept.listed⟩, sound.names_order sorted,
    fun ref member => (topologicalSort_sound sorted).1.live member,
    fun first last => sound.idxOf_lt sorted, sound.layered sorted⟩

theorem schedules_valid_pair : ∃ calls : List (GraphCall Nat), FreshRun calls ∧ calls.length = 2 ∧
    ∃ levels, (after calls).executionLevels = .ok levels ∧ Layered (after calls) levels := by
  let add (name input output : String) : GraphCall Nat :=
    .addNode .kept (text name) (text "Relu") [text input] [text output] ∅
  have fresh : FreshRun (([] ++ [add "b" "t" "y"]) ++ [add "a" "x" "t"]) :=
    (FreshRun.empty.append (by decide +kernel)).append (by decide +kernel)
  have sorted : (after (([] ++ [add "b" "t" "y"]) ++ [add "a" "x" "t"])).topologicalSort =
    .ok [⟨text "a", 1⟩, ⟨text "b", 0⟩] := by
    decide +kernel
  obtain ⟨_, _, _, _, levels, made, _, layered⟩ := schedules_valid fresh sorted
  exact ⟨_, fresh, rfl, levels, made, layered⟩

end Runs
end Graph
end FromScratch.Inference
